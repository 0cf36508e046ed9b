import Axmm.Addr
import Axmm.BTreeMap
import Axmm.Backend
import Axmm.Area
import Axmm.Set
import Axmm.Inv
import Axmm.Protect
import Axmm.Adjust
import Axmm.FreeArea
import Axmm.Lookup
import Axmm.Layout
import Axmm.UnmapPhases
import Axmm.Unmap
import Axmm.Map
import Axmm.Reach
import Axmm.Ideal
import Axmm.UnmapFailure
import Axmm.Frames
import Axmm.FrameRuns
import Axmm.AreaCount
import Axmm.Table
