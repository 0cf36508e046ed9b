import Axmm.Backend
/-!
# Area — `MemoryArea` (area.rs)

An area is a range, the frames it holds keyed by page (`RAII` build), its flags and its backend.  Each operation is
the source's, in the source's order: the `assert!`s and a `size()` whose `sub_addr` underflows panic; a backend call
that fails returns `Err(BadState)` before the area is touched.  `stat`, `clone_`, `set_end` and `unmap_frames` are
here too, though no call of the memory set makes them.

The lemmas after the definitions unfold each operation once, with its guards discharged (`shrinkLeft_eq` and the
like); later modules cite them and never unfold the operations.
-/
namespace Axmm

/-- `MemoryArea` in the `RAII` build. -/
structure MemoryArea (B F FR : Type) where
  vaRange : AddrRange
  frames : BTreeMap FR
  flags : F
  backend : B

/-- `AreaStat`, what `MemoryArea::stat` reports. -/
structure AreaStat where
  start : Nat
  «end» : Nat
  size : Nat
  rss : Nat
  swap : Nat
deriving DecidableEq, Repr

namespace MemoryArea

variable {B F PT FR : Type}

/-- `MemoryArea::new`; `from_start_size` panics on overflow, which the caller rules out. -/
def new (start size : Nat) (h : start + size ≤ usizeMax) (frameAlloced : Option (BTreeMap FR)) (flags : F)
    (backend : B) : MemoryArea B F FR :=
  ⟨AddrRange.fromStartSize start size h, frameAlloced.getD BTreeMap.empty, flags, backend⟩

/-- `MemoryArea::start`. -/
def start (a : MemoryArea B F FR) : Nat := a.vaRange.start

/-- `MemoryArea::end`. -/
def «end» (a : MemoryArea B F FR) : Nat := a.vaRange.end

theorem start_le (a : MemoryArea B F FR) : a.start ≤ usizeMax := a.vaRange.start_le

theorem end_le (a : MemoryArea B F FR) : a.end ≤ usizeMax := a.vaRange.end_le

theorem le_max_of_le_end (a : MemoryArea B F FR) {x : Nat} (h : x ≤ a.end) : x ≤ usizeMax := Nat.le_trans h a.end_le

/-- `MemoryArea::size`, which panics (`none`) on a range turned round. -/
def size (a : MemoryArea B F FR) : Option Nat := a.vaRange.size

/-- `MemoryArea::set_flags`. -/
def setFlags (a : MemoryArea B F FR) (newFlags : F) : MemoryArea B F FR := { a with flags := newFlags }

/-- `MemoryArea::retain_frames_in_range`. -/
def retainFramesInRange (a : MemoryArea B F FR) : MemoryArea B F FR :=
  { a with frames := a.frames.retain fun frame _ => a.vaRange.contains frame }

/-- The area on the range `r`, its frames retained to it: what `shrink_left` and `shrink_right` leave. -/
def withRange (a : MemoryArea B F FR) (r : AddrRange) : MemoryArea B F FR :=
  retainFramesInRange { a with vaRange := r }

/-- `MemoryArea::clone_`: a copy with other flags. -/
def clone_ (a : MemoryArea B F FR) (flags : F) : MemoryArea B F FR := a.setFlags flags

/-- `MemoryArea::new_mmap` (`mmap` build), the body of `new`. -/
def newMmap (start size : Nat) (h : start + size ≤ usizeMax) (frameAlloced : Option (BTreeMap FR)) (flags : F)
    (backend : B) : MemoryArea B F FR :=
  new start size h frameAlloced flags backend

/-- `MemoryArea::set_end`, a `usize` address; the frames are retained to the new range. -/
def setEnd (a : MemoryArea B F FR) (newEnd : Nat) (h : newEnd ≤ usizeMax) : MemoryArea B F FR :=
  a.withRange { a.vaRange with «end» := newEnd, end_le := h }

/-- `MemoryArea::frames_count`. -/
def framesCount (a : MemoryArea B F FR) : Nat := a.frames.len

/-- `MemoryArea::stat`: `rss` counts a `PAGE_SIZE_4K` page per frame; `size()` panics (`none`) on a range turned
round. -/
def stat (a : MemoryArea B F FR) : Option AreaStat :=
  a.size.map fun size => ⟨a.start, a.end, size, a.framesCount * 4096, 0⟩

variable [MappingBackend B F PT FR]

/-- `MemoryArea::map_area`. -/
def mapArea (a : MemoryArea B F FR) (pt : PT) (flags : Option F) : Outcome (MemoryArea B F FR × PT) :=
  let flag := flags.getD a.flags
  match a.size with
  | none => .panic
  | some size =>
    match MappingBackend.map a.backend a.start size flag pt with
    | (none, pt) => .err .BadState (a, pt)
    | (some frameRefs, pt) => .ok ({ a with frames := a.frames.extend frameRefs.toList }, pt)

/-- `MemoryArea::unmap_area`. -/
def unmapArea (a : MemoryArea B F FR) (pt : PT) : Outcome (MemoryArea B F FR × PT) :=
  match a.size with
  | none => .panic
  | some size =>
    match MappingBackend.unmap a.backend a.start size pt with
    | (false, pt) => .err .BadState (a, pt)
    | (true, pt) => .ok ({ a with frames := BTreeMap.empty }, pt)

/-- `MemoryArea::unmap_frames`: the backend unmaps `[start, start + size)`, then the frames from `start` on are taken
out and those from `start.add(size)` on put back; `add` panics on overflow. -/
def unmapFrames (a : MemoryArea B F FR) (start size : Nat) (pt : PT) : Outcome (MemoryArea B F FR × PT) :=
  match MappingBackend.unmap a.backend start size pt with
  | (false, pt) => .err .BadState (a, pt)
  | (true, pt) =>
    match checkedAdd start size with
    | none => .panic
    | some «end» =>
      let tail := (a.frames.splitOff start).2
      .ok ({ a with frames := (a.frames.splitOff start).1.append (tail.splitOff «end»).2 }, pt)

/-- `MemoryArea::protect_area`: the backend's answer is dropped. -/
def protectArea (a : MemoryArea B F FR) (newFlags : F) (pt : PT) : Outcome (MemoryArea B F FR × PT) :=
  match a.size with
  | none => .panic
  | some size => .ok (a, (MappingBackend.protect a.backend a.start size newFlags pt).2)

/-- `MemoryArea::shrink_left`. -/
def shrinkLeft (a : MemoryArea B F FR) (newSize : Nat) (pt : PT) : Outcome (MemoryArea B F FR × PT) :=
  match a.size with
  | none => .panic
  | some size =>
    if ¬(newSize > 0 ∧ newSize < size) then .panic else
    let unmapSize := size - newSize
    match MappingBackend.unmap a.backend a.start unmapSize pt with
    | (false, pt) => .err .BadState (a, pt)
    | (true, pt) =>
      .ok (a.withRange { a.vaRange with start := wrappingAdd a.start unmapSize, start_le := wrappingAdd_le _ _ }, pt)

/-- `MemoryArea::shrink_right`. -/
def shrinkRight (a : MemoryArea B F FR) (newSize : Nat) (pt : PT) : Outcome (MemoryArea B F FR × PT) :=
  match a.size with
  | none => .panic
  | some size =>
    if ¬(newSize > 0 ∧ newSize < size) then .panic else
    let unmapSize := size - newSize
    let unmapStart := wrappingAdd a.start newSize
    match MappingBackend.unmap a.backend unmapStart unmapSize pt with
    | (false, pt) => .err .BadState (a, pt)
    | (true, pt) =>
      .ok (a.withRange { a.vaRange with «end» := wrappingSub a.end unmapSize, end_le := wrappingSub_le _ _ }, pt)

/-- `MemoryArea::extend_left`. -/
def extendLeft (a : MemoryArea B F FR) (newSize : Nat) (pt : PT) : Outcome (MemoryArea B F FR × PT) :=
  match a.size with
  | none => .panic
  | some size =>
    if ¬(newSize > 0 ∧ newSize > size) then .panic else
    let mapSize := newSize - size
    let mapStart := wrappingSub a.start mapSize
    match MappingBackend.map a.backend mapStart mapSize a.flags pt with
    | (none, pt) => .err .BadState (a, pt)
    | (some newFrames, pt) =>
      .ok ({ a with vaRange := { a.vaRange with start := mapStart, start_le := wrappingSub_le _ _ },
                    frames := a.frames.append newFrames }, pt)

/-- `MemoryArea::extend_right`. -/
def extendRight (a : MemoryArea B F FR) (newSize : Nat) (pt : PT) : Outcome (MemoryArea B F FR × PT) :=
  match a.size with
  | none => .panic
  | some size =>
    if ¬(newSize > 0 ∧ newSize > size) then .panic else
    let mapSize := newSize - size
    let mapStart := wrappingAdd a.start size
    match MappingBackend.map a.backend mapStart mapSize a.flags pt with
    | (none, pt) => .err .BadState (a, pt)
    | (some newFrames, pt) =>
      .ok ({ a with vaRange := { a.vaRange with «end» := wrappingAdd a.end mapSize, end_le := wrappingAdd_le _ _ },
                    frames := a.frames.append newFrames }, pt)

theorem split_size_le (a : MemoryArea B F FR) {pos : Nat} (h : pos < a.end) : pos + wrappingSub a.end pos ≤ usizeMax := by
  have := a.end_le
  rw [wrappingSub_of_le (Nat.le_of_lt h) this]
  omega

/-- `MemoryArea::split`: the area truncated to `[start, pos)` and the new right part `[pos, end)`, the frames split
at `pos`; `None` unless `pos` lies strictly inside. -/
def split (a : MemoryArea B F FR) (pos : Nat) : Option (MemoryArea B F FR × MemoryArea B F FR) :=
  if h : a.start < pos ∧ pos < a.end then
    some ({ a with vaRange := { a.vaRange with «end» := pos, end_le := a.le_max_of_le_end (Nat.le_of_lt h.2) },
                   frames := (a.frames.splitOff pos).1 },
          new pos (wrappingSub a.end pos) (a.split_size_le h.2) (some (a.frames.splitOff pos).2) a.flags a.backend)
  else none

/-- `MemoryArea::insert_frame`, with its old frame.  `debug_assert!` is taken as in a debug build: it panics (`none`)
on an unaligned address, where a release build would skip it and fill the page anyway. -/
def insertFrame (a : MemoryArea B F FR) (vaddr : Nat) (frame : FR) : Option (Option FR × MemoryArea B F FR) :=
  if isAligned4k vaddr then some (a.frames.get? vaddr, { a with frames := a.frames.insert vaddr frame }) else none

/-- `MemoryArea::find_frame`; `debug_assert!`, as in a debug build, panics (`none`) on an unaligned address. -/
def findFrame (a : MemoryArea B F FR) (vaddr : Nat) : Option (Option FR) :=
  if isAligned4k vaddr then some (a.frames.get? vaddr) else none

/-! ## Fields -/

@[simp] theorem setFlags_vaRange (a : MemoryArea B F FR) (f : F) : (a.setFlags f).vaRange = a.vaRange := rfl
@[simp] theorem setFlags_flags (a : MemoryArea B F FR) (f : F) : (a.setFlags f).flags = f := rfl
@[simp] theorem setFlags_backend (a : MemoryArea B F FR) (f : F) : (a.setFlags f).backend = a.backend := rfl
@[simp] theorem withRange_vaRange (a : MemoryArea B F FR) (r : AddrRange) : (a.withRange r).vaRange = r := rfl
@[simp] theorem withRange_start (a : MemoryArea B F FR) (r : AddrRange) : (a.withRange r).start = r.start := rfl
@[simp] theorem withRange_end (a : MemoryArea B F FR) (r : AddrRange) : (a.withRange r).end = r.end := rfl
@[simp] theorem withRange_flags (a : MemoryArea B F FR) (r : AddrRange) : (a.withRange r).flags = a.flags := rfl
@[simp] theorem withRange_backend (a : MemoryArea B F FR) (r : AddrRange) : (a.withRange r).backend = a.backend := rfl

theorem size_eq (a : MemoryArea B F FR) (h : a.start ≤ a.end) : a.size = some (a.end - a.start) :=
  AddrRange.size_of_le h

/-- **What a successful `split` returns**: the left part is `[start, pos)`, the right part `[pos, end)`, both with the
flags and the backend, and the frames parted at `pos`. -/
theorem split_eq_some {a : MemoryArea B F FR} {pos : Nat} {l r : MemoryArea B F FR} (h : a.split pos = some (l, r)) :
    a.start < pos ∧ pos < a.end ∧ l.start = a.start ∧ l.end = pos ∧ r.start = pos ∧ r.end = a.end ∧
      l.flags = a.flags ∧ r.flags = a.flags ∧ l.backend = a.backend ∧ r.backend = a.backend ∧
      l.frames = (a.frames.splitOff pos).1 ∧ r.frames = (a.frames.splitOff pos).2 := by
  unfold split at h
  split at h
  · rename_i hp
    simp only [Option.some.injEq, Prod.mk.injEq] at h
    obtain ⟨rfl, rfl⟩ := h
    refine ⟨hp.1, hp.2, rfl, rfl, rfl, ?_, rfl, rfl, rfl, rfl, rfl, rfl⟩
    show pos + wrappingSub a.end pos = a.end
    rw [wrappingSub_of_le (Nat.le_of_lt hp.2) a.end_le]
    omega
  · cases h

theorem split_isSome {a : MemoryArea B F FR} {pos : Nat} (h1 : a.start < pos) (h2 : pos < a.end) :
    ∃ l r, a.split pos = some (l, r) :=
  ⟨_, _, dif_pos ⟨h1, h2⟩⟩

theorem split_eq_none (a : MemoryArea B F FR) {pos : Nat} (h : ¬(a.start < pos ∧ pos < a.end)) : a.split pos = none :=
  dif_neg h

theorem sub_le_end (a : MemoryArea B F FR) (n : Nat) : a.end - n ≤ a.end := Nat.sub_le _ _

theorem start_add_le {a : MemoryArea B F FR} {n : Nat} (h : n < a.end - a.start) : a.start + n ≤ a.end := by omega

/-- **`shrink_left` within its precondition**: the backend unmaps `[start, end - newSize)`; on success the area is
`[end - newSize, end)`, else it is untouched. -/
theorem shrinkLeft_eq (a : MemoryArea B F FR) (pt : PT) {n : Nat} (h : a.start ≤ a.end) (hn : 0 < n)
    (hn' : n < a.end - a.start) :
    a.shrinkLeft n pt =
      match MappingBackend.unmap a.backend a.start (a.end - a.start - n) pt with
      | (false, pt) => .err .BadState (a, pt)
      | (true, pt) =>
        .ok (a.withRange { a.vaRange with start := a.end - n, start_le := a.le_max_of_le_end (a.sub_le_end n) }, pt) := by
  have hw : wrappingAdd a.start (a.end - a.start - n) = a.end - n := by
    rw [wrappingAdd_of_le (a.le_max_of_le_end (by omega))]; omega
  simp only [shrinkLeft, a.size_eq h, if_neg (show ¬¬(n > 0 ∧ n < a.end - a.start) from not_not.2 ⟨hn, hn'⟩), hw]

/-- **`shrink_right` within its precondition**: the backend unmaps `[start + newSize, end)`; on success the area is
`[start, start + newSize)`, else it is untouched. -/
theorem shrinkRight_eq (a : MemoryArea B F FR) (pt : PT) {n : Nat} (h : a.start ≤ a.end) (hn : 0 < n)
    (hn' : n < a.end - a.start) :
    a.shrinkRight n pt =
      match MappingBackend.unmap a.backend (a.start + n) (a.end - a.start - n) pt with
      | (false, pt) => .err .BadState (a, pt)
      | (true, pt) =>
        .ok (a.withRange { a.vaRange with «end» := a.start + n, end_le := a.le_max_of_le_end (start_add_le hn') }, pt) := by
  have hw : wrappingAdd a.start n = a.start + n := wrappingAdd_of_le (a.le_max_of_le_end (start_add_le hn'))
  have hw' : wrappingSub a.end (a.end - a.start - n) = a.start + n := by
    rw [wrappingSub_of_le (by omega) a.end_le]; omega
  simp only [shrinkRight, a.size_eq h, if_neg (show ¬¬(n > 0 ∧ n < a.end - a.start) from not_not.2 ⟨hn, hn'⟩), hw, hw']

/-- **`extend_right` within its precondition**: the backend maps `[end, start + newSize)`; on success the area is
`[start, start + newSize)` with the frames the backend installed, else it is untouched. -/
theorem extendRight_eq (a : MemoryArea B F FR) (pt : PT) {n : Nat} (h : a.start ≤ a.end) (hn : a.end - a.start < n)
    (hmax : a.start + n ≤ usizeMax) :
    a.extendRight n pt =
      match MappingBackend.map a.backend a.end (n - (a.end - a.start)) a.flags pt with
      | (none, pt) => .err .BadState (a, pt)
      | (some newFrames, pt) =>
        .ok ({ a with vaRange := { a.vaRange with «end» := a.start + n, end_le := hmax },
                      frames := a.frames.append newFrames }, pt) := by
  have hw : wrappingAdd a.start (a.end - a.start) = a.end := by rw [wrappingAdd_of_le (by omega)]; omega
  have hw' : wrappingAdd a.end (n - (a.end - a.start)) = a.start + n := by rw [wrappingAdd_of_le (by omega)]; omega
  simp only [extendRight, a.size_eq h, if_neg (show ¬¬(n > 0 ∧ n > a.end - a.start) from not_not.2 ⟨by omega, hn⟩),
    hw, hw']

theorem unmapArea_eq (a : MemoryArea B F FR) (pt : PT) (h : a.start ≤ a.end) :
    a.unmapArea pt =
      match MappingBackend.unmap a.backend a.start (a.end - a.start) pt with
      | (false, pt) => .err .BadState (a, pt)
      | (true, pt) => .ok ({ a with frames := BTreeMap.empty }, pt) := by
  simp only [unmapArea, a.size_eq h]

theorem protectArea_eq (a : MemoryArea B F FR) (g : F) (pt : PT) (h : a.start ≤ a.end) :
    a.protectArea g pt = .ok (a, (MappingBackend.protect a.backend a.start (a.end - a.start) g pt).2) := by
  simp only [protectArea, a.size_eq h]

theorem mapArea_eq (a : MemoryArea B F FR) (pt : PT) (flags : Option F) (h : a.start ≤ a.end) :
    a.mapArea pt flags =
      match MappingBackend.map a.backend a.start (a.end - a.start) (flags.getD a.flags) pt with
      | (none, pt) => .err .BadState (a, pt)
      | (some frameRefs, pt) => .ok ({ a with frames := a.frames.extend frameRefs.toList }, pt) := by
  simp only [mapArea, a.size_eq h]

/-! ## Frames -/

/-- **The frame table keeps to its area** (spec §4.2): every key lies in the range and is 4K-aligned. -/
def FramesInside (a : MemoryArea B F FR) : Prop :=
  ∀ p ∈ a.frames.toList, a.vaRange.contains p.1 = true ∧ isAligned4k p.1 = true

instance (a : MemoryArea B F FR) : Decidable a.FramesInside :=
  inferInstanceAs (Decidable (∀ p ∈ a.frames.toList, a.vaRange.contains p.1 = true ∧ isAligned4k p.1 = true))

@[simp] theorem setFlags_frames (a : MemoryArea B F FR) (f : F) : (a.setFlags f).frames = a.frames := rfl

theorem mem_withRange_frames {a : MemoryArea B F FR} {r : AddrRange} {p : Nat × FR} :
    p ∈ (a.withRange r).frames.toList ↔ p ∈ a.frames.toList ∧ r.contains p.1 = true := by
  simp [withRange, retainFramesInRange]

theorem mem_withRange_ofBounds {a : MemoryArea B F FR} {lo hi : Nat} {p : Nat × FR} (hhi : hi ≤ usizeMax)
    (hp : p ∈ a.frames.toList) (h1 : lo ≤ p.1) (h2 : p.1 < hi) : p ∈ (a.withRange (.ofBounds lo hi)).frames.toList :=
  mem_withRange_frames.2 ⟨hp, by
    simp (disch := omega) only [AddrRange.contains_iff, AddrRange.ofBounds_start_of_le, AddrRange.ofBounds_end_of_le]
    omega⟩

theorem FramesInside.withRange {a : MemoryArea B F FR} (ha : a.FramesInside) (r : AddrRange) :
    (a.withRange r).FramesInside := fun p hp =>
  have hp := mem_withRange_frames.1 hp
  ⟨hp.2, (ha p hp.1).2⟩

theorem split_frames {a l r : MemoryArea B F FR} {pos : Nat} (h : a.split pos = some (l, r)) (p : Nat × FR) :
    (p ∈ l.frames.toList ↔ p ∈ a.frames.toList ∧ p.1 < pos) ∧
      (p ∈ r.frames.toList ↔ p ∈ a.frames.toList ∧ pos ≤ p.1) := by
  obtain ⟨-, -, -, -, -, -, -, -, -, -, hl, hr⟩ := split_eq_some h
  rw [hl, hr, BTreeMap.mem_splitOff_fst, BTreeMap.mem_splitOff_snd]
  exact ⟨Iff.rfl, Iff.rfl⟩

theorem split_frames_perm {a l r : MemoryArea B F FR} {pos : Nat} (h : a.split pos = some (l, r)) :
    (l.frames.toList ++ r.frames.toList).Perm a.frames.toList := by
  obtain ⟨-, -, -, -, -, -, -, -, -, -, hl, hr⟩ := split_eq_some h
  rw [hl, hr]
  exact BTreeMap.splitOff_perm _ _

theorem FramesInside.split {a l r : MemoryArea B F FR} {pos : Nat} (ha : a.FramesInside) (h : a.split pos = some (l, r)) :
    l.FramesInside ∧ r.FramesInside := by
  obtain ⟨-, -, hl1, hl2, hr1, hr2, -⟩ := split_eq_some h
  simp only [MemoryArea.start, MemoryArea.end] at hl1 hl2 hr1 hr2
  refine ⟨fun p hp => ?_, fun p hp => ?_⟩ <;>
  [have hp := ((split_frames h p).1.1 hp); have hp := ((split_frames h p).2.1 hp)] <;>
  · obtain ⟨hc, hal⟩ := ha p hp.1
    rw [AddrRange.contains_iff] at hc ⊢
    exact ⟨by omega, hal⟩

theorem FramesInside.of_frames_subset {a a' : MemoryArea B F FR} (ha : a.FramesInside) (hr : a'.vaRange = a.vaRange)
    (h : ∀ p ∈ a'.frames.toList, p ∈ a.frames.toList) : a'.FramesInside := fun p hp => hr ▸ ha p (h p hp)

/-- **Areas that are `a` cut in pieces, frame-wise**: their frame tables part `a`'s, and each keeps to its piece when
`a`'s keeps to `a`. -/
def FramesParted (a : MemoryArea B F FR) (l : List (Nat × MemoryArea B F FR)) : Prop :=
  (l.flatMap fun e => e.2.frames.toList).Perm a.frames.toList ∧ (a.FramesInside → ∀ e ∈ l, e.2.FramesInside)

/-- An area with `a`'s range and frames is `a` in one piece. -/
theorem framesParted_single {a a' : MemoryArea B F FR} (k : Nat) (hr : a'.vaRange = a.vaRange)
    (hf : a'.frames = a.frames) : a.FramesParted [(k, a')] :=
  ⟨by simp [hf], fun ha e he => by
    rw [List.mem_singleton] at he
    subst he
    exact ha.of_frames_subset hr fun p hp => hf ▸ hp⟩

/-- The halves of a split, each with its half's range and frames, are `a` in two pieces. -/
theorem framesParted_split {a l r l' r' : MemoryArea B F FR} {pos : Nat} (h : a.split pos = some (l, r)) (k k' : Nat)
    (hl : l'.vaRange = l.vaRange ∧ l'.frames = l.frames) (hr : r'.vaRange = r.vaRange ∧ r'.frames = r.frames) :
    a.FramesParted [(k, l'), (k', r')] := by
  refine ⟨by simpa [hl.2, hr.2] using split_frames_perm h, fun ha e he => ?_⟩
  have hlr := ha.split h
  simp only [List.mem_cons, List.mem_singleton, List.not_mem_nil, or_false] at he
  rcases he with rfl | rfl
  · exact hlr.1.of_frames_subset hl.1 fun p hp => hl.2 ▸ hp
  · exact hlr.2.of_frames_subset hr.1 fun p hp => hr.2 ▸ hp

end MemoryArea

end Axmm
