import Axmm.Ideal
import Axmm.Frames
/-!
# FrameRuns — the frame tables over every run

The spec's frame-table invariant (§8 property 2) rests on the backend's side of it (§4.1): the frames `map` returns
are keyed at 4K-aligned pages of the range it maps (`MapsInside`).  With such a backend every call keeps the frame
tables inside their areas in every state it returns, `Ok` or `Err` (`Call.run_framesInside`).  `unmap` goes phase by
phase, each a `FrameStep`: it tracks no new frame and, when it returns `Ok`, keeps every frame outside the hole.
`protect` parts each area's table among its pieces (`protect_layout`); `map` adds to the area it inserts the frames
the backend installed; `clear` keeps or drops each area's table.  `insert_frame`'s `debug_assert!`, taken as in a
debug build, checks the alignment of the page it fills.  So over every run from `MemorySet::new()` of calls, `insert_frame` and `remap_frame`, the set keeps `Inv` and
its frame tables keep to their areas (`frameReachable_framesInside`).  `adjust_area` moving an area's end alone, within
`usize::MAX`, keeps them as well (`adjustArea_end_framesInside`).

Two laws of the frames follow: `unmap` drops exactly the frames of the hole, and tracks no new frame even when it
fails (`unmap_drops_hole_frames`); `protect` keeps every frame (`protect_keeps_frames`).
-/
namespace Axmm

/-- **The backend's side of the frame table** (spec §4.1): the frames `map` returns are keyed at 4K-aligned pages of
the range it maps. -/
def MapsInside (B F PT FR : Type) [MappingBackend B F PT FR] : Prop :=
  ∀ (b : B) (start size : Nat) (flags : F) (pt : PT) (m : BTreeMap FR) (pt' : PT),
    MappingBackend.map b start size flags pt = (some m, pt') →
      ∀ p ∈ m.toList, start ≤ p.1 ∧ p.1 < start + size ∧ isAligned4k p.1 = true

theorem mapsInside_ideal (F : Type) : MapsInside (Ideal F) F (Nat → Option F) Unit := by
  intro b start size flags pt m pt' h p hp
  simp only [MappingBackend.map, Prod.mk.injEq, Option.some.injEq] at h
  rw [← h.1] at hp
  exact absurd hp BTreeMap.mem_empty

namespace MemorySet

variable {B F PT FR : Type}

/-- **What a step may do to the frames**: every state it returns keeps the frame tables inside their areas and
tracks no frame the set did not; a step that returns `Ok` keeps every frame outside `[lo, hi)`. -/
def FrameStep (lo hi : Nat) (s : MemorySet B F FR) (o : Outcome (MemorySet B F FR × PT)) : Prop :=
  ∀ y, o.state? = some y → y.1.FramesInside ∧ (∀ p ∈ y.1.trackedFrames, p ∈ s.trackedFrames) ∧
    (o = .ok y → ∀ p ∈ s.trackedFrames, ¬(lo ≤ p.1 ∧ p.1 < hi) → p ∈ y.1.trackedFrames)

namespace FrameStep

variable {lo hi : Nat} {s : MemorySet B F FR} {o : Outcome (MemorySet B F FR × PT)}

theorem ok_self (hf : s.FramesInside) (pt : PT) : FrameStep lo hi s (.ok (s, pt)) := by
  rintro y ⟨⟩
  exact ⟨hf, fun _ h => h, fun _ _ h _ => h⟩

theorem err_of {s' : MemorySet B F FR} (hf : s'.FramesInside) (hsub : ∀ p ∈ s'.trackedFrames, p ∈ s.trackedFrames)
    (e : MappingError) (pt : PT) : FrameStep lo hi s (.err e (s', pt)) := by
  rintro y ⟨⟩
  exact ⟨hf, hsub, nofun⟩

theorem bind {k : MemorySet B F FR × PT → Outcome (MemorySet B F FR × PT)} (ho : FrameStep lo hi s o)
    (hk : ∀ y, o = .ok y → FrameStep lo hi y.1 (k y)) : FrameStep lo hi s (o.bind k) := by
  intro z hz
  cases o with
  | panic => cases hz
  | err e y => exact ho z hz
  | ok y =>
    obtain ⟨-, hsub, hkeep⟩ := ho y rfl
    obtain ⟨hf', hsub', hkeep'⟩ := hk y rfl z hz
    exact ⟨hf', fun p hp => hsub p (hsub' p hp), fun hok p hp hout => hkeep' hok p (hkeep rfl p hp hout) hout⟩

theorem of_ok {s₁ : MemorySet B F FR} {pt₁ : PT} (h₁ : FrameStep lo hi s (.ok (s₁, pt₁))) (ho : FrameStep lo hi s₁ o) :
    FrameStep lo hi s o :=
  bind (k := fun _ => o) h₁ fun _ h => by cases h; exact ho

end FrameStep

/-! ## `unmap`, phase by phase -/

theorem frameStep_retain {s : MemorySet B F FR} (hf : s.FramesInside) (r : AddrRange) (pt : PT) :
    FrameStep r.start r.end s (.ok ((⟨s.areas.retain fun _ a => !a.vaRange.containedIn r⟩ : MemorySet B F FR), pt)) := by
  rintro y ⟨⟩
  refine ⟨hf.of_subset fun e he => (BTreeMap.mem_retain.1 he).1, fun p hp => ?_, fun _ p hp hout => ?_⟩
  · obtain ⟨e, he, hp⟩ := mem_trackedFrames.1 hp
    exact mem_trackedFrames.2 ⟨e, (BTreeMap.mem_retain.1 he).1, hp⟩
  · obtain ⟨e, he, hp'⟩ := mem_trackedFrames.1 hp
    refine mem_trackedFrames.2 ⟨e, BTreeMap.mem_retain.2 ⟨he, ?_⟩, hp'⟩
    -- an area inside the range holds frames inside it only
    have := (hf e he p hp').1
    cases hc : e.2.vaRange.containedIn r
    · rfl
    · rw [AddrRange.containedIn_iff] at hc
      rw [AddrRange.contains_iff] at this
      exact absurd ⟨by omega, by omega⟩ hout

variable [MappingBackend B F PT FR] {s : MemorySet B F FR} {pt : PT} {start «end» : Nat}

theorem unmapBefore_frameStep (hs : Inv s) (hf : s.FramesInside) (hse : start < «end») (pt : PT) :
    FrameStep start «end» s (unmapBefore start «end» s pt) := by
  cases hb : s.areas.lastBelow start with
  | none => rw [unmapBefore_of_none hb]; exact .ok_self hf pt
  | some b =>
    obtain ⟨bk, before⟩ := b
    obtain ⟨hm, hbk, -⟩ := BTreeMap.lastBelow_eq_some hb
    have hk : bk = before.start := hs.key_eq _ hm
    have hbf : before.FramesInside := hf _ hm
    have hst := before.start_le
    have hen := before.end_le
    simp only at hbk
    by_cases h1 : start < before.end
    swap
    · rw [unmapBefore_of_le hb (by omega)]; exact .ok_self hf pt
    -- every frame of `before` outside the hole is below `start` or from `end` on
    have hin : ∀ p ∈ before.frames.toList, ¬(start ≤ p.1 ∧ p.1 < «end») → p.1 < start ∨ «end» ≤ p.1 := by
      intro p hp hout
      omega
    by_cases h2 : before.end ≤ «end»
    · rw [unmapBefore_of_trim hs hb h1 h2]
      rcases MappingBackend.unmap before.backend start (before.end - start) pt with ⟨_ | _, pt'⟩
      · exact .err_of hf (fun _ h => h) _ _
      rintro y ⟨⟩
      refine ⟨hf.insert (hbf.withRange _), tracked_insert_sub (fun p hp => mem_trackedFrames.2
        ⟨_, hm, (MemoryArea.mem_withRange_frames.1 hp).1⟩) fun _ h => h, fun _ p hp hout => ?_⟩
      obtain ⟨e, he, hp'⟩ := mem_trackedFrames.1 hp
      by_cases hek : e.1 = bk
      · obtain rfl := BTreeMap.key_inj he hm hek
        have : before.start ≤ p.1 ∧ p.1 < before.end := (AddrRange.contains_iff _ _).1 (hbf p hp').1
        have := hin p hp' hout
        exact tracked_insert_self (MemoryArea.mem_withRange_ofBounds (by omega) hp' (by omega) (by omega))
      · exact tracked_insert_of_mem he hek hp'
    · obtain ⟨L, R, hLR, heq⟩ : ∃ L R, _ ∧ unmapBefore start «end» s pt = _ :=
        unmapBefore_of_split hs hb hse (Nat.lt_of_not_le h2)
      rw [heq]
      have hLRf := hbf.split hLR
      have hfr := MemoryArea.split_frames hLR
      -- the left part holds frames of `before` only
      have hleft : ∀ p ∈ L.frames.toList, p ∈ s.trackedFrames := fun p hp =>
        mem_trackedFrames.2 ⟨_, hm, ((hfr p).1.1 hp).1⟩
      rcases MappingBackend.unmap before.backend start («end» - start) pt with ⟨_ | _, pt'⟩
      · exact .err_of (hf.insert hLRf.1) (tracked_insert_sub hleft fun _ h => h) _ _
      rintro y ⟨⟩
      refine ⟨(hf.insert (hLRf.1.withRange _)).insert hLRf.2, tracked_insert_sub
        (fun p hp => mem_trackedFrames.2 ⟨_, hm, ((hfr p).2.1 hp).1⟩)
        (tracked_insert_sub (fun p hp => hleft p (MemoryArea.mem_withRange_frames.1 hp).1) fun _ h => h),
        fun _ p hp hout => ?_⟩
      obtain ⟨e, he, hp'⟩ := mem_trackedFrames.1 hp
      by_cases hek : e.1 = bk
      · obtain rfl := BTreeMap.key_inj he hm hek
        have : before.start ≤ p.1 ∧ p.1 < before.end := (AddrRange.contains_iff _ _).1 (hbf p hp').1
        rcases hin p hp' hout with hlt | hle
        · -- below `start`: in the left part, kept by the shrink
          exact tracked_insert_of_mem (BTreeMap.mem_insert.2 (.inl rfl)) (by simp only; omega)
            (MemoryArea.mem_withRange_ofBounds (by omega) ((hfr p).1.2 ⟨hp', by omega⟩) (by omega) hlt)
        · -- from `end` on: in the right part
          exact tracked_insert_self ((hfr p).2.2 ⟨hp', hle⟩)
      · exact tracked_insert_of_mem (BTreeMap.mem_insert.2 (.inr ⟨he, hek⟩))
          (hs.key_ne_of_inside hm (by omega) (Nat.lt_of_not_le h2) e he hek) hp'

theorem unmapAfter_frameStep (hs : Inv s) (hf : s.FramesInside) (pt : PT) :
    FrameStep start «end» s (unmapAfter start «end» s pt) := by
  cases hfa : s.areas.firstAtLeast start with
  | none => rw [unmapAfter_of_none hfa]; exact .ok_self hf pt
  | some b =>
    obtain ⟨ak, after⟩ := b
    obtain ⟨hm, hak, -⟩ := BTreeMap.firstAtLeast_eq_some hfa
    have hk : ak = after.start := hs.key_eq _ hm
    have haf : after.FramesInside := hf _ hm
    simp only at hak
    by_cases h1 : ak < «end»
    swap
    · rw [unmapAfter_of_le hfa (by omega)]; exact .ok_self hf pt
    by_cases h2 : «end» < after.end
    swap
    · rw [unmapAfter_of_end_le hs hfa h1 (by omega)]; exact nofun
    have hen := after.end_le
    have hrem : (⟨s.areas.remove ak⟩ : MemorySet B F FR).FramesInside :=
      hf.of_subset fun e he => (BTreeMap.mem_remove.1 he).1
    rw [unmapAfter_of_trim hs hfa h1 h2]
    rcases MappingBackend.unmap after.backend after.start («end» - after.start) pt with ⟨_ | _, pt'⟩
    · exact .err_of hrem (fun p hp => tracked_of_remove hp) _ _
    rintro y ⟨⟩
    refine ⟨hrem.insert (haf.withRange _), tracked_insert_sub (fun p hp => mem_trackedFrames.2
      ⟨_, hm, (MemoryArea.mem_withRange_frames.1 hp).1⟩) (fun _ hp => tracked_of_remove hp), fun _ p hp hout => ?_⟩
    obtain ⟨e, he, hp'⟩ := mem_trackedFrames.1 hp
    by_cases hek : e.1 = ak
    · -- a frame of `after` outside the hole is from `end` on, kept by the shrink
      obtain rfl := BTreeMap.key_inj he hm hek
      have : after.start ≤ p.1 ∧ p.1 < after.end := (AddrRange.contains_iff _ _).1 (haf p hp').1
      exact tracked_insert_self (MemoryArea.mem_withRange_ofBounds hen hp' (by omega) (by omega))
    · exact tracked_insert_of_mem (BTreeMap.mem_remove.2 ⟨he, hek⟩)
        (hs.key_ne_of_inside hm (by omega) h2 e he hek) hp'

/-- **`unmap` is a `FrameStep` of its hole**, whatever the backend answers. -/
theorem unmap_frameStep (hs : Inv s) (hf : s.FramesInside) (start size : Nat) (pt : PT) :
    FrameStep start (start + size) s (s.unmap start size pt) := by
  rcases Nat.lt_or_ge usizeMax (start + size) with hr | hr
  · rw [unmap_of_overflow hr]; exact .err_of hf (fun _ h => h) _ _
  rcases Nat.eq_zero_or_pos size with rfl | hsz
  · rw [Nat.add_zero] at hr; rw [unmap_zero hr]; exact .ok_self hf pt
  have hse : start < start + size := by omega
  rw [unmap_eq_phases hr hsz]
  cases h₁ : unmapContained (.fromStartSize start size hr) s.areas.toList pt with
  | none => exact nofun
  | some pt₁ =>
    have hs₁ := hs.retain fun _ a => !a.vaRange.containedIn (.fromStartSize start size hr)
    have h₁' : FrameStep start (start + size) s (.ok (_, pt₁)) := frameStep_retain hf (.fromStartSize start size hr) pt₁
    have hf₁ := (h₁' _ rfl).1
    have h₂ := unmapBefore_frameStep hs₁ hf₁ hse pt₁
    -- the set the second phase returns with `Ok` keeps `Inv`
    have hs₂ : ∀ y : MemorySet B F FR × PT, unmapBefore start (start + size)
        ⟨s.areas.retain fun _ a => !a.vaRange.containedIn (.fromStartSize start size hr)⟩ pt₁ = .ok y → Inv y.1 := by
      intro y h
      rcases (show PhaseStep _ _ pt₁ _ from unmapBefore_step hs₁ hse).cases hs₁ fun _ => trimBefore_sorted hse with
        ⟨_, _, h', hs₂, -⟩ | ⟨⟨_, _, h', -⟩, -⟩ <;> rw [h'] at h <;> cases h
      exact hs₂
    exact h₁'.of_ok (FrameStep.bind h₂ fun ⟨s₂, pt₂⟩ h => unmapAfter_frameStep (hs₂ _ h) (h₂ _ (by rw [h]; rfl)).1 pt₂)

/-- **`unmap` drops exactly the frames of the hole.**  On a set under `Inv` whose frame tables keep to their areas,
every state `unmap` returns, `Ok` or `Err`, keeps them so and tracks no frame the set did not; the set it returns
with `Ok` tracks exactly the frames the set tracked outside `[start, start + size)`. -/
theorem unmap_drops_hole_frames (hs : Inv s) (hf : s.FramesInside) (start size : Nat) (pt : PT) :
    (∀ y, (s.unmap start size pt).state? = some y →
      y.1.FramesInside ∧ ∀ p ∈ y.1.trackedFrames, p ∈ s.trackedFrames) ∧
    ∀ s' pt', s.unmap start size pt = .ok (s', pt') →
      ∀ p, p ∈ s'.trackedFrames ↔ p ∈ s.trackedFrames ∧ ¬(start ≤ p.1 ∧ p.1 < start + size) := by
  have h := unmap_frameStep hs hf start size pt
  refine ⟨fun y hy => ⟨(h y hy).1, (h y hy).2.1⟩, fun s' pt' hok p => ⟨fun hp => ⟨?_, fun hin => ?_⟩,
    fun ⟨hp, hout⟩ => (h _ (by rw [hok]; rfl)).2.2 hok p hp hout⟩⟩
  · exact (h _ (by rw [hok]; rfl)).2.1 p hp
  -- no area is left in the hole, and each keeps its frames inside it
  rcases Nat.lt_or_ge usizeMax (start + size) with hr | hr
  · rw [unmap_of_overflow hr] at hok; cases hok
  rcases Nat.eq_zero_or_pos size with rfl | hsz
  · omega
  obtain ⟨e, he, hpe⟩ := mem_trackedFrames.1 hp
  have := ((h _ (by rw [hok]; rfl)).1 e he p hpe).1
  have := unmap_free hs hr hsz hok e he
  rw [AddrRange.contains_iff] at *
  simp only [MemoryArea.start, MemoryArea.end] at *
  omega

/-- One area at `[0x1000, 0x3000)` tracking frames at `0x1000` and `0x2000`: `unmap` of `[0x2000, 0x3000)` keeps the
frame at `0x1000` alone. -/
theorem unmap_drops_hole_frames_twoPages :
    let s : MemorySet Fixed Unit Unit := ⟨BTreeMap.empty.insert 0x1000 (MemoryArea.new 0x1000 0x2000 (by decide)
      (some ((BTreeMap.empty.insert 0x1000 ()).insert 0x2000 ())) () ⟨true, true, true⟩)⟩
    (Inv s ∧ s.FramesInside) ∧
      (∀ y, (s.unmap 0x2000 0x1000 ()).state? = some y →
        y.1.FramesInside ∧ ∀ p ∈ y.1.trackedFrames, p ∈ s.trackedFrames) ∧
      ∀ s' pt', s.unmap 0x2000 0x1000 () = .ok (s', pt') →
        ∀ p, p ∈ s'.trackedFrames ↔ p ∈ s.trackedFrames ∧ ¬(0x2000 ≤ p.1 ∧ p.1 < 0x2000 + 0x1000) := by
  intro s
  have hs : Inv s := by decide
  have hf : s.FramesInside := by decide
  exact ⟨⟨hs, hf⟩, unmap_drops_hole_frames hs hf 0x2000 0x1000 ()⟩

/-! ## `protect`, `map`, `insert` and `clear` -/

variable {size : Nat} {u : F → Option F}

/-- **`protect` keeps every tracked frame.**  On a set under `Inv`, `protect` of a non-empty range returns `Ok` with
a set that tracks exactly the frames the set tracked, and whose frame tables keep to their areas if the set's did. -/
theorem protect_keeps_frames (hs : Inv s) (hsz : 0 < size) (hr : start + size ≤ usizeMax) :
    ∃ s' pt', s.protect start size u pt = .ok (s', pt') ∧ (∀ p, p ∈ s'.trackedFrames ↔ p ∈ s.trackedFrames) ∧
      (s.FramesInside → s'.FramesInside) :=
  let ⟨s', pt', h, _, _, _, hF, hFI, _⟩ := protect_layout hs hsz hr
  ⟨s', pt', h, fun p => mem_trackedFrames.trans ((hF p).trans mem_trackedFrames.symm), hFI⟩

/-- One area at `[0x1000, 0x3000)` tracking a frame at `0x2000`, protected on `[0x2000, 0x3000)`. -/
theorem protect_keeps_frames_onePage :
    let s : MemorySet Fixed Unit Unit := ⟨BTreeMap.empty.insert 0x1000 (MemoryArea.new 0x1000 0x2000 (by decide)
      (some (BTreeMap.empty.insert 0x2000 ())) () ⟨true, true, true⟩)⟩
    (Inv s ∧ 0 < 0x1000 ∧ 0x2000 + 0x1000 ≤ usizeMax) ∧
      ∃ s' pt', s.protect 0x2000 0x1000 (fun _ => some ()) () = .ok (s', pt') ∧
        (∀ p, p ∈ s'.trackedFrames ↔ p ∈ s.trackedFrames) ∧ (s.FramesInside → s'.FramesInside) := by
  intro s
  have hs : Inv s := by decide
  exact ⟨⟨hs, by decide, by decide⟩, protect_keeps_frames hs (by decide) (by decide)⟩

theorem protect_framesInside (hs : Inv s) (hf : s.FramesInside) {y : MemorySet B F FR × PT}
    (h : (s.protect start size u pt).state? = some y) : y.1.FramesInside := by
  rcases Nat.lt_or_ge usizeMax (start + size) with hr | hr
  · rw [protect_of_overflow hr] at h; cases h; exact hf
  rcases Nat.eq_zero_or_pos size with rfl | hsz
  · rw [Nat.add_zero] at hr
    rcases (protect_zero hr : s.protect start 0 u pt = _ ∨ _) with h' | h' <;> rw [h'] at h <;> cases h
    exact hf
  · obtain ⟨s', pt', h', -, -, -, -, hFI, -⟩ : ∃ s' pt', s.protect start size u pt = .ok (s', pt') ∧ _ :=
      protect_layout hs hsz hr
    rw [h'] at h; cases h; exact hFI hf

variable {A : MemoryArea B F FR} {ua : Bool}

theorem insert_framesInside (hf : s.FramesInside) (hA : A.FramesInside) {s' : MemorySet B F FR}
    (h : (s.insert A ua).state? = some s') : s'.FramesInside := by
  unfold insert at h
  split_ifs at h <;> cases h <;> first | exact hf | exact hf.insert hA

theorem map_framesInside (hmap : MapsInside B F PT FR) (hs : Inv s) (hf : s.FramesInside) (hA : A.FramesInside)
    {ov : Option F} {y : MemorySet B F FR × PT} (h : (s.map A pt ua ov).state? = some y) : y.1.FramesInside :=
  map_preserves (fun s _ => s.FramesInside) hs hf (fun y h => (unmap_frameStep hs hf _ _ pt y h).1)
    (fun s₁ pt₁ y hs₁ hf₁ hfree h => by
      by_cases hA' : A.start < A.end
      swap
      · rw [map_of_empty (Nat.not_lt.1 hA')] at h; cases h; exact hf₁
      -- the backend's `map`, and the insert of the area with the frames it installed
      rw [map_of_no_overlap hs₁ hA' hfree] at h
      rcases hm : MappingBackend.map A.backend A.start (A.end - A.start) (ov.getD A.flags) pt₁ with ⟨_ | fr, pt₂⟩ <;>
        rw [hm] at h <;> cases h
      · exact hf₁
      refine hf₁.insert fun p hp => ?_
      rcases BTreeMap.mem_of_mem_extend hp with hp | hp
      · exact hA p hp
      · obtain ⟨h1, h2, h3⟩ := hmap _ _ _ _ _ _ _ hm p hp
        exact ⟨(AddrRange.contains_iff _ _).2 ⟨h1, by simp only [MemoryArea.start, MemoryArea.end] at *; omega⟩, h3⟩) h

theorem clearLoop_frames {l l' : List (Nat × MemoryArea B F FR)} {pt pt' : PT} {e : MappingError}
    (h : clearLoop l pt = .err e (l', pt')) :
    ∀ x ∈ l', ∃ y ∈ l, x.2.vaRange = y.2.vaRange ∧ ∀ p ∈ x.2.frames.toList, p ∈ y.2.frames.toList := by
  obtain ⟨-, n, -, rfl⟩ := clearLoop_eq_err h
  intro x hx
  rcases List.mem_append.1 hx with hx | hx
  · obtain ⟨y, hy, rfl⟩ := List.mem_map.1 hx
    exact ⟨y, List.mem_of_mem_take hy, rfl, fun _ h => absurd h BTreeMap.mem_empty⟩
  · exact ⟨x, List.mem_of_mem_drop hx, rfl, fun _ h => h⟩

theorem clear_framesInside (hf : s.FramesInside) {y : MemorySet B F FR × PT} (h : (s.clear pt).state? = some y) :
    y.1.FramesInside := by
  unfold clear at h
  split at h
  · cases h
  · rename_i heq
    cases h
    intro x hx
    obtain ⟨z, hz, hr, hsub⟩ := clearLoop_frames heq x hx
    exact (hf z hz).of_frames_subset hr hsub
  · cases h
    exact fun _ h => absurd h BTreeMap.mem_empty

end MemorySet

/-! ## Runs -/

namespace Call

open MemorySet

variable {B F PT FR : Type} [MappingBackend B F PT FR]

/-- The areas a call passes in keep their frame tables inside them. -/
def FramesInside : Call B F FR → Prop
  | insert area _ => area.FramesInside
  | map area _ _ => area.FramesInside
  | _ => True

/-- **One step**: with a backend whose `map` keeps to its range, every state an allowed call returns keeps the frame
tables inside their areas. -/
theorem run_framesInside (hmap : MapsInside B F PT FR) {s : MemorySet B F FR} {c : Call B F FR} {pt : PT}
    {y : MemorySet B F FR × PT} (hs : Inv s) (hf : s.FramesInside) (hc : c.FramesInside)
    (h : (c.run s pt).state? = some y) : y.1.FramesInside := by
  cases c with
  | insert area u =>
    simp only [run, Outcome.state?_map, Option.map_eq_some'] at h
    obtain ⟨s', hs', rfl⟩ := h
    exact insert_framesInside hf hc hs'
  | delete vaddr => cases h; exact hf.of_subset fun e he => (BTreeMap.mem_remove.1 he).1
  | map area u ov => exact map_framesInside hmap hs hf hc h
  | unmap start size => exact (unmap_frameStep hs hf start size pt y h).1
  | protect start size u => exact protect_framesInside hs hf h
  | clear => exact clear_framesInside hf h

end Call

/-- **The sets reached from `MemorySet::new()` with their frame tables**: by allowed calls that return, `insert` and
`map` of areas whose frame tables keep to them, each on any page table, and by `insert_frame` and `remap_frame`. -/
inductive FrameReachable {B F : Type} (PT : Type) {FR : Type} [MappingBackend B F PT FR] : MemorySet B F FR → Prop
  | new : FrameReachable PT MemorySet.new
  | call {s : MemorySet B F FR} {y : MemorySet B F FR × PT} (c : Call B F FR) (pt : PT) :
      FrameReachable PT s → c.Allowed s → c.FramesInside → (c.run s pt).state? = some y → FrameReachable PT y.1
  | insertFrame {s s' : MemorySet B F FR} {vaddr : Nat} {old : Option FR} (frame : FR) :
      FrameReachable PT s → s.insertFrame vaddr frame = some (old, s') → FrameReachable PT s'
  | remapFrame {s s' : MemorySet B F FR} {vaddr : Nat} (frame : FR) :
      FrameReachable PT s → s.remapFrame vaddr frame = some s' → FrameReachable PT s'

namespace MemorySet

variable {B F PT FR : Type} [MappingBackend B F PT FR]

/-- **Every set reached keeps `Inv` and its frame tables inside their areas** (spec §8 properties 1 and 2), over a
backend whose `map` returns frames at aligned pages of the range it maps: from `MemorySet::new()`, through any run
of allowed calls that return, on any page table, whose `insert` and `map` pass areas with their frame tables inside
them, and of `insert_frame` and `remap_frame`.  The alignment half rests on `insert_frame`'s `debug_assert!`, taken
as in a debug build, where it panics on an unaligned page. -/
theorem frameReachable_framesInside (hmap : MapsInside B F PT FR) {s : MemorySet B F FR}
    (h : FrameReachable PT s) : Inv s ∧ s.FramesInside := by
  induction h with
  | new => exact ⟨inv_new, fun _ h => absurd h BTreeMap.mem_empty⟩
  | call c pt _ hc hcf h ih => exact ⟨Call.run_inv ih.1 hc h, Call.run_framesInside hmap ih.1 ih.2 hcf h⟩
  | insertFrame frame _ h ih => exact (insertFrame_inv frame ih.1 ih.2 h).2
  | remapFrame frame _ h ih =>
    unfold remapFrame at h
    split at h
    · rename_i h'
      cases h
      exact (insertFrame_inv frame ih.1 ih.2 h').2
    · cases h

/-- From `MemorySet::new()`, over the ideal backend, `map` of `[0x1000, 0x3000)` and then `insert_frame` at
`0x2000` reach a set that keeps `Inv` and tracks the frame inside its area. -/
theorem frameReachable_framesInside_mapThenInsertFrame :
    let c : Call (Ideal Bool) Bool Unit := .map (MemoryArea.new 0x1000 0x2000 (by decide) none true ⟨⟩) false none
    ∃ y s₂, (c.run .new fun _ => none).state? = some y ∧ y.1.insertFrame 0x2000 () = some (none, s₂) ∧
      MapsInside (Ideal Bool) Bool (Nat → Option Bool) Unit ∧ FrameReachable (Nat → Option Bool) s₂ ∧
      Inv s₂ ∧ s₂.FramesInside := by
  intro c
  obtain ⟨y, s₂, h₁, h₂⟩ : ∃ y s₂, (c.run .new fun _ => none).state? = some y ∧
      y.1.insertFrame 0x2000 () = some (none, s₂) := ⟨_, _, rfl, rfl⟩
  have hr : FrameReachable (Nat → Option Bool) s₂ :=
    .insertFrame () (.call c (fun _ => none) .new trivial (fun _ h => absurd h BTreeMap.mem_empty) h₁) h₂
  exact ⟨y, s₂, h₁, h₂, mapsInside_ideal Bool, hr, frameReachable_framesInside (mapsInside_ideal Bool) hr⟩

end MemorySet

end Axmm
