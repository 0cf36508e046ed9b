import Axmm.Ideal
/-!
# Table — each call acts on the page table as one call over its range

`map`, `unmap`, `protect` and `clear` call the backend once per area they touch, each time on the part of the area
they touch.  With the ideal backend, on a set the page table agrees with, those calls together act on the page table
as one call of the backend over the call's whole range would (`Call.tableEffect`): `map` maps the area's range with the
flags it maps with, `unmap` clears its range, `protect` re-flags what is mapped in its range, `clear` clears every
address, and `insert` and `delete` make no call (`run_tableEffect`).  As each call of the page-table law keeps the
set under `Inv` and the page table the set's, a run of such calls acts on the page table as the calls over their
ranges, one after another (`runList_tableEffect`).

For `unmap`, `protect` and `clear` the page table the call returns and the one `tableEffect` gives agree with the set
the call returns, so they are one (`Coherent.unique`).  `map` is its eviction, an `unmap` of the area's range, and
then one call of the backend over that range.
-/
namespace Axmm

namespace Ideal

variable {F : Type}

@[simp] theorem fill_zero (lo : Nat) (v : Option F) (pt : Nat → Option F) : fill lo 0 v pt = pt :=
  funext fun _ => if_neg fun h => Nat.lt_irrefl _ (Nat.lt_of_le_of_lt h.1 h.2)

theorem fill_fill (lo n : Nat) (v w : Option F) (pt : Nat → Option F) :
    fill lo n v (fill lo n w pt) = fill lo n v pt :=
  funext fun _ => by unfold fill; split_ifs <;> rfl

end Ideal

namespace Call

/-- Calls made one after another, each on the set and the page table the one before returned, up to the first that
does not return `Ok`. -/
def runList {B F PT FR : Type} [MappingBackend B F PT FR] :
    List (Call B F FR) → MemorySet B F FR → PT → Outcome (MemorySet B F FR × PT)
  | [], s, pt => .ok (s, pt)
  | c :: cs, s, pt => (c.run s pt).bind fun x => runList cs x.1 x.2

variable {F : Type}

/-- **What a call does to the page table**, as one call of the ideal backend over the call's whole range would do it:
`map` maps the area's range with the flags it maps with (`overwrite_flags`, else the area's own), `unmap` clears its
range, `protect` re-flags with `update_flags` what is mapped in its range, `clear` clears every address, and `insert`
and `delete` make no call. -/
def tableEffect : Call (Ideal F) F Unit → (Nat → Option F) → Nat → Option F
  | insert _ _, pt => pt
  | delete _, pt => pt
  | map area _ overwriteFlags, pt =>
    Ideal.fill area.start (area.end - area.start) (some (overwriteFlags.getD area.flags)) pt
  | unmap start size, pt => Ideal.fill start size none pt
  | protect start size updateFlags, pt => fun a =>
    if start ≤ a ∧ a < start + size then (pt a).map fun f => (updateFlags f).getD f else pt a
  | clear, _ => fun _ => none

end Call

namespace MemorySet

variable {F : Type} {s : MemorySet (Ideal F) F Unit} {pt : Nat → Option F}
  {y : MemorySet (Ideal F) F Unit × (Nat → Option F)}

theorem unmap_table (hs : Inv s) (hc : Coherent s pt) {start size : Nat} (h : s.unmap start size pt = .ok y) :
    y.2 = Ideal.fill start size none pt := by
  rcases Nat.lt_or_ge usizeMax (start + size) with hr | hr
  · rw [unmap_of_overflow hr] at h; cases h
  rcases Nat.eq_zero_or_pos size with rfl | hsz
  · rw [Nat.add_zero] at hr
    rw [unmap_zero hr] at h
    cases h
    exact (Ideal.fill_zero _ _ _).symm
  obtain ⟨s', pt', h', -, hL⟩ : ∃ s' pt', s.unmap start size pt = .ok (s', pt') ∧ _ :=
    unmap_layout hs hr hsz fun _ _ _ _ _ => rfl
  rw [h'] at h
  cases h
  -- both page tables agree with the set `unmap` returns
  refine (unmap_coherent hs hc (congrArg Outcome.state? h')).unique fun x f => ?_
  rw [hL, covers_flatMap_outside, ← hc x f]
  unfold Ideal.fill
  split_ifs with hx <;> simp [hx]

theorem protect_table (hs : Inv s) (hc : Coherent s pt) {start size : Nat} {u : F → Option F}
    (h : s.protect start size u pt = .ok y) : y.2 = (Call.protect start size u).tableEffect pt := by
  rcases Nat.lt_or_ge usizeMax (start + size) with hr | hr
  · rw [protect_of_overflow hr] at h; cases h
  rcases Nat.eq_zero_or_pos size with rfl | hsz
  · rw [Nat.add_zero] at hr
    rcases (protect_zero hr : s.protect start 0 u pt = .panic ∨ _) with h' | h' <;> rw [h'] at h <;> cases h
    exact funext fun _ => (if_neg fun h => Nat.lt_irrefl _ (Nat.lt_of_le_of_lt h.1 h.2)).symm
  obtain ⟨s', pt', h', -, hL, -⟩ : ∃ s' pt', s.protect start size u pt = .ok (s', pt') ∧ _ := protect_layout hs hsz hr
  rw [h'] at h
  cases h
  -- both page tables agree with the set `protect` returns
  refine (protect_coherent hs hc (congrArg Outcome.state? h')).unique fun x g => ?_
  rw [hL, covers_flatMap_protectPieces]
  simp only [Call.tableEffect, ← hc x]
  split_ifs <;> simp [Option.map_eq_some']

theorem clear_table (hs : Inv s) (hc : Coherent s pt) (h : s.clear pt = .ok y) : y.2 = fun _ => none := by
  have hy : y.1 = .new := by
    unfold clear at h
    split at h <;> cases h
    rfl
  have hc' := clear_coherent hs hc (congrArg Outcome.state? h)
  rw [hy] at hc'
  exact hc'.unique coherent_new

theorem map_table (hs : Inv s) (hc : Coherent s pt) {A : MemoryArea (Ideal F) F Unit} {u : Bool} {ov : Option F}
    (h : s.map A pt u ov = .ok y) : y.2 = Ideal.fill A.start (A.end - A.start) (some (ov.getD A.flags)) pt := by
  by_cases hA : A.start < A.end
  swap
  · rw [map_of_empty (Nat.not_lt.1 hA)] at h; cases h
  cases hso : s.overlaps A.vaRange
  · -- nothing to evict
    rw [map_of_no_overlap hs hA ((overlaps_eq_false_iff hs _).1 hso)] at h
    rw [← Outcome.ok.inj h]
  cases u
  · rw [map_of_overlap hs hA ((overlaps_eq_true_iff hs _).1 hso)] at h; cases h
  -- the eviction clears the range, and then nothing overlaps
  have hr : A.start + (A.end - A.start) ≤ usizeMax := by have := A.end_le; omega
  obtain ⟨s₁, pt₁, h₁, hs₁, -⟩ : ∃ s₁ pt₁, s.unmap A.start (A.end - A.start) pt = .ok (s₁, pt₁) ∧ Inv s₁ ∧ _ :=
    unmap_layout hs hr (by omega) fun _ _ _ _ _ => rfl
  rw [map_of_evicted hs hA hso h₁, map_of_no_overlap hs₁ hA (free_of_evicted hs hA h₁)] at h
  rw [← Outcome.ok.inj h, show pt₁ = _ from unmap_table hs hc h₁, Ideal.fill_fill]

/-- **Each call acts on the page table as one call over its range.**  With the ideal backend, on a set under `Inv` that
the page table agrees with, every call that returns `Ok` leaves the page table `tableEffect` gives: the calls `map`,
`unmap`, `protect` and `clear` make to the backend, one per area, together map, clear or re-flag exactly the addresses
of the range the call was given, and no other. -/
theorem run_tableEffect (hs : Inv s) (hc : Coherent s pt) {c : Call (Ideal F) F Unit} (h : c.run s pt = .ok y) :
    y.2 = c.tableEffect pt := by
  cases c with
  | insert area u =>
    obtain ⟨_, -, rfl⟩ := Outcome.map_eq_ok h
    rfl
  | delete => cases h; rfl
  | map => exact map_table hs hc h
  | unmap => exact unmap_table hs hc h
  | protect => exact protect_table hs hc h
  | clear => exact clear_table hs hc h

/-- **A run acts on the page table as the calls over their ranges.**  With the ideal backend, from a set under `Inv`
that the page table agrees with, calls of the page-table law (`map` without `overwrite_flags`, `unmap`, `protect`,
`clear`) made one after another and all returning `Ok` leave the page table that `tableEffect` gives, call after call:
each call's backend calls, one per area, map, clear or re-flag exactly the addresses of the call's range. -/
theorem runList_tableEffect : ∀ (cs : List (Call (Ideal F) F Unit)) {s : MemorySet (Ideal F) F Unit}
    {pt : Nat → Option F} {y : MemorySet (Ideal F) F Unit × (Nat → Option F)}, Inv s → Coherent s pt →
    (∀ c ∈ cs, c.OnTable) → Call.runList cs s pt = .ok y → y.2 = cs.foldl (fun pt c => c.tableEffect pt) pt
  | [], _, _, _, _, _, _, h => by cases h; rfl
  | c :: cs, s, pt, y, hs, hc, ho, h => by
    obtain ⟨x, hx, hrest⟩ := Outcome.bind_eq_ok h
    have hoc : c.OnTable := ho c (List.mem_cons_self _ _)
    -- the call keeps the set under `Inv` and the page table the set's, and acts as `tableEffect` says
    have hx₁ : Inv x.1 := Call.run_inv hs hoc.allowed (congrArg Outcome.state? hx)
    have hx₂ : Coherent x.1 x.2 := Call.run_coherent hs hc hoc (congrArg Outcome.state? hx)
    rw [List.foldl_cons, ← run_tableEffect hs hc hx]
    exact runList_tableEffect cs hx₁ hx₂ (fun c' hc' => ho c' (List.mem_cons_of_mem _ hc')) hrest

/-- From `MemorySet::new()` and the empty page table, `map` of `[0x1000, 0x4000)` with flags `true`, `protect` of
`[0x2000, 0x3000)` to `false`, and `unmap` of `[0x1800, 0x2800)` across the two areas it then meets, leave the page
table the three calls over their ranges give. -/
theorem runList_tableEffect_mapThenProtect :
    let cs : List (Call (Ideal Bool) Bool Unit) :=
      [.map (MemoryArea.new 0x1000 0x3000 (by decide) none true ⟨⟩) false none, .protect 0x2000 0x1000 (fun _ => some false),
        .unmap 0x1800 0x1000]
    (∀ c ∈ cs, c.OnTable) ∧ ∃ y, Call.runList cs .new (fun _ => none) = .ok y ∧
      y.2 = cs.foldl (fun pt c => c.tableEffect pt) fun _ => none := by
  intro cs
  have ho : ∀ c ∈ cs, c.OnTable := fun c hc => by
    simp only [cs, List.mem_cons, List.mem_singleton, List.not_mem_nil, or_false] at hc
    rcases hc with rfl | rfl | rfl <;> trivial
  exact ⟨ho, _, rfl, runList_tableEffect cs inv_new coherent_new ho rfl⟩

end MemorySet

end Axmm
