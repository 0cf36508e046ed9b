import Axmm.Inv
/-!
# Lookup — under `Inv` the neighbour lookups are complete

`overlaps` reads two areas only, the last keyed below the range's start and the first keyed from it
(`overlaps_eq_true_iff_neighbours`); `find` and `find_mut` read one, the last keyed at or below the address.  Under
`Inv` nothing is missed: an area that overlaps the range is one of the two (`overlaps_eq_true_iff`), and an area that
contains the address is the one (`lastAtMost_of_contains`).  So `overlaps` answers for every area of the set
(`overlaps_iff_area_overlaps`), and `find` and `find_mut` return the area that contains the address, if there is one
(`find_iff_contains`).
-/
namespace Axmm

namespace MemorySet

variable {B F FR : Type} {s : MemorySet B F FR}

/-! ## `overlaps` -/

theorem overlaps_eq_true_iff_neighbours (r : AddrRange) :
    s.overlaps r = true ↔ (∃ e, s.areas.lastBelow r.start = some e ∧ e.2.vaRange.overlaps r = true) ∨
      ∃ e, s.areas.firstAtLeast r.start = some e ∧ e.2.vaRange.overlaps r = true := by
  unfold overlaps
  cases s.areas.lastBelow r.start <;> cases s.areas.firstAtLeast r.start <;> simp

/-- **Under `Inv`, `overlaps` is true exactly when some area overlaps the range**, and the two neighbours it reads are
the only candidates: an area overlaps the range only if the last keyed below its start or the first keyed from it
does. -/
theorem overlaps_iff_area_overlaps (hs : Inv s) (r : AddrRange) :
    (s.overlaps r = true ↔ ∃ e ∈ s.areas.toList, e.2.vaRange.overlaps r = true) ∧
    ((∃ e ∈ s.areas.toList, e.2.vaRange.overlaps r = true) →
      (∃ e, s.areas.lastBelow r.start = some e ∧ e.2.vaRange.overlaps r = true) ∨
      ∃ e, s.areas.firstAtLeast r.start = some e ∧ e.2.vaRange.overlaps r = true) :=
  ⟨overlaps_eq_true_iff hs r, fun h => (overlaps_eq_true_iff_neighbours r).1 ((overlaps_eq_true_iff hs r).2 h)⟩

/-- One area at `[0x1000, 0x3000)` and the range `[0x2000, 0x4000)`: the area overlaps the range, so `overlaps` is
true, and it is the last area keyed below `0x2000`. -/
theorem overlaps_iff_area_overlaps_oneArea :
    let s : MemorySet Fixed Unit Unit :=
      ⟨BTreeMap.empty.insert 0x1000 (MemoryArea.new 0x1000 0x2000 (by decide) none () ⟨true, true, true⟩)⟩
    let r : AddrRange := ⟨0x2000, 0x4000, by decide, by decide⟩
    Inv s ∧ s.overlaps r = true ∧
      ((∃ e, s.areas.lastBelow r.start = some e ∧ e.2.vaRange.overlaps r = true) ∨
        ∃ e, s.areas.firstAtLeast r.start = some e ∧ e.2.vaRange.overlaps r = true) := by
  intro s r
  have hs : Inv s := by decide
  have hov : ∃ e ∈ s.areas.toList, e.2.vaRange.overlaps r = true := by decide
  exact ⟨hs, (overlaps_iff_area_overlaps hs r).1.2 hov, (overlaps_iff_area_overlaps hs r).2 hov⟩

/-! ## `find` and `find_mut` -/

/-- An area that contains the address is the entry of the largest key at or below it. -/
theorem lastAtMost_of_contains (hs : Inv s) {e : Nat × MemoryArea B F FR} (he : e ∈ s.areas.toList) {addr : Nat}
    (ha : e.2.vaRange.contains addr = true) : s.areas.lastAtMost addr = some e := by
  have hk := hs.key_eq e he
  rw [AddrRange.contains_iff] at ha
  simp only [MemoryArea.start] at hk
  cases h : s.areas.lastAtMost addr with
  | none => exact absurd (BTreeMap.lastAtMost_eq_none.1 h e he) (by omega)
  | some e' =>
    obtain ⟨he', hle, hmax⟩ := BTreeMap.lastAtMost_eq_some h
    -- an entry keyed above `e` starts where `e` ends or later, so past the address
    refine congrArg some
      (BTreeMap.key_inj he' he (Nat.le_antisymm (Nat.not_lt.1 fun hlt => ?_) (hmax e he (by omega))))
    have := hs.end_le_start he he' hlt
    have := hs.key_eq e' he'
    simp only [MemoryArea.start, MemoryArea.end] at *
    omega

theorem find_eq_findMut (addr : Nat) : s.find addr = (s.findMut addr).map Prod.snd := by
  unfold find findMut
  cases s.areas.lastAtMost addr with
  | none => rfl
  | some e => simp only [Option.map, Option.filter]; split <;> rfl

theorem findMut_eq_some_iff (hs : Inv s) {addr : Nat} {e : Nat × MemoryArea B F FR} :
    s.findMut addr = some e ↔ e ∈ s.areas.toList ∧ e.2.vaRange.contains addr = true := by
  rw [findMut, Option.filter_eq_some, Option.mem_def]
  exact ⟨fun ⟨h, ha⟩ => ⟨(BTreeMap.lastAtMost_eq_some h).1, ha⟩,
    fun ⟨he, ha⟩ => ⟨lastAtMost_of_contains hs he ha, ha⟩⟩

/-- **`find` and `find_mut` return the area that contains the address**: on a set under `Inv`, `find addr` is `A`
exactly when `A` is an area of the set that contains `addr`, and `None` exactly when no area contains it; `find_mut`
likewise, with the area's key; and an area that contains `addr` is the one keyed last at or below it. -/
theorem find_iff_contains (hs : Inv s) (addr : Nat) :
    (∀ A, s.find addr = some A ↔ (∃ k, (k, A) ∈ s.areas.toList) ∧ A.vaRange.contains addr = true) ∧
    (s.find addr = none ↔ ∀ e ∈ s.areas.toList, e.2.vaRange.contains addr = false) ∧
    (∀ k A, s.findMut addr = some (k, A) ↔ (k, A) ∈ s.areas.toList ∧ A.vaRange.contains addr = true) ∧
    (s.findMut addr = none ↔ ∀ e ∈ s.areas.toList, e.2.vaRange.contains addr = false) ∧
    ∀ e ∈ s.areas.toList, e.2.vaRange.contains addr = true → s.areas.lastAtMost addr = some e := by
  have hnone : s.findMut addr = none ↔ ∀ e ∈ s.areas.toList, e.2.vaRange.contains addr = false := by
    simp only [Option.eq_none_iff_forall_not_mem, Option.mem_def, findMut_eq_some_iff hs, not_and,
      Bool.not_eq_true]
  refine ⟨fun A => ?_, ?_, fun k A => findMut_eq_some_iff hs, hnone, fun e he => lastAtMost_of_contains hs he⟩
  · simp only [find_eq_findMut, Option.map_eq_some', findMut_eq_some_iff hs, Prod.exists]
    exact ⟨fun ⟨k, A', ⟨hm, ha⟩, hA⟩ => hA ▸ ⟨⟨k, hm⟩, ha⟩,
      fun ⟨⟨k, hm⟩, ha⟩ => ⟨k, A, ⟨hm, ha⟩, rfl⟩⟩
  · rw [find_eq_findMut, Option.map_eq_none', hnone]

/-- One area at `[0x1000, 0x3000)`: `find 0x2800` and `find_mut 0x2800` return it, and `find 0x3000` returns
`None`. -/
theorem find_iff_contains_oneArea :
    let A : MemoryArea Fixed Unit Unit := MemoryArea.new 0x1000 0x2000 (by decide) none () ⟨true, true, true⟩
    let s : MemorySet Fixed Unit Unit := ⟨BTreeMap.empty.insert 0x1000 A⟩
    Inv s ∧ s.find 0x2800 = some A ∧ s.findMut 0x2800 = some (0x1000, A) ∧ s.find 0x3000 = none := by
  intro A s
  have hs : Inv s := by decide
  have hm : (0x1000, A) ∈ s.areas.toList := List.mem_cons_self _ _
  have hc : A.vaRange.contains 0x2800 = true := by decide
  exact ⟨hs, ((find_iff_contains hs 0x2800).1 A).2 ⟨⟨0x1000, hm⟩, hc⟩,
    ((find_iff_contains hs 0x2800).2.2.1 0x1000 A).2 ⟨hm, hc⟩, (find_iff_contains hs 0x3000).2.1.2 (by decide)⟩

end MemorySet

end Axmm
