import Axmm.Set
/-!
# Inv — the memory set's invariant, and the lookups it makes complete

`Inv` is the spec's set invariant (§3, §4.3): every key is its area's start, every area is non-empty, and no two
areas overlap.  Distinct areas of the map are its entries of distinct keys.  It is decidable, so it can be checked on
a concrete set.  In key order it says `prev.end ≤ next.start` (`Inv.end_le_start`).

A set keeps `Inv` when it loses entries (`Inv.of_subset`) and when it gains an entry keyed by its start that
overlaps no other (`Inv.insert`); every mutation's preservation proof is assembled from these two.  Under `Inv` the
two-neighbour test of `overlaps` is complete (`overlaps_eq_true_iff`).
-/
namespace Axmm

namespace MemorySet

variable {B F PT FR : Type}

/-- **The memory set's invariant.** -/
structure Inv (s : MemorySet B F FR) : Prop where
  key_eq : ∀ e ∈ s.areas.toList, e.1 = e.2.start
  nonempty : ∀ e ∈ s.areas.toList, e.2.start < e.2.end
  disjoint : ∀ a ∈ s.areas.toList, ∀ b ∈ s.areas.toList, a.1 ≠ b.1 → a.2.vaRange.overlaps b.2.vaRange = false

instance (s : MemorySet B F FR) : Decidable (Inv s) :=
  decidable_of_iff ((∀ e ∈ s.areas.toList, e.1 = e.2.start) ∧ (∀ e ∈ s.areas.toList, e.2.start < e.2.end) ∧
      ∀ a ∈ s.areas.toList, ∀ b ∈ s.areas.toList, a.1 ≠ b.1 → a.2.vaRange.overlaps b.2.vaRange = false)
    ⟨fun ⟨h1, h2, h3⟩ => ⟨h1, h2, h3⟩, fun ⟨h1, h2, h3⟩ => ⟨h1, h2, h3⟩⟩

theorem end_le_start_of_not_overlaps {r o : AddrRange} (h : r.overlaps o = false) (hs : r.start < o.start)
    (ho : o.start < o.end) : r.end ≤ o.start := by
  have : ¬(r.start < o.end ∧ o.start < r.end) := by simpa [← Bool.not_eq_true] using h
  omega

namespace Inv

variable {s s' : MemorySet B F FR}

/-- **In key order, each area ends before the next starts.** -/
theorem end_le_start (hs : Inv s) {a b : Nat × MemoryArea B F FR} (ha : a ∈ s.areas.toList)
    (hb : b ∈ s.areas.toList) (hab : a.1 < b.1) : a.2.end ≤ b.2.start := by
  have := hs.key_eq a ha; have := hs.key_eq b hb
  exact end_le_start_of_not_overlaps (hs.disjoint a ha b hb (Nat.ne_of_lt hab)) (by simp_all [MemoryArea.start])
    (hs.nonempty b hb)

/-- Two areas that contain one address are one. -/
theorem eq_of_contains (hs : Inv s) {a b : Nat × MemoryArea B F FR} (ha : a ∈ s.areas.toList)
    (hb : b ∈ s.areas.toList) {x : Nat} (hxa : a.2.vaRange.contains x = true) (hxb : b.2.vaRange.contains x = true) :
    a = b := by
  simp only [AddrRange.contains_iff] at hxa hxb
  refine BTreeMap.key_inj ha hb (Nat.le_antisymm ?_ ?_) <;> refine Nat.not_lt.1 fun hlt => ?_
  · have := hs.end_le_start hb ha hlt; have := hs.key_eq a ha
    simp only [MemoryArea.start, MemoryArea.end] at *; omega
  · have := hs.end_le_start ha hb hlt; have := hs.key_eq b hb
    simp only [MemoryArea.start, MemoryArea.end] at *; omega

theorem disjoint_of_sub (hs : Inv s) {k : Nat} {a : MemoryArea B F FR} (hm : (k, a) ∈ s.areas.toList) {r : AddrRange}
    (h1 : a.start ≤ r.start) (h2 : r.end ≤ a.end) :
    ∀ e ∈ s.areas.toList, e.1 ≠ k → e.2.vaRange.overlaps r = false := by
  intro e he hk
  have := hs.disjoint e he _ hm hk
  simp only [MemoryArea.start, MemoryArea.end, ← Bool.not_eq_true, AddrRange.overlaps_iff] at *
  omega

theorem of_subset (hs : Inv s) (h : ∀ e ∈ s'.areas.toList, e ∈ s.areas.toList) : Inv s' :=
  ⟨fun e he => hs.key_eq e (h e he), fun e he => hs.nonempty e (h e he),
    fun a ha b hb => hs.disjoint a (h a ha) b (h b hb)⟩

/-- **An area keyed by its start, non-empty and overlapping no area under another key, keeps `Inv`.** -/
theorem insert (hs : Inv s) {k : Nat} {a : MemoryArea B F FR} (hk : k = a.start) (ha : a.start < a.end)
    (hd : ∀ e ∈ s.areas.toList, e.1 ≠ k → e.2.vaRange.overlaps a.vaRange = false) :
    Inv (⟨s.areas.insert k a⟩ : MemorySet B F FR) := by
  refine ⟨fun e he => ?_, fun e he => ?_, fun x hx y hy hxy => ?_⟩
  · rcases BTreeMap.mem_insert.1 he with rfl | ⟨he, -⟩
    · exact hk
    · exact hs.key_eq e he
  · rcases BTreeMap.mem_insert.1 he with rfl | ⟨he, -⟩
    · exact ha
    · exact hs.nonempty e he
  · rcases BTreeMap.mem_insert.1 hx with rfl | ⟨hx, hxk⟩ <;> rcases BTreeMap.mem_insert.1 hy with rfl | ⟨hy, hyk⟩
    · exact absurd rfl hxy
    · rw [AddrRange.overlaps_comm]; exact hd y hy hyk
    · exact hd x hx hxk
    · exact hs.disjoint x hx y hy hxy

theorem apart_of_insert {k : Nat} {a : MemoryArea B F FR} (hs' : Inv (⟨s.areas.insert k a⟩ : MemorySet B F FR)) :
    ∀ e ∈ s.areas.toList, e.1 ≠ k → e.2.vaRange.overlaps a.vaRange = false := fun e he hek =>
  hs'.disjoint e (BTreeMap.mem_insert.2 (.inr ⟨he, hek⟩)) _ (BTreeMap.mem_insert.2 (.inl rfl)) hek

theorem remove (hs : Inv s) (k : Nat) : Inv (⟨s.areas.remove k⟩ : MemorySet B F FR) :=
  hs.of_subset fun _ he => (BTreeMap.mem_remove.1 he).1

theorem retain (hs : Inv s) (p : Nat → MemoryArea B F FR → Bool) : Inv (⟨s.areas.retain p⟩ : MemorySet B F FR) :=
  hs.of_subset fun _ he => (BTreeMap.mem_retain.1 he).1

theorem key_ne_of_inside (hs : Inv s) {k x : Nat} {a : MemoryArea B F FR} (hm : (k, a) ∈ s.areas.toList)
    (h1 : a.start < x) (h2 : x < a.end) : ∀ e ∈ s.areas.toList, e.1 ≠ k → e.1 ≠ x := fun e he hek hex => by
  have := hs.disjoint e he _ hm hek
  have := hs.key_eq e he
  have := hs.nonempty e he
  simp only [← Bool.not_eq_true, AddrRange.overlaps_iff, MemoryArea.start, MemoryArea.end] at *
  omega

end Inv

theorem inv_new : Inv (new : MemorySet B F FR) :=
  ⟨fun _ h => absurd h BTreeMap.mem_empty, fun _ h => absurd h BTreeMap.mem_empty, fun _ h => absurd h BTreeMap.mem_empty⟩

/-- **Under `Inv`, `overlaps` is true exactly when some area overlaps the range**: the last area keyed below
`range.start` and the first keyed from it are the only candidates. -/
theorem overlaps_eq_true_iff {s : MemorySet B F FR} (hs : Inv s) (r : AddrRange) :
    s.overlaps r = true ↔ ∃ e ∈ s.areas.toList, e.2.vaRange.overlaps r = true := by
  unfold overlaps
  constructor
  · intro h
    rcases Bool.or_eq_true_iff.1 h with h | h
    · split at h
      · rename_i e he; exact ⟨_, (BTreeMap.lastBelow_eq_some he).1, h⟩
      · cases h
    · split at h
      · rename_i e he; exact ⟨_, (BTreeMap.firstAtLeast_eq_some he).1, h⟩
      · cases h
  · rintro ⟨e, he, hov⟩
    have hk := hs.key_eq e he
    simp only [AddrRange.overlaps_iff] at hov
    simp only [MemoryArea.start] at hk
    by_cases hlt : e.1 < r.start
    · cases hb : s.areas.lastBelow r.start with
      | none => exact absurd (BTreeMap.lastBelow_eq_none.1 hb e he) (by omega)
      | some b =>
        obtain ⟨hbm, hbr, hmax⟩ := BTreeMap.lastBelow_eq_some hb
        have heb : e = b := by
          refine BTreeMap.key_inj he hbm (Nat.le_antisymm (hmax e he hlt) (Nat.not_lt.1 fun h => ?_))
          have := hs.end_le_start he hbm h; have := hs.key_eq b hbm
          simp only [MemoryArea.start, MemoryArea.end] at *; omega
        subst heb
        simp [AddrRange.overlaps_iff, hov]
    · cases hf : s.areas.firstAtLeast r.start with
      | none => exact absurd (BTreeMap.firstAtLeast_eq_none.1 hf e he) hlt
      | some f =>
        obtain ⟨hfm, hfr, hmin⟩ := BTreeMap.firstAtLeast_eq_some hf
        have := hmin e he (Nat.not_lt.1 hlt); have := hs.key_eq f hfm; have := hs.nonempty f hfm
        simp only [MemoryArea.start, MemoryArea.end] at *
        simp only [AddrRange.overlaps_iff, Bool.or_eq_true]
        exact .inr ⟨by omega, by omega⟩

theorem overlaps_eq_false_iff {s : MemorySet B F FR} (hs : Inv s) (r : AddrRange) :
    s.overlaps r = false ↔ ∀ e ∈ s.areas.toList, e.2.vaRange.overlaps r = false := by
  simp only [← Bool.not_eq_true, overlaps_eq_true_iff hs, not_exists, not_and]

end MemorySet

end Axmm
