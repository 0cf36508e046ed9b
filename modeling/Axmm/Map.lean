import Axmm.Unmap
/-!
# Map — `map` evicts, then inserts; `insert` refuses an overlap

`MemorySet::map` of a non-empty area is three steps (`map_eq`): the overlap check, which refuses with
`AlreadyExists` or, with `unmap_overlap`, unmaps the area's range; the backend's `map` of the whole area, whose
failure is `BadState`; and the insert under the area's start, behind `assert!`.  Only the refusal answers
`AlreadyExists`, since `unmap` and the insert step never do; a refused or failed call returns the set it was given;
and with backends that accept every call the `assert!` never fires, since after an eviction that returns no area
overlaps the area (`free_of_evicted`).  Every state either call returns keeps `Inv` (`insert_inv`, `map_inv`).
`MemorySet::insert` makes the same check, with no page table; but with `unmap_overlap` it unmaps nothing, so an
area that overlaps others would go in beside them: `insert_inv` holds for such an insert only of an area nothing
overlaps.
-/
namespace Axmm

namespace MemorySet

variable {B F PT FR : Type} {A : MemoryArea B F FR} {u : Bool}

/-! ## `insert` -/

section Insert

variable {s : MemorySet B F FR}

theorem insert_of_empty (hA : A.end ≤ A.start) (u : Bool) : s.insert A u = .err .InvalidParam s := by
  rw [insert, if_pos (by simpa only [AddrRange.isEmpty, decide_eq_true_eq] using hA)]

theorem insert_eq (hA : A.start < A.end) (u : Bool) :
    s.insert A u = if s.overlaps A.vaRange && !u then .err .AlreadyExists s
      else if (s.areas.get? A.start).isSome then .panic else .ok ⟨s.areas.insert A.start A⟩ := by
  have : A.vaRange.isEmpty = false := by
    simpa only [AddrRange.isEmpty, decide_eq_false_iff_not, Nat.not_le] using hA
  simp only [insert, this, Bool.false_eq_true, if_false]

theorem insert_of_overlap (hs : Inv s) (hA : A.start < A.end)
    (hov : ∃ e ∈ s.areas.toList, e.2.vaRange.overlaps A.vaRange = true) : s.insert A false = .err .AlreadyExists s := by
  rw [insert_eq hA, (overlaps_eq_true_iff hs _).2 hov]
  rfl

theorem insert_of_free (hs : Inv s) (hA : A.start < A.end)
    (hfree : ∀ e ∈ s.areas.toList, e.2.vaRange.overlaps A.vaRange = false) (u : Bool) :
    s.insert A u = .ok ⟨s.areas.insert A.start A⟩ := by
  have hget : s.areas.get? A.start = none := BTreeMap.get?_eq_none.2 fun _ hv => hs.key_ne_of_free hA hfree _ hv rfl
  rw [insert_eq hA, (overlaps_eq_false_iff hs _).2 hfree, hget]
  rfl

/-- **Every state `insert` returns keeps `Inv`**, without `unmap_overlap` or of an area nothing overlaps. -/
theorem insert_inv (hs : Inv s) (hu : u = false ∨ ∀ e ∈ s.areas.toList, e.2.vaRange.overlaps A.vaRange = false)
    {s' : MemorySet B F FR} (h : (s.insert A u).state? = some s') : Inv s' := by
  by_cases hA : A.start < A.end
  swap
  · rw [insert_of_empty (Nat.not_lt.1 hA)] at h; cases h; exact hs
  by_cases hfree : ∀ e ∈ s.areas.toList, e.2.vaRange.overlaps A.vaRange = false
  · rw [insert_of_free hs hA hfree] at h; cases h
    exact hs.insert rfl hA fun e he _ => hfree e he
  · have hov : ∃ e ∈ s.areas.toList, e.2.vaRange.overlaps A.vaRange = true := by
      simpa only [not_forall, Bool.not_eq_false, exists_prop] using hfree
    rw [hu.resolve_right hfree, insert_of_overlap hs hA hov] at h
    cases h; exact hs

end Insert

/-! ## `map` -/

variable [MappingBackend B F PT FR] {s : MemorySet B F FR} {pt : PT} {ov : Option F}

theorem map_of_empty (hA : A.end ≤ A.start) : s.map A pt u ov = .err .InvalidParam (s, pt) := by
  rw [map, if_pos (by simpa only [AddrRange.isEmpty, decide_eq_true_eq] using hA)]

theorem map_of_overlap (hs : Inv s) (hA : A.start < A.end)
    (hov : ∃ e ∈ s.areas.toList, e.2.vaRange.overlaps A.vaRange = true) (ov : Option F) :
    s.map A pt false ov = .err .AlreadyExists (s, pt) := by
  rw [map_eq hA, (overlaps_eq_true_iff hs _).2 hov]
  rfl

theorem free_of_evicted (hs : Inv s) (hA : A.start < A.end) {s₁ : MemorySet B F FR} {pt₁ : PT}
    (h₁ : s.unmap A.start (A.end - A.start) pt = .ok (s₁, pt₁)) :
    ∀ e ∈ s₁.areas.toList, e.2.vaRange.overlaps A.vaRange = false := by
  have hr : A.start + (A.end - A.start) ≤ usizeMax := by have := A.end_le; omega
  intro e he
  have := unmap_free hs hr (by omega) h₁ e he
  rw [AddrRange.overlaps_eq_false_iff]
  simp only [MemoryArea.start, MemoryArea.end] at this hA ⊢
  omega

theorem map_of_evicted (hs : Inv s) (hA : A.start < A.end) (hso : s.overlaps A.vaRange = true)
    {s₁ : MemorySet B F FR} {pt₁ : PT} (h₁ : s.unmap A.start (A.end - A.start) pt = .ok (s₁, pt₁)) :
    s.map A pt true ov = s₁.map A pt₁ true ov := by
  have hs₁ : Inv s₁ := unmap_inv hs (by rw [h₁]; rfl)
  rw [map_eq hA, map_eq hA, hso, (overlaps_eq_false_iff hs₁ _).2 (free_of_evicted hs hA h₁), h₁]
  rfl

theorem map_ne_alreadyExists_of_free (hs : Inv s) (hA : A.start < A.end)
    (hfree : ∀ e ∈ s.areas.toList, e.2.vaRange.overlaps A.vaRange = false) (x : MemorySet B F FR × PT) :
    s.map A pt u ov ≠ .err .AlreadyExists x := by
  rw [map_of_no_overlap hs hA hfree]
  split <;> simp

/-- Only the refusal answers `AlreadyExists`: neither the eviction nor the insert step does. -/
theorem map_eq_alreadyExists (hs : Inv s) (hA : A.start < A.end) {x : MemorySet B F FR × PT}
    (h : s.map A pt u ov = .err .AlreadyExists x) :
    u = false ∧ ∃ e ∈ s.areas.toList, e.2.vaRange.overlaps A.vaRange = true := by
  cases hso : s.overlaps A.vaRange
  · exact absurd h (map_ne_alreadyExists_of_free hs hA ((overlaps_eq_false_iff hs _).1 hso) x)
  cases u
  · exact ⟨rfl, (overlaps_eq_true_iff hs _).1 hso⟩
  cases h₁ : s.unmap A.start (A.end - A.start) pt with
  | ok y₁ =>
    obtain ⟨s₁, pt₁⟩ := y₁
    rw [map_of_evicted hs hA hso h₁] at h
    exact absurd h (map_ne_alreadyExists_of_free (unmap_inv hs (by rw [h₁]; rfl)) hA (free_of_evicted hs hA h₁) x)
  | panic => simp only [map_eq hA, hso, h₁, if_true, Outcome.panic_bind] at h; cases h
  | err e y₁ =>
    simp only [map_eq hA, hso, h₁, if_true, Outcome.err_bind, Outcome.err.injEq] at h
    obtain ⟨rfl, -⟩ := h
    exact absurd h₁ (unmap_ne_alreadyExists hs _)

/-- With backends that accept every call, `map` not refused unmaps the area's range, which changes nothing when
nothing overlaps, and inserts the area under its start: the `assert!` does not fire. -/
theorem map_after_unmap (hs : Inv s) (hA : A.start < A.end)
    (hbk : ∀ q ∈ s.layout, ∀ lo n (pt : PT), (MappingBackend.unmap q.backend lo n pt).1 = true)
    (hm : ∀ lo n f (pt : PT), (MappingBackend.map A.backend lo n f pt).1.isSome)
    (hu : u = true ∨ ∀ e ∈ s.areas.toList, e.2.vaRange.overlaps A.vaRange = false) :
    ∃ s₁ pt₁, s.unmap A.start (A.end - A.start) pt = .ok (s₁, pt₁) ∧
      ((∀ e ∈ s.areas.toList, e.2.vaRange.overlaps A.vaRange = false) → s₁ = s ∧ pt₁ = pt) ∧
      ∃ (fr : BTreeMap FR) (pt₂ : PT),
        s.map A pt u ov = .ok (⟨s₁.areas.insert A.start { A with frames := A.frames.extend fr.toList }⟩, pt₂) := by
  have hr : A.start + (A.end - A.start) ≤ usizeMax := by have := A.end_le; omega
  by_cases hfree : ∀ e ∈ s.areas.toList, e.2.vaRange.overlaps A.vaRange = false
  · refine ⟨s, pt, unmap_of_free hs hr fun e he => ?_, fun _ => ⟨rfl, rfl⟩, map_of_free hs hA hfree hm u ov pt⟩
    have := (AddrRange.overlaps_eq_false_iff _ _).1 (hfree e he)
    simp only [MemoryArea.start, MemoryArea.end] at this hA ⊢
    omega
  obtain ⟨s₁, pt₁, h₁, hs₁, -⟩ := unmap_layout hs hr (by omega) hbk
  refine ⟨s₁, pt₁, h₁, fun h => absurd h hfree, ?_⟩
  rw [hu.resolve_right hfree, map_of_evicted hs hA ((overlaps_eq_true_iff hs _).2 (by simpa using hfree)) h₁]
  exact map_of_free hs₁ hA (free_of_evicted hs hA h₁) hm true ov pt₁

/-- **What the eviction and the insert step keep, `map` keeps**: a property of the set and the page table that holds
before, after every `unmap` of the area's range that returns, and after the insert step on every set under `Inv` that
nothing in overlaps the area, holds of every state `map` returns. -/
theorem map_preserves (P : MemorySet B F FR → PT → Prop) (hs : Inv s) (hP : P s pt)
    (hunmap : ∀ y : MemorySet B F FR × PT, (s.unmap A.start (A.end - A.start) pt).state? = some y → P y.1 y.2)
    (hins : ∀ (s₁ : MemorySet B F FR) (pt₁ : PT) (y : MemorySet B F FR × PT), Inv s₁ → P s₁ pt₁ →
      (∀ e ∈ s₁.areas.toList, e.2.vaRange.overlaps A.vaRange = false) → (s₁.map A pt₁ u ov).state? = some y →
      P y.1 y.2)
    {y : MemorySet B F FR × PT} (h : (s.map A pt u ov).state? = some y) : P y.1 y.2 := by
  by_cases hA : A.start < A.end
  swap
  · rw [map_of_empty (Nat.not_lt.1 hA)] at h; cases h; exact hP
  cases hso : s.overlaps A.vaRange
  · exact hins s pt y hs hP ((overlaps_eq_false_iff hs _).1 hso) h
  cases u
  · rw [map_of_overlap hs hA ((overlaps_eq_true_iff hs _).1 hso)] at h; cases h; exact hP
  cases h₁ : s.unmap A.start (A.end - A.start) pt with
  | ok y₁ =>
    obtain ⟨s₁, pt₁⟩ := y₁
    rw [map_of_evicted hs hA hso h₁] at h
    exact hins s₁ pt₁ y (unmap_inv hs (by rw [h₁]; rfl)) (hunmap _ (by rw [h₁]; rfl)) (free_of_evicted hs hA h₁) h
  | panic => simp only [map_eq hA, hso, h₁, if_true, Outcome.panic_bind, Outcome.state?] at h; cases h
  | err e y₁ =>
    simp only [map_eq hA, hso, h₁, if_true, Outcome.err_bind, Outcome.state?, Option.some.injEq] at h
    exact h ▸ hunmap y₁ (by rw [h₁]; rfl)

/-- **Every state `map` returns keeps `Inv`**, with `Ok` or with an error, whatever the backends answer. -/
theorem map_inv (hs : Inv s) {y : MemorySet B F FR × PT} (h : (s.map A pt u ov).state? = some y) : Inv y.1 :=
  map_preserves (fun s _ => Inv s) hs hs (fun _ h => unmap_inv hs h) (fun s₁ pt₁ y hs₁ _ hfree h => by
    by_cases hA : A.start < A.end
    swap
    · rw [map_of_empty (Nat.not_lt.1 hA)] at h; cases h; exact hs₁
    -- the backend's `map`, then the insert
    rw [map_of_no_overlap hs₁ hA hfree] at h
    split at h <;> cases h
    · exact hs₁
    · exact hs₁.insert rfl hA fun e he _ => hfree e he) h

/-- **`map` refuses an overlap, or evicts it and inserts.**  On a set under `Inv` and for a non-empty area, `map`
answers `AlreadyExists` exactly when `unmap_overlap` is false and some area overlaps, and then returns the set and the
page table it was given.  Without `unmap_overlap` and with nothing overlapping, a failing backend `map` is `BadState`
on the set it was given.  With backends that accept every call, every other case returns `Ok`: the set `unmap` of the
area's range leaves, the set itself when nothing overlaps, with the area, and the frames the backend installed, under
its start.  `insert` without `unmap_overlap` answers `AlreadyExists` exactly on an overlap, with the set it was given,
and otherwise inserts the area under its start. -/
theorem map_refuses_or_evicts (hs : Inv s) (hA : A.start < A.end) (u : Bool) (ov : Option F) (pt : PT) :
    ((∃ x, s.map A pt u ov = .err .AlreadyExists x) ↔
      u = false ∧ ∃ e ∈ s.areas.toList, e.2.vaRange.overlaps A.vaRange = true) ∧
    (u = false → (∃ e ∈ s.areas.toList, e.2.vaRange.overlaps A.vaRange = true) →
      s.map A pt u ov = .err .AlreadyExists (s, pt)) ∧
    (u = false → (∀ e ∈ s.areas.toList, e.2.vaRange.overlaps A.vaRange = false) →
      (MappingBackend.map A.backend A.start (A.end - A.start) (ov.getD A.flags) pt).1 = none →
      s.map A pt u ov =
        .err .BadState (s, (MappingBackend.map A.backend A.start (A.end - A.start) (ov.getD A.flags) pt).2)) ∧
    ((∀ q ∈ s.layout, ∀ lo n (pt : PT), (MappingBackend.unmap q.backend lo n pt).1 = true) →
      (∀ lo n f (pt : PT), (MappingBackend.map A.backend lo n f pt).1.isSome) →
      (u = true ∨ ∀ e ∈ s.areas.toList, e.2.vaRange.overlaps A.vaRange = false) →
      ∃ s₁ pt₁, s.unmap A.start (A.end - A.start) pt = .ok (s₁, pt₁) ∧
        ((∀ e ∈ s.areas.toList, e.2.vaRange.overlaps A.vaRange = false) → s₁ = s ∧ pt₁ = pt) ∧
        ∃ (fr : BTreeMap FR) (pt₂ : PT),
          s.map A pt u ov = .ok (⟨s₁.areas.insert A.start { A with frames := A.frames.extend fr.toList }⟩, pt₂)) ∧
    ((∃ s', s.insert A false = .err .AlreadyExists s') ↔ ∃ e ∈ s.areas.toList, e.2.vaRange.overlaps A.vaRange = true) ∧
    ((∃ e ∈ s.areas.toList, e.2.vaRange.overlaps A.vaRange = true) → s.insert A false = .err .AlreadyExists s) ∧
    ((∀ e ∈ s.areas.toList, e.2.vaRange.overlaps A.vaRange = false) →
      s.insert A false = .ok ⟨s.areas.insert A.start A⟩) := by
  refine ⟨⟨fun ⟨_, h⟩ => map_eq_alreadyExists hs hA h,
    fun ⟨hu, hov⟩ => ⟨_, hu ▸ map_of_overlap hs hA hov ov⟩⟩,
    fun hu hov => hu ▸ map_of_overlap hs hA hov ov, fun _ hfree hn => ?_, fun hbk hm hu => map_after_unmap hs hA hbk hm hu,
    ⟨fun ⟨_, h⟩ => ?_, fun hov => ⟨s, insert_of_overlap hs hA hov⟩⟩, insert_of_overlap hs hA,
    fun hfree => insert_of_free hs hA hfree false⟩
  · rw [map_of_no_overlap hs hA hfree]
    split
    · next heq => rw [heq]
    · next heq => rw [heq] at hn; cases hn
  · by_contra hov
    rw [insert_of_free hs hA (by simpa only [not_exists, not_and, Bool.not_eq_true] using hov)] at h
    cases h

/-- On one area `[0x1000, 0x3000)` whose backend accepts every call, `map` of `[0x2000, 0x4000)` is refused without
`unmap_overlap`, and returns `Ok` with it. -/
theorem map_refuses_or_evicts_oneArea :
    let s : MemorySet Fixed Unit Unit :=
      ⟨BTreeMap.empty.insert 0x1000 (MemoryArea.new 0x1000 0x2000 (by decide) none () ⟨true, true, true⟩)⟩
    let A : MemoryArea Fixed Unit Unit := MemoryArea.new 0x2000 0x2000 (by decide) none () ⟨true, true, true⟩
    Inv s ∧ A.start < A.end ∧ s.map A () false none = .err .AlreadyExists (s, ()) ∧
      ∃ s' pt', s.map A () true none = .ok (s', pt') := by
  intro s A
  have hs : Inv s := by decide
  have hA : A.start < A.end := by decide
  have hov : ∃ e ∈ s.areas.toList, e.2.vaRange.overlaps A.vaRange = true := by decide
  have hbk : ∀ q ∈ s.layout, ∀ lo n (pt : Unit), (MappingBackend.unmap q.backend lo n pt).1 = true :=
    fun q hq _ _ _ => (by decide : ∀ q ∈ s.layout, q.backend.unmapOk = true) q hq
  obtain ⟨_, _, _, -, _, _, h⟩ := (map_refuses_or_evicts hs hA true none ()).2.2.2.1 hbk (fun _ _ _ _ => rfl) (.inl rfl)
  exact ⟨hs, hA, (map_refuses_or_evicts hs hA false none ()).2.1 rfl hov, _, _, h⟩

end MemorySet

end Axmm
