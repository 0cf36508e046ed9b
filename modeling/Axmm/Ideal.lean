import Axmm.Reach
import Axmm.Adjust
/-!
# Ideal — with the ideal backend, the page table is the set's

The page table as a map from addresses to the flags they are mapped with, and the ideal backend on it (`Ideal`):
`map` and `protect` set the flags of a range, `unmap` clears it, and every call succeeds.  `Coherent s pt`: an address
has flags `f` in the page table exactly when an area of the set contains it with flags `f`.

Each call keeps it.  `unmap` phase by phase (`unmap_cases_with`): the first phase clears the areas it drops
(`coherent_retain`), and each later one cuts one slot and clears exactly the part it cuts (`coherent_cut`).  `map`
after the eviction maps the area with its own flags where nothing was (`coherent_insert`).  `protect` makes the calls
`protectCall` says, one per area, each on the part of the area it re-flags.  `clear` clears every area.  So every
state the calls reach from `MemorySet::new()` and the empty page table is coherent (`runs_coherent`).  As a set fixes
the page table that agrees with it (`Coherent.unique`), `unmap` after `map` of an area nothing overlaps gives back the
page table as well as the set (`map_then_unmap_restores_table`).  `adjust_area` moving an area's end alone maps the part it adds with the area's
flags or unmaps the part it cuts (`adjustArea_end_ideal`), so where the new range meets no other area it keeps the page
table the set's as well (`adjustArea_end_coherent`, through `coherent_replace`).
-/
namespace Axmm

/-- **The ideal backend**, on a page table that maps each address to its flags, if it is mapped: `map` and `protect`
set the flags of a range, `unmap` clears it, and every call succeeds; `map` installs no frame. -/
structure Ideal (F : Type) where

namespace Ideal

variable {F : Type}

/-- The page table with `[start, start + size)` set to `v`. -/
def fill (start size : Nat) (v : Option F) (pt : Nat → Option F) : Nat → Option F := fun a =>
  if start ≤ a ∧ a < start + size then v else pt a

instance : MappingBackend (Ideal F) F (Nat → Option F) Unit where
  map _ start size flags pt := (some BTreeMap.empty, fill start size (some flags) pt)
  unmap _ start size pt := (true, fill start size none pt)
  protect _ start size flags pt := (true, fill start size (some flags) pt)

end Ideal

namespace MemorySet

/-- **The page table agrees with the set**: an address has flags `f` exactly when an area contains it with flags
`f`. -/
def Coherent {B F FR : Type} (s : MemorySet B F FR) (pt : Nat → Option F) : Prop :=
  ∀ a f, pt a = some f ↔ Covers s.layout a f

theorem Coherent.mapped {B F FR : Type} {s : MemorySet B F FR} {pt : Nat → Option F} (hc : Coherent s pt)
    {e : Nat × MemoryArea B F FR} (he : e ∈ s.areas.toList) {a : Nat} (ha : e.2.vaRange.contains a = true) :
    pt a = some e.2.flags :=
  (hc a _).2 (covers_layout_iff.2 ⟨e, he, ha, rfl⟩)

theorem Coherent.unique {B F FR : Type} {s : MemorySet B F FR} {pt pt' : Nat → Option F} (hc : Coherent s pt)
    (hc' : Coherent s pt') : pt = pt' :=
  funext fun a => Option.ext fun f => (hc a f).trans (hc' a f).symm

theorem coherent_new {B F FR : Type} : Coherent (new : MemorySet B F FR) fun _ => none :=
  fun _ _ => ⟨fun h => (by cases h), fun ⟨_, hq, _⟩ => (by cases hq)⟩

variable {F : Type} {s : MemorySet (Ideal F) F Unit} {pt : Nat → Option F}

/-! ## `unmap` -/

theorem unmapContained_ideal (r : AddrRange) : ∀ (l : List (Nat × MemoryArea (Ideal F) F Unit)) (pt : Nat → Option F),
    (∀ e ∈ l, e.2.start ≤ e.2.end) →
    unmapContained r l pt = some fun a =>
      if ∃ e ∈ l, e.2.vaRange.containedIn r = true ∧ e.2.vaRange.contains a = true then none else pt a
  | [], pt, _ => by simp [unmapContained]
  | (k, a) :: rest, pt, h => by
    have ih := unmapContained_ideal r rest
    have ha : a.start + (a.end - a.start) = a.end := Nat.add_sub_cancel' (h _ (List.mem_cons_self _ _))
    rw [unmapContained]
    split_ifs with hc
    · rw [a.unmapArea_eq pt (h _ (List.mem_cons_self _ _))]
      dsimp only
      rw [ih _ fun e he => h e (.tail _ he)]
      congr 1
      funext x
      simp only [List.mem_cons, exists_eq_or_imp, hc, true_and, Ideal.fill, ha]
      by_cases hR : ∃ e ∈ rest, e.2.vaRange.containedIn r = true ∧ e.2.vaRange.contains x = true
      · rw [if_pos hR, if_pos (.inr hR)]
      rw [if_neg hR]
      by_cases hx : a.start ≤ x ∧ x < a.end
      · rw [if_pos hx, if_pos (.inl ((AddrRange.contains_iff _ _).2 hx))]
      · rw [if_neg hx, if_neg fun h => h.elim (fun h => hx ((AddrRange.contains_iff _ _).1 h)) hR]
    · rw [ih _ fun e he => h e (.tail _ he)]
      simp only [List.mem_cons, exists_eq_or_imp, hc, Bool.false_eq_true, false_and, false_or]

theorem coherent_retain (hs : Inv s) (hc : Coherent s pt) (r : AddrRange) {pt₁ : Nat → Option F}
    (h₁ : unmapContained r s.areas.toList pt = some pt₁) :
    Coherent ⟨s.areas.retain fun _ a => !a.vaRange.containedIn r⟩ pt₁ := by
  rw [unmapContained_ideal r _ pt fun e he => Nat.le_of_lt (hs.nonempty e he), Option.some.injEq] at h₁
  subst h₁
  intro x f
  have hcov : Covers (layout ⟨s.areas.retain fun _ a => !a.vaRange.containedIn r⟩) x f ↔
      ∃ e ∈ s.areas.toList, e.2.vaRange.containedIn r = false ∧ e.2.vaRange.contains x = true ∧ e.2.flags = f := by
    simp only [Covers, layout, List.mem_map, BTreeMap.mem_retain, Bool.not_eq_true']
    constructor
    · rintro ⟨_, ⟨e, ⟨he, hce⟩, rfl⟩, hx, rfl⟩
      exact ⟨e, he, hce, hx, rfl⟩
    · rintro ⟨e, he, hce, hx, rfl⟩
      exact ⟨_, ⟨e, ⟨he, hce⟩, rfl⟩, hx, rfl⟩
  rw [hcov]
  dsimp only
  split_ifs with hx
  · -- `x` lies in an area the range contains, which no area kept meets
    obtain ⟨e, he, hcont, hex⟩ := hx
    refine ⟨fun h => (by cases h), fun ⟨e', he', hcont', hex', _⟩ => ?_⟩
    rw [hs.eq_of_contains he' he hex' hex, hcont] at hcont'
    cases hcont'
  · rw [hc x f]
    constructor
    · rintro ⟨q, hq, hqx, rfl⟩
      obtain ⟨e, he, rfl⟩ := mem_layout.1 hq
      exact ⟨e, he, Bool.eq_false_iff.2 fun h => hx ⟨e, he, h, hqx⟩, hqx, rfl⟩
    · rintro ⟨e, he, -, hex, rfl⟩
      exact ⟨slotOf e, mem_layout.2 ⟨e, he, rfl⟩, hex, rfl⟩

theorem coherent_cut (hs : Inv s) (hc : Coherent s pt) {e₀ : Slot (Ideal F) F} (he₀ : e₀ ∈ s.layout) {lo n : Nat}
    (h1 : e₀.range.start ≤ lo) (h2 : lo + n ≤ e₀.range.end) {P : List (Slot (Ideal F) F)}
    (hflags : ∀ p ∈ P, p.flags = e₀.flags)
    (hcov : ∀ a, (∃ p ∈ P, p.range.contains a = true) ↔ e₀.range.contains a = true ∧ ¬(lo ≤ a ∧ a < lo + n))
    {s' : MemorySet (Ideal F) F Unit} (hmem : ∀ q, q ∈ s'.layout ↔ q ∈ P ∨ (q ∈ s.layout ∧ q ≠ e₀)) :
    Coherent s' (Ideal.fill lo n none pt) := by
  intro a f
  unfold Ideal.fill
  split_ifs with ha
  · -- the part cut: cleared, and no slot is left on it
    refine ⟨fun h => (by cases h), fun ⟨q, hq, hqa, _⟩ => ?_⟩
    rcases (hmem q).1 hq with hq | ⟨hq, hne⟩
    · exact ((hcov a).1 ⟨q, hq, hqa⟩).2 ha
    · exact hne (hs.slot_eq_of_contains hq he₀ hqa (by simp only [AddrRange.contains_iff]; omega))
  · rw [hc a f]
    constructor
    · rintro ⟨q, hq, hqa, rfl⟩
      by_cases hq₀ : q = e₀
      · subst hq₀
        obtain ⟨p, hp, hpa⟩ := (hcov a).2 ⟨hqa, ha⟩
        exact ⟨p, (hmem p).2 (.inl hp), hpa, hflags p hp⟩
      · exact ⟨q, (hmem q).2 (.inr ⟨hq, hq₀⟩), hqa, rfl⟩
    · rintro ⟨q, hq, hqa, rfl⟩
      rcases (hmem q).1 hq with hq | ⟨hq, -⟩
      · exact ⟨e₀, he₀, ((hcov a).1 ⟨q, hq, hqa⟩).1, (hflags q hq).symm⟩
      · exact ⟨q, hq, hqa, rfl⟩

theorem PhaseStep.coherent {f : Slot (Ideal F) F → List (Slot (Ideal F) F)}
    {o : Outcome (MemorySet (Ideal F) F Unit × (Nat → Option F))} (hs : Inv s) (hc : Coherent s pt)
    (hp : PhaseStep f s pt o) {y : MemorySet (Ideal F) F Unit × (Nat → Option F)} (hy : o.state? = some y) :
    Coherent y.1 y.2 := by
  rcases hp with ⟨rfl, -⟩ | ⟨e₀, he₀, -, lo, n, h1, h2, hflags, hcov, hcut⟩
  · cases hy
    exact hc
  · obtain ⟨s', rfl, -, hmem⟩ := hcut
    cases hy
    exact coherent_cut hs hc he₀ h1 h2 hflags hcov hmem

/-- **`unmap` keeps the page table the set's.** -/
theorem unmap_coherent (hs : Inv s) (hc : Coherent s pt) {start size : Nat}
    {y : MemorySet (Ideal F) F Unit × (Nat → Option F)} (h : (s.unmap start size pt).state? = some y) :
    Coherent y.1 y.2 := by
  rcases Nat.lt_or_ge usizeMax (start + size) with hr | hr
  · rw [unmap_of_overflow hr] at h; cases h; exact hc
  rcases Nat.eq_zero_or_pos size with rfl | hsz
  · rw [Nat.add_zero] at hr; rw [unmap_zero hr] at h; cases h; exact hc
  rcases unmap_cases_with Coherent hs hr hsz (fun _ h₁ => coherent_retain hs hc _ h₁)
      (fun _ _ _ _ _ hs hc hp hy => hp.coherent hs hc hy) with
    ⟨_, _, h₁, -, -, hc'⟩ | ⟨h₁ | ⟨_, _, h₁, -, hc'⟩, -⟩ <;> rw [h₁] at h <;> cases h
  · exact hc'
  · exact hc'

/-! ## `map` -/

theorem coherent_insert (hs : Inv s) (hc : Coherent s pt) {A : MemoryArea (Ideal F) F Unit} (hA : A.start < A.end)
    (hfree : ∀ e ∈ s.areas.toList, e.2.vaRange.overlaps A.vaRange = false) (fr : List (Nat × Unit)) :
    Coherent ⟨s.areas.insert A.start { A with frames := A.frames.extend fr }⟩
      (Ideal.fill A.start (A.end - A.start) (some A.flags) pt) := by
  have hfresh : ∀ q ∈ s.layout, q.key ≠ A.start := fun q hq => by
    obtain ⟨e, he, rfl⟩ := mem_layout.1 hq
    exact hs.key_ne_of_free hA hfree e he
  intro a f
  have hcov : Covers (layout ⟨s.areas.insert A.start { A with frames := A.frames.extend fr }⟩) a f ↔
      (A.vaRange.contains a = true ∧ A.flags = f) ∨ Covers s.layout a f := by
    simp only [Covers, mem_layout_insert_of_fresh hfresh, or_and_right, exists_or, exists_eq_left]
    rfl
  rw [hcov]
  unfold Ideal.fill
  split_ifs with ha
  · -- `a` is in the area, which no other area meets
    have hA' : A.vaRange.contains a = true := by
      simp only [AddrRange.contains_iff, MemoryArea.start, MemoryArea.end] at ha hA ⊢
      omega
    have hoff : ¬Covers s.layout a f := fun ⟨q, hq, hqa, _⟩ => by
      obtain ⟨e, he, rfl⟩ := mem_layout.1 hq
      have := (AddrRange.overlaps_eq_false_iff _ _).1 (hfree e he)
      simp only [slotOf_range, AddrRange.contains_iff] at hqa hA'
      omega
    simp only [Option.some.injEq, hA', true_and, hoff, or_false]
  · have hA' : A.vaRange.contains a = false := Bool.eq_false_iff.2 fun h => ha (by
      simp only [AddrRange.contains_iff, MemoryArea.start, MemoryArea.end] at h hA ⊢; omega)
    simp only [hc a f, hA', Bool.false_eq_true, false_and, false_or]

/-- **`map` of an area with its own flags keeps the page table the set's.** -/
theorem map_coherent (hs : Inv s) (hc : Coherent s pt) {A : MemoryArea (Ideal F) F Unit} {u : Bool}
    {y : MemorySet (Ideal F) F Unit × (Nat → Option F)} (h : (s.map A pt u none).state? = some y) : Coherent y.1 y.2 :=
  map_preserves Coherent hs hc (fun _ h => unmap_coherent hs hc h) (fun s₁ pt₁ y hs₁ hc₁ hfree h => by
    by_cases hA : A.start < A.end
    swap
    · rw [map_of_empty (Nat.not_lt.1 hA)] at h; cases h; exact hc₁
    rw [map_of_no_overlap hs₁ hA hfree] at h
    cases h
    exact coherent_insert hs₁ hc₁ hA hfree _) h

/-- **`unmap` undoes `map`, page table included.**  On a set under `Inv` that the page table agrees with, `map` of a
non-empty area nothing overlaps, with its own flags, returns `Ok`, and `unmap` of the area's range then gives back
both the set and the page table. -/
theorem map_then_unmap_restores_table (hs : Inv s) (hc : Coherent s pt) {A : MemoryArea (Ideal F) F Unit}
    (hA : A.start < A.end) (hfree : ∀ e ∈ s.areas.toList, e.2.vaRange.overlaps A.vaRange = false) (u : Bool) :
    ∃ s₁ pt₁, s.map A pt u none = .ok (s₁, pt₁) ∧ s₁.unmap A.start (A.end - A.start) pt₁ = .ok (s, pt) := by
  obtain ⟨fr, pt₁, hmap⟩ := map_of_free hs hA hfree (fun _ _ _ _ => by rfl) u none pt
  obtain ⟨pt₂, hun⟩ := unmap_inserted (A := { A with frames := A.frames.extend fr.toList }) hs hA hfree
    (fun _ _ _ => by rfl) pt₁
  -- both page tables agree with the set the round trip ends on
  have hc₁ := map_coherent hs hc (congrArg Outcome.state? hmap)
  have hc₂ := unmap_coherent (map_inv hs (congrArg Outcome.state? hmap)) hc₁ (congrArg Outcome.state? hun)
  refine ⟨_, pt₁, hmap, ?_⟩
  rw [hc.unique hc₂]
  exact hun

/-- From `MemorySet::new()` and the empty page table, `map` and then `unmap` of `[0x1000, 0x3000)` give both back. -/
theorem map_then_unmap_restores_table_emptySet :
    let A : MemoryArea (Ideal Bool) Bool Unit := MemoryArea.new 0x1000 0x2000 (by decide) none true ⟨⟩
    ∃ s₁ pt₁, (MemorySet.new : MemorySet (Ideal Bool) Bool Unit).map A (fun _ => none) false none = .ok (s₁, pt₁) ∧
      s₁.unmap A.start (A.end - A.start) pt₁ = .ok (.new, fun _ => none) :=
  map_then_unmap_restores_table inv_new coherent_new (by decide) (by decide) false

/-! ## `protect` -/

section Protect

variable {start «end» : Nat} {u : F → Option F} {a : Nat}

theorem foldl_protectCall_of_not_mem : ∀ (L : List (Slot (Ideal F) F)) (pt : Nat → Option F),
    (∀ q ∈ L, q.range.contains a = true → start ≤ a → a < «end» → u q.flags = none) →
    L.foldl (protectCall start «end» u) pt a = pt a
  | [], _, _ => rfl
  | q :: L, pt, h => by
    rw [List.foldl_cons, foldl_protectCall_of_not_mem L _ fun q' hq' => h q' (.tail _ hq')]
    cases hu : u q.flags with
    | none => rw [protectCall_of_none hu]
    | some g =>
      by_cases hoff : q.range.end ≤ start ∨ «end» ≤ q.range.start
      · rw [protectCall_of_off hoff]
      rw [protectCall_of_some hu hoff rfl rfl]
      show Ideal.fill _ _ (some g) pt a = pt a
      unfold Ideal.fill
      rw [if_neg]
      rintro ⟨h1, h2⟩
      have := h q (List.mem_cons_self _ _) (by simp only [AddrRange.contains_iff]; omega) (by omega) (by omega)
      rw [hu] at this
      cases this

theorem foldl_protectCall_of_mem {g : F} : ∀ (L : List (Slot (Ideal F) F)) (pt : Nat → Option F),
    L.Pairwise (fun p q => p.range.end ≤ q.range.start) → ∀ q ∈ L, q.range.contains a = true → start ≤ a →
    a < «end» → u q.flags = some g → L.foldl (protectCall start «end» u) pt a = some g
  | [], _, _, _, hq, _, _, _, _ => by cases hq
  | q' :: L, pt, hL, q, hq, ha, h1, h2, hu => by
    rw [List.foldl_cons]
    simp only [AddrRange.contains_iff] at ha
    rcases List.mem_cons.1 hq with rfl | hq
    · -- the slot holding `a`; the slots after it lie past `a`
      rw [foldl_protectCall_of_not_mem L _ fun p hp hpa => by
        have := (List.pairwise_cons.1 hL).1 p hp
        simp only [AddrRange.contains_iff] at hpa
        omega]
      rw [protectCall_of_some hu (by omega) rfl rfl]
      show Ideal.fill _ _ (some g) pt a = some g
      unfold Ideal.fill
      rw [if_pos (by omega)]
    · exact foldl_protectCall_of_mem L _ (List.pairwise_cons.1 hL).2 q hq ((AddrRange.contains_iff _ _).2 ha) h1 h2 hu

end Protect

/-- **`protect` keeps the page table the set's.** -/
theorem protect_coherent (hs : Inv s) (hc : Coherent s pt) {start size : Nat} {u : F → Option F}
    {y : MemorySet (Ideal F) F Unit × (Nat → Option F)} (h : (s.protect start size u pt).state? = some y) :
    Coherent y.1 y.2 := by
  rcases Nat.lt_or_ge usizeMax (start + size) with hr | hr
  · rw [protect_of_overflow hr] at h; cases h; exact hc
  rcases Nat.eq_zero_or_pos size with rfl | hsz
  · rw [Nat.add_zero] at hr
    have h0 : s.protect start 0 u pt = .panic ∨ s.protect start 0 u pt = .ok (s, pt) := protect_zero hr
    rcases h0 with h' | h' <;> rw [h'] at h <;> cases h
    exact hc
  obtain ⟨s', pt', h', -, hL, hpt, -⟩ := protect_layout (u := u) hs hsz hr
  rw [h'] at h
  cases h
  intro a g
  dsimp only
  rw [hL, covers_flatMap_protectPieces, hpt]
  by_cases hq : ∃ q ∈ s.layout, q.range.contains a = true
  · obtain ⟨q, hq, hqa⟩ := hq
    -- `q` is the one area holding `a`
    have hcov : ∀ f, Covers s.layout a f ↔ q.flags = f := fun f =>
      ⟨fun ⟨q', hq', hq'a, hf⟩ => hs.slot_eq_of_contains hq hq' hqa hq'a ▸ hf, fun hf => ⟨q, hq, hqa, hf⟩⟩
    simp only [hcov, exists_eq_left']
    by_cases hin : start ≤ a ∧ a < start + size
    · cases hu : u q.flags with
      | none =>
        rw [foldl_protectCall_of_not_mem _ _ fun q' hq' hq'a _ _ => hs.slot_eq_of_contains hq hq' hqa hq'a ▸ hu,
          hc a g, hcov, if_pos hin, Option.getD_none]
      | some g₀ =>
        rw [foldl_protectCall_of_mem _ _ hs.layout_apart q hq hqa hin.1 hin.2 hu, if_pos hin, Option.getD_some,
          Option.some.injEq]
    · rw [foldl_protectCall_of_not_mem _ _ fun _ _ _ h1 h2 => absurd ⟨h1, h2⟩ hin, hc a g, hcov, if_neg hin]
  · rw [foldl_protectCall_of_not_mem _ _ fun q' hq' hq'a => absurd ⟨q', hq', hq'a⟩ hq, hc a g]
    constructor
    · rintro ⟨q, hq', hqa, -⟩
      exact absurd ⟨q, hq', hqa⟩ hq
    · rintro ⟨f, ⟨q, hq', hqa, -⟩, -⟩
      exact absurd ⟨q, hq', hqa⟩ hq

/-! ## `clear` -/

theorem clearLoop_ideal : ∀ (l : List (Nat × MemoryArea (Ideal F) F Unit)) (pt : Nat → Option F),
    (∀ e ∈ l, e.2.start ≤ e.2.end) →
    ∃ l', clearLoop l pt = .ok (l', fun a => if ∃ e ∈ l, e.2.vaRange.contains a = true then none else pt a)
  | [], pt, _ => ⟨[], by simp [clearLoop]⟩
  | (k, a) :: rest, pt, h => by
    have ha : a.start + (a.end - a.start) = a.end := Nat.add_sub_cancel' (h _ (List.mem_cons_self _ _))
    obtain ⟨l', hl'⟩ := clearLoop_ideal rest (Ideal.fill a.start (a.end - a.start) none pt) fun e he => h e (.tail _ he)
    refine ⟨(k, { a with frames := BTreeMap.empty }) :: l', ?_⟩
    rw [clearLoop, a.unmapArea_eq pt (h _ (List.mem_cons_self _ _))]
    dsimp only
    rw [hl', Outcome.map_ok]
    congr 2
    funext x
    simp only [List.mem_cons, exists_eq_or_imp, Ideal.fill, ha]
    by_cases hR : ∃ e ∈ rest, e.2.vaRange.contains x = true
    · rw [if_pos hR, if_pos (.inr hR)]
    rw [if_neg hR]
    by_cases hx : a.start ≤ x ∧ x < a.end
    · rw [if_pos hx, if_pos (.inl ((AddrRange.contains_iff _ _).2 hx))]
    · rw [if_neg hx, if_neg fun h => h.elim (fun h => hx ((AddrRange.contains_iff _ _).1 h)) hR]

/-- **`clear` keeps the page table the set's**: it leaves no area and no address mapped. -/
theorem clear_coherent (hs : Inv s) (hc : Coherent s pt) {y : MemorySet (Ideal F) F Unit × (Nat → Option F)}
    (h : (s.clear pt).state? = some y) : Coherent y.1 y.2 := by
  obtain ⟨l', hl'⟩ := clearLoop_ideal s.areas.toList pt fun e he => Nat.le_of_lt (hs.nonempty e he)
  unfold clear at h
  -- the loop returns `Ok`, so `clear` does
  split at h <;> rename_i heq <;> rw [hl'] at heq <;> cases heq
  cases h
  intro x f
  refine ⟨fun hx => ?_, fun ⟨q, hq, _⟩ => by cases hq⟩
  dsimp only at hx
  by_cases hno : ∃ e ∈ s.areas.toList, e.2.vaRange.contains x = true
  · rw [if_pos hno] at hx
    cases hx
  · rw [if_neg hno] at hx
    obtain ⟨q, hq, hqx, -⟩ := (hc x f).1 hx
    obtain ⟨e, he, rfl⟩ := mem_layout.1 hq
    exact absurd ⟨e, he, hqx⟩ hno

/-! ## `adjust_area` -/

theorem coherent_replace (hs : Inv s) (hc : Coherent s pt) {k : Nat} {a a' : MemoryArea (Ideal F) F Unit}
    (he : (k, a) ∈ s.areas.toList)
    (hfree : ∀ e ∈ s.areas.toList, e.1 ≠ k → e.2.vaRange.overlaps a'.vaRange = false) {pt' : Nat → Option F}
    (hpt : ∀ x, pt' x =
      if a'.vaRange.contains x then some a'.flags else if a.vaRange.contains x then none else pt x) :
    Coherent ⟨s.areas.insert k a'⟩ pt' := by
  intro x f
  have hcov : Covers (layout ⟨s.areas.insert k a'⟩) x f ↔ (a'.vaRange.contains x = true ∧ a'.flags = f) ∨
      ∃ e ∈ s.areas.toList, e.1 ≠ k ∧ e.2.vaRange.contains x = true ∧ e.2.flags = f := by
    simp only [covers_layout_iff, BTreeMap.mem_insert, or_and_right, exists_or, exists_eq_left, and_assoc]
  rw [hcov, hpt]
  split_ifs with h₁ h₂
  · -- in the new area, which meets no other
    have hoff : ¬∃ e ∈ s.areas.toList, e.1 ≠ k ∧ e.2.vaRange.contains x = true ∧ e.2.flags = f :=
      fun ⟨e, he', hek, hex, _⟩ => by
        have := (AddrRange.overlaps_eq_false_iff _ _).1 (hfree e he' hek)
        rw [AddrRange.contains_iff] at hex h₁
        omega
    simp only [Option.some.injEq, h₁, true_and, hoff, or_false]
  · -- in what the old area held beyond the new one, which no other area holds
    simp only [h₁, Bool.false_eq_true, false_and, false_or, reduceCtorEq, false_iff]
    exact fun ⟨e, he', hek, hex, _⟩ => hek (congrArg Prod.fst (hs.eq_of_contains he' he hex h₂))
  · -- elsewhere the other areas decide
    rw [hc x f, covers_layout_iff]
    simp only [h₁, Bool.false_eq_true, false_and, false_or]
    refine ⟨fun ⟨e, he', hex, hef⟩ => ⟨e, he', fun hek => h₂ ?_, hex, hef⟩, fun ⟨e, he', _, hex, hef⟩ => ⟨e, he', hex, hef⟩⟩
    obtain rfl := BTreeMap.key_inj he' he hek
    exact hex

theorem adjustArea_end_ideal (hs : Inv s) (hc : Coherent s pt) {k «end» : Nat} {a : MemoryArea (Ideal F) F Unit}
    (he : (k, a) ∈ s.areas.toList) (hk : isAligned4k a.start = true) (hend : isAligned4k «end» = true)
    (hlt : a.start < «end») (hmax : «end» ≤ usizeMax) :
    ∃ a' pt', s.adjustArea k a.start «end» pt = .ok (⟨s.areas.insert k a'⟩, pt') ∧ a'.start = a.start ∧
      a'.end = «end» ∧ ∀ x, pt' x =
        if a'.vaRange.contains x then some a'.flags else if a.vaRange.contains x then none else pt x := by
  have hle : a.start < a.end := hs.nonempty _ he
  have hmapped : ∀ x, a.start ≤ x → x < a.end → pt x = some a.flags := fun x h₁ h₂ =>
    hc.mapped he ((AddrRange.contains_iff _ _).2 ⟨h₁, h₂⟩)
  rw [adjustArea_of_start_eq he hk hend hlt]
  by_cases hne : «end» = a.end
  · subst hne
    refine ⟨a, pt, by rw [if_neg fun h => h rfl]; rfl, rfl, rfl, fun x => ?_⟩
    split_ifs with h
    · rw [AddrRange.contains_iff] at h
      exact hmapped x h.1 h.2
    · rfl
  rw [if_pos hne]
  -- `extend_right` maps `[end, new end)` with the area's flags, `shrink_right` unmaps `[new end, end)`
  by_cases hgt : «end» > a.end
  on_goal 1 => rw [if_pos hgt, a.extendRight_eq pt (Nat.le_of_lt hle) (by omega) (by omega)]
  on_goal 2 => rw [if_neg hgt, a.shrinkRight_eq pt (Nat.le_of_lt hle) (by omega) (by omega)]
  all_goals
    refine ⟨_, _, rfl, rfl, show a.start + («end» - a.start) = «end» by omega, fun x => ?_⟩
    simp only [Ideal.fill, AddrRange.contains_iff, MemoryArea.withRange_vaRange, MemoryArea.start, MemoryArea.end]
      at hmapped hle hlt hgt ⊢
    split_ifs <;> first | rfl | omega | exact hmapped x (by omega) (by omega)

/-- **Moving an area's end keeps the page table the set's.**  With the ideal backend, on a set under `Inv` that the
page table agrees with, `adjust_area` of an area, under its start, to `[start, end)`, with `end` above the start and
both 4K-aligned, where the new range meets no other area, returns `Ok` with a set under `Inv` that the page table it
returns agrees with: `extend_right` maps the part it adds with the area's flags, `shrink_right` unmaps the part it
cuts. -/
theorem adjustArea_end_coherent (hs : Inv s) (hc : Coherent s pt) {k «end» : Nat} {a : MemoryArea (Ideal F) F Unit}
    (he : (k, a) ∈ s.areas.toList) (hk : isAligned4k a.start = true) (hend : isAligned4k «end» = true)
    (hlt : a.start < «end») (hmax : «end» ≤ usizeMax)
    (hfree : ∀ e ∈ s.areas.toList, e.1 ≠ k → e.2.end ≤ a.start ∨ «end» ≤ e.2.start) :
    ∃ s' pt', s.adjustArea k a.start «end» pt = .ok (s', pt') ∧ Inv s' ∧ Coherent s' pt' := by
  obtain ⟨a', pt', h, h₁, h₂, hpt⟩ := adjustArea_end_ideal hs hc he hk hend hlt hmax
  have hfree' : ∀ e ∈ s.areas.toList, e.1 ≠ k → e.2.vaRange.overlaps a'.vaRange = false := fun e he' hek =>
    (AddrRange.overlaps_eq_false_iff _ _).2 (by
      have := hfree e he' hek
      simp only [MemoryArea.start, MemoryArea.end] at h₁ h₂ this
      omega)
  exact ⟨_, pt', h, hs.insert ((hs.key_eq _ he).trans h₁.symm) (by rw [h₁, h₂]; exact hlt) hfree',
    coherent_replace hs hc he hfree' hpt⟩

/-- From `MemorySet::new()` and the empty page table, after `[0x1000, 0x3000)` is mapped with flags `true`, moving
its end to `0x5000` and back to `0x2000` keeps the page table the set's. -/
theorem adjustArea_end_coherent_oneArea :
    let A : MemoryArea (Ideal Bool) Bool Unit := MemoryArea.new 0x1000 0x2000 (by decide) none true ⟨⟩
    let s : MemorySet (Ideal Bool) Bool Unit := ⟨BTreeMap.empty.insert A.start { A with frames := A.frames.extend [] }⟩
    let pt := Ideal.fill A.start (A.end - A.start) (some A.flags) fun _ => none
    (Inv s ∧ Coherent s pt) ∧
      (∃ s' pt', s.adjustArea 0x1000 0x1000 0x5000 pt = .ok (s', pt') ∧ Inv s' ∧ Coherent s' pt') ∧
      ∃ s' pt', s.adjustArea 0x1000 0x1000 0x2000 pt = .ok (s', pt') ∧ Inv s' ∧ Coherent s' pt' := by
  intro A s pt
  have hc : Coherent s pt := coherent_insert inv_new coherent_new (by decide) (by decide) []
  have hs : Inv s := by decide
  exact ⟨⟨hs, hc⟩, adjustArea_end_coherent (a := { A with frames := A.frames.extend [] }) hs hc (List.Mem.head _)
    (by decide) (by decide) (by decide) (by decide) (by decide),
    adjustArea_end_coherent (a := { A with frames := A.frames.extend [] }) hs hc (List.Mem.head _)
    (by decide) (by decide) (by decide) (by decide) (by decide)⟩

end MemorySet

/-! ## Runs -/

namespace Call

open MemorySet

variable {B F FR : Type}

/-- The calls of the page-table law: `map` without `overwrite_flags`, `unmap`, `protect` and `clear`. -/
def OnTable : Call B F FR → Prop
  | map _ _ none => True
  | unmap _ _ => True
  | protect _ _ _ => True
  | clear => True
  | _ => False

theorem OnTable.allowed {c : Call B F FR} {s : MemorySet B F FR} (h : c.OnTable) : c.Allowed s := by
  cases c with
  | insert => exact (h : False).elim
  | _ => trivial

/-- **One step**: every state a call of the page-table law returns keeps the page table the set's. -/
theorem run_coherent {s : MemorySet (Ideal F) F Unit} {pt : Nat → Option F} {c : Call (Ideal F) F Unit}
    {y : MemorySet (Ideal F) F Unit × (Nat → Option F)} (hs : Inv s) (hc : Coherent s pt) (ho : c.OnTable)
    (h : (c.run s pt).state? = some y) : Coherent y.1 y.2 := by
  cases c with
  | map area u ov =>
    cases ov with
    | none => exact map_coherent hs hc h
    | some _ => exact (ho : False).elim
  | unmap => exact unmap_coherent hs hc h
  | protect => exact protect_coherent hs hc h
  | clear => exact clear_coherent hs hc h
  | _ => exact (ho : False).elim

end Call

/-- **The states reached from `MemorySet::new()` and the empty page table** over the ideal backend, by calls of the
page-table law that return, each on the page table the one before it left. -/
inductive Runs {F : Type} : MemorySet (Ideal F) F Unit × (Nat → Option F) → Prop
  | new : Runs (MemorySet.new, fun _ => none)
  | step {x y : MemorySet (Ideal F) F Unit × (Nat → Option F)} (c : Call (Ideal F) F Unit) :
      Runs x → c.OnTable → (c.run x.1 x.2).state? = some y → Runs y

namespace MemorySet

variable {F : Type}

theorem runs_inv_coherent {x : MemorySet (Ideal F) F Unit × (Nat → Option F)} (h : Runs x) :
    Inv x.1 ∧ Coherent x.1 x.2 := by
  induction h with
  | new => exact ⟨inv_new, coherent_new⟩
  | step c _ ho h ih => exact ⟨Call.run_inv ih.1 ho.allowed h, Call.run_coherent ih.1 ih.2 ho h⟩

/-- **With the ideal backend, the page table is the set's.**  From `MemorySet::new()` and the empty page table,
after any run of `map` without `overwrite_flags`, `unmap`, `protect` and `clear` calls that return, an address is
mapped with flags `f` exactly when an area of the set contains it and has flags `f`, and is unmapped exactly when no
area contains it. -/
theorem runs_coherent {x : MemorySet (Ideal F) F Unit × (Nat → Option F)} (h : Runs x) (a : Nat) :
    (∀ f, x.2 a = some f ↔ ∃ e ∈ x.1.areas.toList, e.2.vaRange.contains a = true ∧ e.2.flags = f) ∧
    (x.2 a = none ↔ ¬∃ e ∈ x.1.areas.toList, e.2.vaRange.contains a = true) := by
  have hc := (runs_inv_coherent h).2
  refine ⟨fun f => (hc a f).trans covers_layout_iff, fun hn ⟨e, he, hea⟩ => ?_, fun hno => ?_⟩
  · have := hc.mapped he hea
    rw [hn] at this
    cases this
  · cases hpa : x.2 a with
    | none => rfl
    | some f =>
      obtain ⟨e, he, hea, -⟩ := covers_layout_iff.1 ((hc a f).1 hpa)
      exact absurd ⟨e, he, hea⟩ hno

/-- From `MemorySet::new()` and the empty page table, `map` of `[0x1000, 0x3000)` with flags `true` and then
`protect` of `[0x2000, 0x3000)` to `false` leave `0x2800` mapped with `false`, as the area holding it is. -/
theorem runs_coherent_mapThenProtect :
    let c₁ : Call (Ideal Bool) Bool Unit := .map (MemoryArea.new 0x1000 0x2000 (by decide) none true ⟨⟩) false none
    let c₂ : Call (Ideal Bool) Bool Unit := .protect 0x2000 0x1000 fun _ => some false
    ∃ x₁ x₂ : MemorySet (Ideal Bool) Bool Unit × (Nat → Option Bool),
      (c₁.run .new fun _ => none).state? = some x₁ ∧ (c₂.run x₁.1 x₁.2).state? = some x₂ ∧ Runs x₂ ∧
      x₂.2 0x2800 = some false ∧ ∃ e ∈ x₂.1.areas.toList, e.2.vaRange.contains 0x2800 = true ∧ e.2.flags = false := by
  intro c₁ c₂
  refine ⟨_, _, rfl, rfl, ?_⟩
  have hr := Runs.step c₂ (Runs.step c₁ .new trivial rfl) trivial rfl
  exact ⟨hr, rfl, ((runs_coherent hr 0x2800).1 false).1 rfl⟩

end MemorySet

end Axmm
