import Axmm.UnmapPhases
import Mathlib.Data.List.Basic
/-!
# Unmap — `unmap` leaves each area's parts outside the hole

The first phase drops the areas inside `[start, end)` (`layout_retain`) and returns when their backends accept the
`unmap` (`unmapContained_isSome`); the second and third are `PhaseStep`s.  Composed, the three leave the layout
`outside start end` makes of the one before (`unmap_layout`): no address of the hole is covered afterwards, and
every other address keeps its flags (`covers_flatMap_outside`).  A range nothing overlaps, mapped and then
unmapped, leaves the set as it was (`map_of_free`, `unmap_inserted`).  As nothing meets the hole afterwards, a second
`unmap` of it calls no backend and changes nothing (`unmap_idempotent`).
-/
namespace Axmm

namespace MemorySet

variable {B F PT FR : Type}

theorem outside_of_disjoint {start «end» : Nat} (hse : start ≤ «end») {q : Slot B F} (hk : q.key = q.range.start)
    (hne : q.range.start < q.range.end) (hd : q.range.end ≤ start ∨ «end» ≤ q.range.start) :
    outside start «end» q = [q] := by
  unfold outside
  rcases hd with hd | hd
  · rw [if_pos (by omega), if_neg (by omega), List.append_nil, slot_eta hk rfl (by omega)]
  · rw [if_neg (by omega), if_pos (by omega), List.nil_append, slot_eta (by omega) (by omega) rfl]

theorem contains_outside (start «end» : Nat) (q : Slot B F) (a : Nat) :
    (∃ p ∈ outside start «end» q, p.range.contains a = true) ↔
      q.range.contains a = true ∧ ¬(start ≤ a ∧ a < «end») := by
  have := q.range.start_le
  have := q.range.end_le
  unfold outside
  split_ifs <;> simp (disch := omega) only [List.nil_append, List.append_nil, List.singleton_append, List.mem_cons,
    List.mem_singleton, List.not_mem_nil, or_false, exists_eq_or_imp, exists_eq_left, false_and, exists_false,
    false_iff, AddrRange.contains_iff, AddrRange.ofBounds_start_of_le, AddrRange.ofBounds_end_of_le] <;> omega

theorem flags_of_mem_outside {start «end» : Nat} {p q : Slot B F} (hp : p ∈ outside start «end» q) : p.flags = q.flags := by
  unfold outside at hp
  rcases List.mem_append.1 hp with hp | hp <;> split_ifs at hp <;>
    simp only [List.mem_singleton, List.not_mem_nil] at hp <;> subst hp <;> rfl

theorem covered_outside (start «end» : Nat) (q : Slot B F) (a : Nat) (f : F) :
    (∃ p ∈ outside start «end» q, p.range.contains a = true ∧ p.flags = f) ↔
      q.range.contains a = true ∧ q.flags = f ∧ ¬(start ≤ a ∧ a < «end») := by
  constructor
  · rintro ⟨p, hp, hc, rfl⟩
    obtain ⟨hq, hout⟩ := (contains_outside start «end» q a).1 ⟨p, hp, hc⟩
    exact ⟨hq, (flags_of_mem_outside hp).symm, hout⟩
  · rintro ⟨hq, rfl, hout⟩
    obtain ⟨p, hp, hc⟩ := (contains_outside start «end» q a).2 ⟨hq, hout⟩
    exact ⟨p, hp, hc, flags_of_mem_outside hp⟩

theorem off_of_mem_outside {start «end» : Nat} (hend : «end» ≤ usizeMax) {p q : Slot B F}
    (hp : p ∈ outside start «end» q) : p.range.end ≤ start ∨ «end» ≤ p.range.start := by
  unfold outside at hp
  rcases List.mem_append.1 hp with hp | hp <;> split_ifs at hp <;>
    simp only [List.mem_singleton, List.not_mem_nil] at hp <;> subst hp <;> simp only [AddrRange.ofBounds_start,
      AddrRange.ofBounds_end] <;> omega

/-- **After `unmap`, an address is covered with the flags it had, unless it lies in the hole.** -/
theorem covers_flatMap_outside (start «end» : Nat) (L : List (Slot B F)) (a : Nat) (f : F) :
    Covers (L.flatMap (outside start «end»)) a f ↔ Covers L a f ∧ ¬(start ≤ a ∧ a < «end») := by
  simp only [Covers, List.mem_flatMap]
  constructor
  · rintro ⟨p, ⟨q, hq, hp⟩, hpa⟩
    obtain ⟨h1, h2, h3⟩ := (covered_outside start «end» q a f).1 ⟨p, hp, hpa⟩
    exact ⟨⟨q, hq, h1, h2⟩, h3⟩
  · rintro ⟨⟨q, hq, h1, h2⟩, h3⟩
    obtain ⟨p, hp, hpa⟩ := (covered_outside start «end» q a f).2 ⟨h1, h2, h3⟩
    exact ⟨p, ⟨q, hq, hp⟩, hpa⟩

/-! ## The first phase -/

theorem layout_retain (r : AddrRange) (s : MemorySet B F FR) :
    layout ⟨s.areas.retain fun _ a => !a.vaRange.containedIn r⟩ = s.layout.flatMap (dropContained r) := by
  simp only [layout, BTreeMap.retain]
  induction s.areas.toList with
  | nil => rfl
  | cons e l ih => by_cases h : e.2.vaRange.containedIn r <;> simp [List.filter_cons, dropContained, h, ih]

theorem mem_layout_retain {r : AddrRange} {s : MemorySet B F FR} {q : Slot B F}
    (hq : q ∈ layout ⟨s.areas.retain fun _ a => !a.vaRange.containedIn r⟩) :
    q ∈ s.layout ∧ ¬(r.start ≤ q.range.start ∧ q.range.end ≤ r.end) := by
  rw [layout_retain, List.mem_flatMap] at hq
  obtain ⟨p, hp, hq⟩ := hq
  unfold dropContained at hq
  split at hq
  · cases hq
  · rename_i hc
    rw [List.mem_singleton] at hq
    subst hq
    exact ⟨hp, fun h => hc ((AddrRange.containedIn_iff _ _).2 h)⟩

variable [MappingBackend B F PT FR]

theorem unmapContained_isSome (r : AddrRange) : ∀ (l : List (Nat × MemoryArea B F FR)) (pt : PT),
    (∀ e ∈ l, e.2.start ≤ e.2.end) →
    (∀ e ∈ l, e.2.vaRange.containedIn r = true →
      ∀ lo n (pt : PT), (MappingBackend.unmap e.2.backend lo n pt).1 = true) →
    ∃ pt', unmapContained r l pt = some pt'
  | [], pt, _, _ => ⟨pt, rfl⟩
  | (k, a) :: rest, pt, hle, hbk => by
    have ih := fun pt => unmapContained_isSome r rest pt (fun e he => hle e (.tail _ he)) fun e he => hbk e (.tail _ he)
    rw [unmapContained]
    split
    · rename_i hc
      have hu := hbk _ (List.mem_cons_self _ _) hc a.start (a.end - a.start) pt
      rw [a.unmapArea_eq pt (hle _ (List.mem_cons_self _ _))]
      rcases h : MappingBackend.unmap a.backend a.start (a.end - a.start) pt with ⟨_ | _, pt'⟩
      · rw [h] at hu
        cases hu
      · exact ih pt'
    · exact ih pt

variable {s : MemorySet B F FR} {pt : PT} {start size : Nat}

theorem unmap_eq_phases (hr : start + size ≤ usizeMax) (hsz : 0 < size) :
    s.unmap start size pt =
      match unmapContained (.fromStartSize start size hr) s.areas.toList pt with
      | none => .panic
      | some pt =>
        (unmapBefore start (start + size)
            ⟨s.areas.retain fun _ a => !a.vaRange.containedIn (.fromStartSize start size hr)⟩ pt).bind
          fun (s, pt) => unmapAfter start (start + size) s pt := by
  simp only [unmap, AddrRange.tryFromStartSize, dif_pos hr, AddrRange.isEmpty]
  rw [if_neg (by simp only [decide_eq_true_eq]; omega)]
  rfl

/-- **What `unmap` of a non-empty range returns**, on a set under `Inv`, whatever the backend answers: `Ok`, on a set
that keeps `Inv` and has the layout `outside` gives; or, only after the backend of an area rejected an `unmap`, a panic
(the first phase's `unwrap`) or `BadState` on a set that keeps `Inv`.  A property of the set and the page table that
the first phase leads to and every phase step keeps holds of every state returned. -/
theorem unmap_cases_with (P : MemorySet B F FR → PT → Prop) (hs : Inv s) (hr : start + size ≤ usizeMax)
    (hsz : 0 < size)
    (hP₁ : ∀ pt₁, unmapContained (.fromStartSize start size hr) s.areas.toList pt = some pt₁ →
      P ⟨s.areas.retain fun _ a => !a.vaRange.containedIn (.fromStartSize start size hr)⟩ pt₁)
    (hP : ∀ (f : Slot B F → List (Slot B F)) (s : MemorySet B F FR) (pt : PT) (o : Outcome (MemorySet B F FR × PT))
      (y : MemorySet B F FR × PT), Inv s → P s pt → PhaseStep f s pt o → o.state? = some y → P y.1 y.2) :
    (∃ s' pt', s.unmap start size pt = .ok (s', pt') ∧ Inv s' ∧
      s'.layout = s.layout.flatMap (outside start (start + size)) ∧ P s' pt') ∨
    (s.unmap start size pt = .panic ∨ ∃ s' pt', s.unmap start size pt = .err .BadState (s', pt') ∧ Inv s' ∧ P s' pt') ∧
      ∃ q ∈ s.layout, ∃ (lo n : Nat) (pt : PT), (MappingBackend.unmap q.backend lo n pt).1 = false := by
  have hse : start < start + size := by omega
  rw [unmap_eq_phases hr hsz]
  cases h₁ : unmapContained (.fromStartSize start size hr) s.areas.toList pt with
  | none =>
    refine .inr ⟨.inl rfl, ?_⟩
    by_contra hno
    push_neg at hno
    obtain ⟨_, h⟩ := unmapContained_isSome _ s.areas.toList pt (fun e he => Nat.le_of_lt (hs.nonempty e he))
      fun e he _ lo n pt => by simpa using hno _ (mem_layout.2 ⟨e, he, rfl⟩) lo n pt
    rw [h₁] at h
    cases h
  | some pt₁ =>
    dsimp only
    -- the first phase drops the slots inside the hole
    have hs₁ := hs.retain fun _ a => !a.vaRange.containedIn (.fromStartSize start size hr)
    have hP₁' := hP₁ pt₁ h₁
    have hL₁ := layout_retain (.fromStartSize start size hr) s
    have hmem₁ : ∀ q ∈ (layout ⟨s.areas.retain fun _ a => !a.vaRange.containedIn (.fromStartSize start size hr)⟩),
        q ∈ s.layout ∧ ¬(start ≤ q.range.start ∧ q.range.end ≤ start + size) := fun _ hq => mem_layout_retain hq
    -- the second trims the slot across `start`
    have hp₂ : PhaseStep _ _ pt₁ _ := unmapBefore_step hs₁ hse
    rcases hp₂.cases hs₁ fun _ => trimBefore_sorted hse with
      ⟨s₂, pt₂, h₂, hs₂, hL₂⟩ | ⟨⟨s₂, pt₂, h₂, hs₂⟩, q, hq, hrej⟩
    · have hP₂ := hP _ _ _ _ (s₂, pt₂) hs₁ hP₁' hp₂ (by rw [h₂]; rfl)
      rw [h₂, Outcome.ok_bind]
      -- the third trims the slot keyed first in the hole
      have hp₃ : PhaseStep _ _ pt₂ _ := unmapAfter_step hs₂ fun q hq => by
        rw [hL₂, List.mem_flatMap] at hq
        obtain ⟨p, hp, hq⟩ := hq
        exact reaches_past_of_mem_trimBefore (hmem₁ p hp).2 hq
      rcases hp₃.cases hs₂ fun _ => trimAfter_sorted with
        ⟨s₃, pt₃, h₃, hs₃, hL₃⟩ | ⟨⟨s₃, pt₃, h₃, hs₃⟩, q, hq, hrej⟩
      · refine .inl ⟨s₃, pt₃, h₃, hs₃, ?_, hP _ _ _ _ (s₃, pt₃) hs₂ hP₂ hp₃ (by rw [h₃]; rfl)⟩
        rw [hL₃, hL₂, hL₁, List.flatMap_assoc, List.flatMap_assoc]
        exact List.flatMap_congr fun e he => (List.flatMap_assoc _ _ _).symm.trans
          (@outside_eq _ _ (.fromStartSize start size hr) hse e (hs.slot he).1 (hs.slot he).2)
      · rw [hL₂, List.mem_flatMap] at hq
        obtain ⟨p, hp, hq⟩ := hq
        exact .inr ⟨.inr ⟨s₃, pt₃, h₃, hs₃, hP _ _ _ _ (s₃, pt₃) hs₂ hP₂ hp₃ (by rw [h₃]; rfl)⟩, p,
          (hmem₁ p hp).1,
          backend_of_mem_trimBefore hq ▸ hrej⟩
    · rw [h₂]
      exact .inr ⟨.inr ⟨s₂, pt₂, rfl, hs₂, hP _ _ _ _ (s₂, pt₂) hs₁ hP₁' hp₂ (by rw [h₂]; rfl)⟩, q, (hmem₁ q hq).1,
        hrej⟩

theorem unmap_cases (hs : Inv s) (hr : start + size ≤ usizeMax) (hsz : 0 < size) :
    (∃ s' pt', s.unmap start size pt = .ok (s', pt') ∧ Inv s' ∧
      s'.layout = s.layout.flatMap (outside start (start + size))) ∨
    (s.unmap start size pt = .panic ∨ ∃ s' pt', s.unmap start size pt = .err .BadState (s', pt') ∧ Inv s') ∧
      ∃ q ∈ s.layout, ∃ (lo n : Nat) (pt : PT), (MappingBackend.unmap q.backend lo n pt).1 = false := by
  rcases unmap_cases_with (fun _ _ => True) hs hr hsz (fun _ _ => trivial) (fun _ _ _ _ _ _ _ _ _ => trivial) with
    ⟨s', pt', h, hs', hL, -⟩ | ⟨h | ⟨s', pt', h, hs', -⟩, hrej⟩
  · exact .inl ⟨s', pt', h, hs', hL⟩
  · exact .inr ⟨.inl h, hrej⟩
  · exact .inr ⟨.inr ⟨s', pt', h, hs'⟩, hrej⟩

/-- **`unmap` of a non-empty range leaves each slot's parts outside the hole**, when the backend of every area accepts
`unmap`: it returns `Ok`, keeps `Inv`, and its layout is `outside` applied slot by slot. -/
theorem unmap_layout (hs : Inv s) (hr : start + size ≤ usizeMax) (hsz : 0 < size)
    (hbk : ∀ q ∈ s.layout, ∀ lo n (pt : PT), (MappingBackend.unmap q.backend lo n pt).1 = true) :
    ∃ s' pt', s.unmap start size pt = .ok (s', pt') ∧ Inv s' ∧
      s'.layout = s.layout.flatMap (outside start (start + size)) :=
  (unmap_cases hs hr hsz).resolve_right fun ⟨_, q, hq, lo, n, pt, h⟩ => by
    rw [hbk q hq lo n pt] at h
    cases h

theorem unmap_of_overflow (hr : usizeMax < start + size) : s.unmap start size pt = .err .InvalidParam (s, pt) := by
  simp only [unmap, AddrRange.tryFromStartSize, dif_neg (Nat.not_le.2 hr)]

theorem unmap_zero (hr : start ≤ usizeMax) : s.unmap start 0 pt = .ok (s, pt) := by
  simp only [unmap, AddrRange.tryFromStartSize, Nat.add_zero, dif_pos hr, AddrRange.isEmpty, le_refl, decide_True, if_true]

theorem unmap_ne_alreadyExists (hs : Inv s) (x : MemorySet B F FR × PT) : s.unmap start size pt ≠ .err .AlreadyExists x := by
  rcases Nat.lt_or_ge usizeMax (start + size) with hr | hr
  · rw [unmap_of_overflow hr]; simp
  rcases Nat.eq_zero_or_pos size with rfl | hsz
  · rw [Nat.add_zero] at hr; rw [unmap_zero hr]; simp
  rcases unmap_cases hs hr hsz with ⟨_, _, h, -⟩ | ⟨h | ⟨_, _, h, -⟩, -⟩ <;> rw [h] <;> simp

/-- **Every state `unmap` returns keeps `Inv`**, with `Ok` or with an error, whatever the backend answers. -/
theorem unmap_inv (hs : Inv s) {y : MemorySet B F FR × PT} (h : (s.unmap start size pt).state? = some y) : Inv y.1 := by
  rcases Nat.lt_or_ge usizeMax (start + size) with hr | hr
  · rw [unmap_of_overflow hr] at h; cases h; exact hs
  rcases Nat.eq_zero_or_pos size with rfl | hsz
  · rw [Nat.add_zero] at hr; rw [unmap_zero hr] at h; cases h; exact hs
  rcases unmap_cases hs hr hsz with ⟨_, _, h₁, hs₁, -⟩ | ⟨h₁ | ⟨_, _, h₁, hs₁⟩, -⟩ <;> rw [h₁] at h <;>
    cases h
  · exact hs₁
  · exact hs₁

theorem unmap_free (hs : Inv s) (hr : start + size ≤ usizeMax) (hsz : 0 < size) {s' : MemorySet B F FR} {pt' : PT}
    (h : s.unmap start size pt = .ok (s', pt')) :
    ∀ e ∈ s'.areas.toList, e.2.end ≤ start ∨ start + size ≤ e.2.start := by
  rcases unmap_cases hs hr hsz with ⟨_, _, h₁, -, hL⟩ | ⟨h₁ | ⟨_, _, h₁, -⟩, -⟩ <;> rw [h₁] at h <;> cases h
  intro e he
  have hq : slotOf e ∈ s'.layout := List.mem_map_of_mem slotOf he
  rw [hL, List.mem_flatMap] at hq
  obtain ⟨q, -, hp⟩ := hq
  exact off_of_mem_outside hr hp

/-! ## A range no area meets -/

theorem containedIn_eq_false_of_off (hr : start + size ≤ usizeMax) {a : MemoryArea B F FR} (hne : a.start < a.end)
    (hoff : a.end ≤ start ∨ start + size ≤ a.start) : a.vaRange.containedIn (.fromStartSize start size hr) = false := by
  rw [← Bool.not_eq_true, AddrRange.containedIn_iff]
  simp only [AddrRange.fromStartSize, MemoryArea.start, MemoryArea.end] at hne hoff ⊢
  omega

theorem unmapContained_of_none (r : AddrRange) : ∀ (l : List (Nat × MemoryArea B F FR)) (pt : PT),
    (∀ e ∈ l, e.2.vaRange.containedIn r = false) → unmapContained r l pt = some pt
  | [], _, _ => rfl
  | (k, a) :: rest, pt, h => by
    rw [unmapContained, if_neg (by rw [h _ (List.mem_cons_self _ _)]; exact Bool.false_ne_true)]
    exact unmapContained_of_none r rest pt fun e he => h e (.tail _ he)

theorem unmapBefore_of_free {lo hi : Nat} (hs : Inv s) (hlo : lo ≤ hi)
    (hfree : ∀ e ∈ s.areas.toList, e.2.end ≤ lo ∨ hi ≤ e.2.start) : unmapBefore lo hi s pt = .ok (s, pt) := by
  cases hb : s.areas.lastBelow lo with
  | none => exact unmapBefore_of_none hb
  | some b =>
    obtain ⟨hm, hbk, -⟩ := BTreeMap.lastBelow_eq_some hb
    have := hs.key_eq b hm
    have := hfree b hm
    exact unmapBefore_of_le hb (by omega)

theorem unmapAfter_of_free {lo hi : Nat} (hs : Inv s) (hfree : ∀ e ∈ s.areas.toList, e.2.end ≤ lo ∨ hi ≤ e.2.start) :
    unmapAfter lo hi s pt = .ok (s, pt) := by
  cases hf : s.areas.firstAtLeast lo with
  | none => exact unmapAfter_of_none hf
  | some b =>
    obtain ⟨hm, hak, -⟩ := BTreeMap.firstAtLeast_eq_some hf
    have := hs.key_eq b hm
    have := hs.nonempty b hm
    have := hfree b hm
    exact unmapAfter_of_le hf (by omega)

theorem unmap_eq_of_none_contained (hr : start + size ≤ usizeMax) (hsz : 0 < size)
    (hnc : ∀ e ∈ s.areas.toList, e.2.vaRange.containedIn (.fromStartSize start size hr) = false) :
    s.unmap start size pt =
      (unmapBefore start (start + size) s pt).bind fun (s, pt) => unmapAfter start (start + size) s pt := by
  have hret : s.areas.retain (fun _ a => !a.vaRange.containedIn (.fromStartSize start size hr)) = s.areas :=
    BTreeMap.eq_of_mem_iff fun e => by
      rw [BTreeMap.mem_retain]
      exact ⟨And.left, fun he => ⟨he, by rw [hnc e he]; rfl⟩⟩
  rw [unmap_eq_phases hr hsz, unmapContained_of_none _ _ pt hnc]
  dsimp only
  rw [hret]

/-- **`unmap` of a range no area meets leaves the set and the page table.** -/
theorem unmap_of_free (hs : Inv s) (hr : start + size ≤ usizeMax)
    (hfree : ∀ e ∈ s.areas.toList, e.2.end ≤ start ∨ start + size ≤ e.2.start) :
    s.unmap start size pt = .ok (s, pt) := by
  rcases Nat.eq_zero_or_pos size with rfl | hsz
  · exact unmap_zero hr
  have hnc : ∀ e ∈ s.areas.toList, e.2.vaRange.containedIn (.fromStartSize start size hr) = false := fun e he =>
    containedIn_eq_false_of_off hr (hs.nonempty e he) (hfree e he)
  rw [unmap_eq_of_none_contained hr hsz hnc, unmapBefore_of_free hs (by omega) hfree, Outcome.ok_bind]
  exact unmapAfter_of_free hs hfree

/-! ## What `unmap` leaves alone

Each phase changes only the area it cuts, and puts a piece back under a key inside that area, which no other area
has: every area off the hole stays, frames and all. -/

/-- **What a step leaves alone**: on `Ok`, every area off `[lo, hi)`, frames and all. -/
def KeepsOff (lo hi : Nat) (s : MemorySet B F FR) (o : Outcome (MemorySet B F FR × PT)) : Prop :=
  ∀ y, o = .ok y → ∀ e ∈ s.areas.toList, e.2.end ≤ lo ∨ hi ≤ e.2.start → e ∈ y.1.areas.toList

theorem unmapBefore_keepsOff (hs : Inv s) (hse : start < «end») :
    KeepsOff start «end» s (unmapBefore start «end» s pt) := by
  intro y hy e he hoff
  cases hb : s.areas.lastBelow start with
  | none => rw [unmapBefore_of_none hb] at hy; cases hy; exact he
  | some b =>
    obtain ⟨bk, before⟩ := b
    obtain ⟨hm, hbk, -⟩ := BTreeMap.lastBelow_eq_some hb
    have hk : bk = before.start := hs.key_eq _ hm
    simp only at hbk
    by_cases h1 : start < before.end
    swap
    · rw [unmapBefore_of_le hb (Nat.not_lt.1 h1)] at hy; cases hy; exact he
    -- the area across `start` meets the hole, so it is not `e`
    have hek : e.1 ≠ bk := fun hek => by
      obtain rfl := BTreeMap.key_inj he hm hek
      simp only at hoff
      omega
    by_cases h2 : before.end ≤ «end»
    · rw [unmapBefore_of_trim hs hb h1 h2] at hy
      rcases hu : MappingBackend.unmap before.backend start (before.end - start) pt with ⟨_ | _, pt'⟩ <;>
        rw [hu] at hy <;> cases hy
      exact BTreeMap.mem_insert.2 (.inr ⟨he, hek⟩)
    · obtain ⟨L, R, -, heq⟩ : ∃ L R, _ ∧ unmapBefore start «end» s pt = _ :=
        unmapBefore_of_split hs hb hse (Nat.lt_of_not_le h2)
      rw [heq] at hy
      rcases hu : MappingBackend.unmap before.backend start («end» - start) pt with ⟨_ | _, pt'⟩ <;>
        rw [hu] at hy <;> cases hy
      exact BTreeMap.mem_insert.2 (.inr ⟨BTreeMap.mem_insert.2 (.inr ⟨he, hek⟩),
        hs.key_ne_of_inside hm (by omega) (Nat.lt_of_not_le h2) e he hek⟩)

theorem unmapAfter_keepsOff (hs : Inv s) : KeepsOff start «end» s (unmapAfter start «end» s pt) := by
  intro y hy e he hoff
  cases hfa : s.areas.firstAtLeast start with
  | none => rw [unmapAfter_of_none hfa] at hy; cases hy; exact he
  | some b =>
    obtain ⟨ak, after⟩ := b
    obtain ⟨hm, hak, -⟩ := BTreeMap.firstAtLeast_eq_some hfa
    have hk : ak = after.start := hs.key_eq _ hm
    have hne := hs.nonempty _ hm
    simp only at hak hne
    by_cases h1 : ak < «end»
    swap
    · rw [unmapAfter_of_le hfa (Nat.not_lt.1 h1)] at hy; cases hy; exact he
    by_cases h2 : «end» < after.end
    swap
    · rw [unmapAfter_of_end_le hs hfa h1 (Nat.not_lt.1 h2)] at hy; cases hy
    -- the area keyed first in the hole meets it, so it is not `e`
    have hek : e.1 ≠ ak := fun hek => by
      obtain rfl := BTreeMap.key_inj he hm hek
      simp only at hoff
      omega
    rw [unmapAfter_of_trim hs hfa h1 h2] at hy
    rcases hu : MappingBackend.unmap after.backend after.start («end» - after.start) pt with ⟨_ | _, pt'⟩ <;>
      rw [hu] at hy <;> cases hy
    exact BTreeMap.mem_insert.2 (.inr ⟨BTreeMap.mem_remove.2 ⟨he, hek⟩,
      hs.key_ne_of_inside hm (by omega) h2 e he hek⟩)

/-- **`unmap` leaves every area off the hole**, frames and all, when it returns `Ok`. -/
theorem unmap_keepsOff (hs : Inv s) (hr : start + size ≤ usizeMax) (hsz : 0 < size) :
    KeepsOff start (start + size) s (s.unmap start size pt) := by
  have hse : start < start + size := by omega
  intro y hy e he hoff
  rw [unmap_eq_phases hr hsz] at hy
  cases h₁ : unmapContained (.fromStartSize start size hr) s.areas.toList pt with
  | none => rw [h₁] at hy; cases hy
  | some pt₁ =>
    rw [h₁] at hy
    obtain ⟨x, hx, hy⟩ := Outcome.bind_eq_ok hy
    -- the first phase keeps `e`, which the range does not contain
    have hs₁ := hs.retain fun _ a => !a.vaRange.containedIn (.fromStartSize start size hr)
    have he₁ : e ∈ (s.areas.retain fun _ a => !a.vaRange.containedIn (.fromStartSize start size hr)).toList :=
      BTreeMap.mem_retain.2 ⟨he, by rw [containedIn_eq_false_of_off hr (hs.nonempty e he) hoff]; rfl⟩
    -- the second keeps `Inv`
    have hs₂ : Inv x.1 := by
      rcases (show PhaseStep _ _ pt₁ _ from unmapBefore_step hs₁ hse).cases hs₁ fun _ => trimBefore_sorted hse with
        ⟨s₂, pt₂, h₂, hs₂, -⟩ | ⟨⟨s₂, pt₂, h₂, -⟩, -⟩ <;> rw [hx] at h₂ <;> cases h₂
      exact hs₂
    exact unmapAfter_keepsOff hs₂ _ hy e (unmapBefore_keepsOff hs₁ hse _ hx e he₁ hoff) hoff

/-! ## Map, then unmap -/

variable {A : MemoryArea B F FR}

theorem map_eq (hA : A.start < A.end) (u : Bool) (ov : Option F) :
    s.map A pt u ov =
      (if s.overlaps A.vaRange then (if u then s.unmap A.start (A.end - A.start) pt else .err .AlreadyExists (s, pt))
        else .ok (s, pt)).bind fun (s, pt) =>
        match MappingBackend.map A.backend A.start (A.end - A.start) (ov.getD A.flags) pt with
        | (none, pt) => .err .BadState (s, pt)
        | (some fr, pt) => if (s.areas.get? A.start).isSome then .panic
          else .ok (⟨s.areas.insert A.start { A with frames := A.frames.extend fr.toList }⟩, pt) := by
  rw [map, if_neg (by simp only [AddrRange.isEmpty, decide_eq_true_eq]; exact Nat.not_le.2 hA)]
  simp only [A.size_eq (Nat.le_of_lt hA)]
  congr 1
  funext x
  obtain ⟨s', pt'⟩ := x
  rw [A.mapArea_eq pt' ov (Nat.le_of_lt hA)]
  rcases MappingBackend.map A.backend A.start (A.end - A.start) (ov.getD A.flags) pt' with ⟨_ | fr, pt''⟩ <;> rfl

theorem Inv.key_ne_of_free (hs : Inv s) (hA : A.start < A.end)
    (hfree : ∀ e ∈ s.areas.toList, e.2.vaRange.overlaps A.vaRange = false) : ∀ e ∈ s.areas.toList, e.1 ≠ A.start := by
  intro e he hk
  have h1 := hfree e he
  have h2 := hs.nonempty e he
  have h3 := hs.key_eq e he
  simp only [← Bool.not_eq_true, AddrRange.overlaps_iff, MemoryArea.start, MemoryArea.end] at h1 h2 h3 hA hk
  omega

theorem map_of_no_overlap (hs : Inv s) (hA : A.start < A.end)
    (hfree : ∀ e ∈ s.areas.toList, e.2.vaRange.overlaps A.vaRange = false) (u : Bool) (ov : Option F) :
    s.map A pt u ov =
      match MappingBackend.map A.backend A.start (A.end - A.start) (ov.getD A.flags) pt with
      | (none, pt) => .err .BadState (s, pt)
      | (some fr, pt) => .ok (⟨s.areas.insert A.start { A with frames := A.frames.extend fr.toList }⟩, pt) := by
  have hget : s.areas.get? A.start = none := BTreeMap.get?_eq_none.2 fun _ hv => hs.key_ne_of_free hA hfree _ hv rfl
  rw [map_eq hA, (overlaps_eq_false_iff hs _).2 hfree]
  simp only [Bool.false_eq_true, if_false, Outcome.ok_bind, hget, Option.isSome_none]

theorem exists_map_some (hm : ∀ lo n f (pt : PT), (MappingBackend.map A.backend lo n f pt).1.isSome) (lo n : Nat) (f : F)
    (pt : PT) : ∃ fr pt', MappingBackend.map A.backend lo n f pt = (some fr, pt') := by
  obtain ⟨fr, h⟩ := Option.isSome_iff_exists.1 (hm lo n f pt)
  exact ⟨fr, _, Prod.ext h rfl⟩

theorem map_of_free (hs : Inv s) (hA : A.start < A.end)
    (hfree : ∀ e ∈ s.areas.toList, e.2.vaRange.overlaps A.vaRange = false)
    (hm : ∀ lo n f (pt : PT), (MappingBackend.map A.backend lo n f pt).1.isSome) (u : Bool) (ov : Option F) (pt : PT) :
    ∃ (fr : BTreeMap FR) (pt' : PT),
      s.map A pt u ov = .ok (⟨s.areas.insert A.start { A with frames := A.frames.extend fr.toList }⟩, pt') := by
  obtain ⟨fr, pt', h⟩ := exists_map_some hm A.start (A.end - A.start) (ov.getD A.flags) pt
  exact ⟨fr, pt', by rw [map_of_no_overlap hs hA hfree, h]⟩

theorem unmap_inserted (hs : Inv s) (hA : A.start < A.end)
    (hfree : ∀ e ∈ s.areas.toList, e.2.vaRange.overlaps A.vaRange = false)
    (hu : ∀ lo n (pt : PT), (MappingBackend.unmap A.backend lo n pt).1 = true) (pt : PT) :
    ∃ pt', (⟨s.areas.insert A.start A⟩ : MemorySet B F FR).unmap A.start (A.end - A.start) pt = .ok (s, pt') := by
  have hr : A.start + (A.end - A.start) ≤ usizeMax := by have := A.end_le; omega
  have hkey := hs.key_ne_of_free hA hfree
  -- no area of `s` lies inside the range, and `A` does
  have hnc : ∀ e ∈ s.areas.toList, e.2.vaRange.containedIn (.fromStartSize A.start (A.end - A.start) hr) = false := by
    intro e he
    have h1 := hfree e he
    have h2 := hs.nonempty e he
    simp only [← Bool.not_eq_true, AddrRange.overlaps_iff, AddrRange.containedIn_iff, AddrRange.fromStartSize,
      MemoryArea.start, MemoryArea.end] at h1 h2 hA ⊢
    omega
  have hc : A.vaRange.containedIn (.fromStartSize A.start (A.end - A.start) hr) = true := by
    simp only [AddrRange.containedIn_iff, AddrRange.fromStartSize, MemoryArea.start, MemoryArea.end] at hA ⊢
    omega
  obtain ⟨pt₁, h₁⟩ := unmapContained_isSome (.fromStartSize A.start (A.end - A.start) hr)
    (s.areas.insert A.start A).toList pt (fun e he => by
      rcases BTreeMap.mem_insert.1 he with rfl | ⟨he, -⟩
      · exact Nat.le_of_lt hA
      · exact Nat.le_of_lt (hs.nonempty e he))
    fun e he hce => by
      rcases BTreeMap.mem_insert.1 he with rfl | ⟨he, -⟩
      · exact hu
      · rw [hnc e he] at hce
        cases hce
  have hret : (s.areas.insert A.start A).retain (fun _ a => !a.vaRange.containedIn
      (.fromStartSize A.start (A.end - A.start) hr)) = s.areas := BTreeMap.eq_of_mem_iff fun e => by
    rw [BTreeMap.mem_retain, BTreeMap.mem_insert]
    constructor
    · rintro ⟨rfl | ⟨he, -⟩, hce⟩
      · rw [hc] at hce
        cases hce
      · exact he
    · intro he
      exact ⟨.inr ⟨he, hkey e he⟩, by rw [hnc e he]; rfl⟩
  have hoff : ∀ e ∈ s.areas.toList, e.2.end ≤ A.start ∨ A.end ≤ e.2.start := fun e he =>
    (AddrRange.overlaps_eq_false_iff _ _).1 (hfree e he)
  refine ⟨pt₁, ?_⟩
  rw [unmap_eq_phases hr (by omega), h₁]
  dsimp only
  rw [hret, show A.start + (A.end - A.start) = A.end by omega, unmapBefore_of_free hs (Nat.le_of_lt hA) hoff,
    Outcome.ok_bind, unmapAfter_of_free hs hoff]

/-! ## `unmap` -/

/-- **`unmap` cuts the hole out of the set.**  On a set under `Inv` whose areas' backends accept `unmap`, an empty
range leaves the set as it is.  A non-empty one returns `Ok`, no `unwrap`, `assert_eq!` or shrink precondition
failing; the set keeps `Inv`, and holds for each area its non-empty parts below `start` and from `start + size` on,
keyed by their starts, with the area's flags and backend.  So every area off the hole is kept, whole and with its
frames, and an address is covered afterwards, with the flags it had, exactly when it was and lies outside the hole.  A
non-empty area nothing overlaps, mapped and then unmapped, leaves the set as it was. -/
theorem unmap_leaves_outside (hs : Inv s) (hr : start + size ≤ usizeMax)
    (hbk : ∀ q ∈ s.layout, ∀ lo n (pt : PT), (MappingBackend.unmap q.backend lo n pt).1 = true) :
    (size = 0 → s.unmap start size pt = .ok (s, pt)) ∧
    (0 < size → ∃ s' pt', s.unmap start size pt = .ok (s', pt') ∧ Inv s' ∧
      s'.layout = s.layout.flatMap (outside start (start + size)) ∧
      (∀ q ∈ s.layout, q.range.end ≤ start ∨ start + size ≤ q.range.start → q ∈ s'.layout) ∧
      (∀ e ∈ s.areas.toList, e.2.end ≤ start ∨ start + size ≤ e.2.start → e ∈ s'.areas.toList) ∧
      ∀ a f, Covers s'.layout a f ↔ Covers s.layout a f ∧ ¬(start ≤ a ∧ a < start + size)) ∧
    ∀ (A : MemoryArea B F FR) (u : Bool) (ov : Option F), A.start < A.end →
      (∀ e ∈ s.areas.toList, e.2.vaRange.overlaps A.vaRange = false) →
      (∀ lo n f (pt : PT), (MappingBackend.map A.backend lo n f pt).1.isSome) →
      (∀ lo n (pt : PT), (MappingBackend.unmap A.backend lo n pt).1 = true) →
      ∃ s₁ pt₁ pt₂, s.map A pt u ov = .ok (s₁, pt₁) ∧ s₁.unmap A.start (A.end - A.start) pt₁ = .ok (s, pt₂) := by
  refine ⟨fun h0 => ?_, fun hsz => ?_, fun A u ov hA hfree hm hu => ?_⟩
  · subst h0
    exact unmap_zero hr
  · obtain ⟨s', pt', h, hs', hL⟩ := unmap_layout hs hr hsz hbk
    refine ⟨s', pt', h, hs', hL, fun q hq hd => ?_, unmap_keepsOff hs hr hsz _ h,
      fun a f => hL ▸ covers_flatMap_outside _ _ _ a f⟩
    rw [hL, List.mem_flatMap]
    exact ⟨q, hq, by rw [outside_of_disjoint (by omega) (hs.slot hq).1 (hs.slot hq).2 hd]; exact List.mem_singleton_self _⟩
  · obtain ⟨fr, pt₁, hmap⟩ := map_of_free hs hA hfree hm u ov pt
    obtain ⟨pt₂, hun⟩ := unmap_inserted (A := { A with frames := A.frames.extend fr.toList }) hs hA hfree hu pt₁
    exact ⟨_, pt₁, pt₂, hmap, hun⟩

/-- On one area `[0x1000, 0x3000)` whose backend accepts every call, `unmap` of `[0x2000, 0x3000)` returns `Ok`
with the layout `outside` gives. -/
theorem unmap_leaves_outside_oneArea :
    let s : MemorySet Fixed Unit Unit :=
      ⟨BTreeMap.empty.insert 0x1000 (MemoryArea.new 0x1000 0x2000 (by decide) none () ⟨true, true, true⟩)⟩
    Inv s ∧ 0x2000 + 0x1000 ≤ usizeMax ∧
      (∀ q ∈ s.layout, ∀ lo n (pt : Unit), (MappingBackend.unmap q.backend lo n pt).1 = true) ∧
      ∃ s' pt', s.unmap 0x2000 0x1000 () = .ok (s', pt') ∧ s'.layout = s.layout.flatMap (outside 0x2000 0x3000) := by
  intro s
  have hs : Inv s := by decide
  have hr : 0x2000 + 0x1000 ≤ usizeMax := by decide
  have hbk : ∀ q ∈ s.layout, ∀ lo n (pt : Unit), (MappingBackend.unmap q.backend lo n pt).1 = true :=
    fun q hq _ _ _ => (by decide : ∀ q ∈ s.layout, q.backend.unmapOk = true) q hq
  obtain ⟨s', pt', h, -, hL, -⟩ : ∃ s' pt', s.unmap 0x2000 0x1000 () = .ok (s', pt') ∧ _ :=
    (unmap_leaves_outside hs hr hbk).2.1 (by decide)
  exact ⟨hs, hr, hbk, s', pt', h, hL⟩

/-- **An empty range inside an area leaves the area whole**, where its parts below `start` and from `start + size`
on are two areas. -/
theorem unmap_empty_range_keeps_area_whole :
    let s : MemorySet Fixed Unit Unit :=
      ⟨BTreeMap.empty.insert 0x1000 (MemoryArea.new 0x1000 0x2000 (by decide) none () ⟨true, true, true⟩)⟩
    Inv s ∧ s.unmap 0x2000 0 () = .ok (s, ()) ∧ s.layout.length = 1 ∧
      (s.layout.flatMap (outside 0x2000 0x2000)).length = 2 :=
  ⟨by decide, rfl, rfl, rfl⟩

/-- **`unmap` is idempotent.**  On a set under `Inv` whose areas' backends accept `unmap`, `unmap` of a range that does
not pass `usize::MAX` returns `Ok`; from the set it returns, on any page table, `unmap` of the same range returns that
set and that page table, since no area meets the range any more and no backend is called. -/
theorem unmap_idempotent (hs : Inv s) (hr : start + size ≤ usizeMax)
    (hbk : ∀ q ∈ s.layout, ∀ lo n (pt : PT), (MappingBackend.unmap q.backend lo n pt).1 = true) (pt : PT) :
    ∃ s' pt', s.unmap start size pt = .ok (s', pt') ∧ ∀ pt'' : PT, s'.unmap start size pt'' = .ok (s', pt'') := by
  rcases Nat.eq_zero_or_pos size with rfl | hsz
  · rw [Nat.add_zero] at hr
    exact ⟨s, pt, unmap_zero hr, fun _ => unmap_zero hr⟩
  obtain ⟨s', pt', h, hs', hL⟩ : ∃ s' pt', s.unmap start size pt = .ok (s', pt') ∧ _ := unmap_layout hs hr hsz hbk
  refine ⟨s', pt', h, fun _ => unmap_of_free hs' hr fun e he => ?_⟩
  -- an area meeting the range would cover a point of it, which no piece `outside` leaves does
  have hne := hs'.nonempty e he
  simp only [MemoryArea.start, MemoryArea.end] at hne ⊢
  refine Classical.byContradiction fun hmeet => ?_
  have hcov : Covers s'.layout (max e.2.vaRange.start start) e.2.flags :=
    covers_layout_iff.2 ⟨e, he, (AddrRange.contains_iff _ _).2 ⟨Nat.le_max_left _ _, by omega⟩, rfl⟩
  rw [hL, covers_flatMap_outside] at hcov
  exact hcov.2 ⟨Nat.le_max_right _ _, by omega⟩

/-- On one area `[0x1000, 0x3000)`, `unmap` of `[0x2000, 0x3000)` returns `Ok`, and a second one changes nothing. -/
theorem unmap_idempotent_oneArea :
    let s : MemorySet Fixed Unit Unit :=
      ⟨BTreeMap.empty.insert 0x1000 (MemoryArea.new 0x1000 0x2000 (by decide) none () ⟨true, true, true⟩)⟩
    (Inv s ∧ 0x2000 + 0x1000 ≤ usizeMax) ∧
      ∃ s' pt', s.unmap 0x2000 0x1000 () = .ok (s', pt') ∧ ∀ pt'' : Unit, s'.unmap 0x2000 0x1000 pt'' = .ok (s', pt'') := by
  intro s
  have hs : Inv s := by decide
  exact ⟨⟨hs, by decide⟩, unmap_idempotent hs (by decide)
    (fun q hq _ _ _ => (by decide : ∀ q ∈ s.layout, q.backend.unmapOk = true) q hq) ()⟩

end MemorySet

end Axmm
