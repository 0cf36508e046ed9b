import Axmm.Ideal
/-!
# UnmapFailure — a rejected `unmap` drops the part of an area whose pages stay mapped

`unmap` is not transactional at the level of one area.  The second phase splits the area across the hole at `end` and
only then shrinks its left part: when the backend rejects that `unmap`, `?` returns `BadState` before the right part is
put back, and the set keeps the left part alone (`unmap_split_rejected`).  The third phase takes the area keyed first
in the hole out of the map and only then shrinks it: when the backend rejects, the area is not put back
(`unmap_after_rejected`).  A rejected call that changes no page leaves the page table as it was, so on a set that
agreed with its page table the pages of the lost part stay mapped, with the area's flags, and no area covers them
(`unmap_rejected_leaves_mapped_uncovered`).

`Faulty` is `Ideal`'s backend with calls that may fail, as the area's backend value says; one area on it whose `unmap`
fails is the failing input (`unmap_rejected_splitArea`).
-/
namespace Axmm

/-- **A backend whose calls may fail**, on `Ideal`'s page table: each call succeeds or fails as the area's backend
value says; one that succeeds acts as `Ideal`'s, and one that fails leaves the page table as it is. -/
structure Faulty (F : Type) where
  mapOk : Bool
  unmapOk : Bool
  protectOk : Bool

namespace Faulty

variable {F : Type}

instance : MappingBackend (Faulty F) F (Nat → Option F) Unit where
  map b start size flags pt :=
    if b.mapOk then (some BTreeMap.empty, Ideal.fill start size (some flags) pt) else (none, pt)
  unmap b start size pt := if b.unmapOk then (true, Ideal.fill start size none pt) else (false, pt)
  protect b start size flags pt := if b.protectOk then (true, Ideal.fill start size (some flags) pt) else (false, pt)

end Faulty

namespace MemorySet

section Phases

variable {B F PT FR : Type} [MappingBackend B F PT FR] {s : MemorySet B F FR} {pt : PT} {start size : Nat}

/-- **The second phase loses the right part**: when the range lies strictly inside an area and the area's backend
rejects the `unmap` of the range, `unmap` returns `BadState` on a set under `Inv` in which no area contains an address
of the area's part from `end` on. -/
theorem unmap_split_rejected {bk : Nat} {before : MemoryArea B F FR} (hs : Inv s)
    (hb : s.areas.lastBelow start = some (bk, before)) (hsz : 0 < size) (hr : start + size ≤ usizeMax)
    (h2 : start + size < before.end) (hrej : (MappingBackend.unmap before.backend start size pt).1 = false) :
    ∃ s', s.unmap start size pt = .err .BadState (s', (MappingBackend.unmap before.backend start size pt).2) ∧
      Inv s' ∧ ∀ a, start + size ≤ a → a < before.end → ∀ e ∈ s'.areas.toList, e.2.vaRange.contains a = false := by
  obtain ⟨hm, hbk, -⟩ := BTreeMap.lastBelow_eq_some hb
  have hk : bk = before.start := hs.key_eq _ hm
  simp only at hbk
  -- the range lies inside `before`, so it contains no area
  have hnc : ∀ e ∈ s.areas.toList, e.2.vaRange.containedIn (.fromStartSize start size hr) = false := fun e he => by
    rw [← Bool.not_eq_true, AddrRange.containedIn_iff]
    intro hc
    simp only [AddrRange.fromStartSize] at hc
    by_cases hek : e.1 = bk
    · rw [BTreeMap.key_inj he hm hek] at hc
      simp only [MemoryArea.start] at hc hk
      omega
    · have := hs.disjoint e he _ hm hek
      have := hs.nonempty e he
      simp only [← Bool.not_eq_true, AddrRange.overlaps_iff, MemoryArea.start, MemoryArea.end] at *
      omega
  obtain ⟨L, R, hLR, heq⟩ : ∃ L R, _ ∧ unmapBefore start (start + size) s pt = _ :=
    unmapBefore_of_split hs hb (show start < start + size by omega) h2
  obtain ⟨-, -, hL1, hL2, -⟩ := MemoryArea.split_eq_some hLR
  rw [unmap_eq_of_none_contained hr hsz hnc, heq, Nat.add_sub_cancel_left]
  rcases hu : MappingBackend.unmap before.backend start size pt with ⟨_ | _, pt'⟩
  · refine ⟨_, rfl, hs.insert (by rw [hL1]; exact hk) (by omega)
      (hs.disjoint_of_sub hm (show before.start ≤ L.start by omega) (show L.end ≤ before.end by omega)),
      fun a ha1 ha2 e he => ?_⟩
    rcases BTreeMap.mem_insert.1 he with rfl | ⟨he, hek⟩
    · -- the left part ends at `end`
      show L.vaRange.contains a = false
      rw [← Bool.not_eq_true, AddrRange.contains_iff]
      simp only [MemoryArea.end] at hL2
      omega
    · -- another area containing the address would meet `before`
      refine Bool.eq_false_iff.2 fun hea => hek (congrArg Prod.fst (hs.eq_of_contains he hm hea ?_))
      rw [AddrRange.contains_iff]
      simp only [MemoryArea.start, MemoryArea.end] at hk ha2 ⊢
      omega
  · rw [hu] at hrej
    cases hrej

/-- **The third phase loses the area it took out**: when no area lies across `start`, and the area keyed first from
`start` begins before `end` and reaches past it and its backend rejects the `unmap` of its part in the range, `unmap`
returns `BadState` on a set under `Inv` in which no area contains an address of that area. -/
theorem unmap_after_rejected {ak : Nat} {after : MemoryArea B F FR} (hs : Inv s)
    (hbelow : ∀ e ∈ s.areas.toList, e.1 < start → e.2.end ≤ start)
    (hf : s.areas.firstAtLeast start = some (ak, after)) (hsz : 0 < size) (hr : start + size ≤ usizeMax)
    (h1 : ak < start + size) (h2 : start + size < after.end)
    (hrej : (MappingBackend.unmap after.backend after.start (start + size - after.start) pt).1 = false) :
    ∃ s', s.unmap start size pt =
        .err .BadState (s', (MappingBackend.unmap after.backend after.start (start + size - after.start) pt).2) ∧
      Inv s' ∧ ∀ a, after.start ≤ a → a < after.end → ∀ e ∈ s'.areas.toList, e.2.vaRange.contains a = false := by
  obtain ⟨hm, hak, hmin⟩ := BTreeMap.firstAtLeast_eq_some hf
  have hk : ak = after.start := hs.key_eq _ hm
  simp only at hak hmin
  -- the areas keyed from `start` on begin with `after`, which reaches past `end`: the range contains none
  have hnc : ∀ e ∈ s.areas.toList, e.2.vaRange.containedIn (.fromStartSize start size hr) = false := fun e he => by
    rw [← Bool.not_eq_true, AddrRange.containedIn_iff]
    intro hc
    simp only [AddrRange.fromStartSize] at hc
    have hke := hs.key_eq e he
    have hne := hs.nonempty e he
    simp only [MemoryArea.start, MemoryArea.end] at hke hne hk h2
    rcases Nat.lt_or_eq_of_le (hmin e he (by omega)) with hlt | heq
    · have : after.end ≤ e.2.start := hs.end_le_start hm he hlt
      simp only [MemoryArea.start, MemoryArea.end] at this
      omega
    · rw [BTreeMap.key_inj he hm heq.symm] at hc
      dsimp only at hc
      omega
  -- the second phase finds no area across `start`
  have hbefore : unmapBefore start (start + size) s pt = .ok (s, pt) := by
    cases hb : s.areas.lastBelow start with
    | none => exact unmapBefore_of_none hb
    | some b =>
      obtain ⟨hbm, hbk, -⟩ := BTreeMap.lastBelow_eq_some hb
      exact unmapBefore_of_le hb (hbelow b hbm hbk)
  rw [unmap_eq_of_none_contained hr hsz hnc, hbefore, Outcome.ok_bind]
  dsimp only
  rw [unmapAfter_of_trim hs hf h1 h2]
  rcases hu : MappingBackend.unmap after.backend after.start (start + size - after.start) pt with ⟨_ | _, pt'⟩
  · refine ⟨_, rfl, hs.remove ak, fun a ha1 ha2 e he => ?_⟩
    obtain ⟨he, hek⟩ := BTreeMap.mem_remove.1 he
    refine Bool.eq_false_iff.2 fun hea => hek (congrArg Prod.fst (hs.eq_of_contains he hm hea ?_))
    rw [AddrRange.contains_iff]
    exact ⟨ha1, ha2⟩
  · rw [hu] at hrej
    cases hrej

end Phases

section PageTable

variable {B F FR : Type} {s : MemorySet B F FR} {pt : Nat → Option F}

theorem not_covers_of_uncontained {a : Nat} (h : ∀ e ∈ s.areas.toList, e.2.vaRange.contains a = false) (f : F) :
    ¬Covers s.layout a f := fun hcov => by
  obtain ⟨e, he, hea, -⟩ := covers_layout_iff.1 hcov
  rw [h e he] at hea
  cases hea

variable [MappingBackend B F (Nat → Option F) FR] {start size : Nat}

/-- **A rejected `unmap` leaves pages mapped that no area covers**, on every backend whose rejected `unmap` leaves the
page table as it is and every set under `Inv` its page table agrees with.  When the range lies strictly inside an area
whose backend rejects the `unmap` of the range, `unmap` returns `BadState`, and the area's part from `end` on is still
mapped with the area's flags, though no area covers it.  When no area lies across `start`, and the area keyed first
from `start` begins before `end`, reaches past it and its backend rejects the `unmap`, `unmap` returns `BadState`, and
the whole of that area is still mapped with its flags, though no area covers it. -/
theorem unmap_rejected_leaves_mapped_uncovered (hs : Inv s) (hc : Coherent s pt) (hsz : 0 < size)
    (hr : start + size ≤ usizeMax) :
    (∀ bk before, s.areas.lastBelow start = some (bk, before) → start + size < before.end →
      MappingBackend.unmap before.backend start size pt = (false, pt) →
      ∃ s', s.unmap start size pt = .err .BadState (s', pt) ∧
        ∀ a, start + size ≤ a → a < before.end → pt a = some before.flags ∧ ∀ f, ¬Covers s'.layout a f) ∧
    (∀ ak after, (∀ e ∈ s.areas.toList, e.1 < start → e.2.end ≤ start) →
      s.areas.firstAtLeast start = some (ak, after) → ak < start + size → start + size < after.end →
      MappingBackend.unmap after.backend after.start (start + size - after.start) pt = (false, pt) →
      ∃ s', s.unmap start size pt = .err .BadState (s', pt) ∧
        ∀ a, after.start ≤ a → a < after.end → pt a = some after.flags ∧ ∀ f, ¬Covers s'.layout a f) := by
  constructor
  · intro bk before hb h2 hu
    obtain ⟨s', h, -, hno⟩ := unmap_split_rejected hs hb hsz hr h2 (by rw [hu])
    obtain ⟨hm, hbk, -⟩ := BTreeMap.lastBelow_eq_some hb
    have hk : bk = before.start := hs.key_eq _ hm
    refine ⟨s', by rw [h, hu], fun a ha1 ha2 => ⟨hc.mapped hm ?_, not_covers_of_uncontained (hno a ha1 ha2)⟩⟩
    -- `before` begins below `start`
    rw [AddrRange.contains_iff]
    simp only [MemoryArea.start, MemoryArea.end] at hk hbk ha2 ⊢
    omega
  · intro ak after hbelow hf h1 h2 hu
    obtain ⟨s', h, -, hno⟩ := unmap_after_rejected hs hbelow hf hsz hr h1 h2 (by rw [hu])
    exact ⟨s', by rw [h, hu], fun a ha1 ha2 => ⟨hc.mapped (BTreeMap.firstAtLeast_eq_some hf).1
      ((AddrRange.contains_iff _ _).2 ⟨ha1, ha2⟩), not_covers_of_uncontained (hno a ha1 ha2)⟩⟩

/-- The failing input: one area `[0x1000, 0x4000)` with flags `true`, mapped in the page table, whose backend rejects
every `unmap`.  `unmap(0x2000, 0x1000)` returns `BadState`, and `0x3000` is still mapped with `true`, though no area
of the set left covers it. -/
theorem unmap_rejected_splitArea :
    let s : MemorySet (Faulty Bool) Bool Unit :=
      ⟨BTreeMap.empty.insert 0x1000 (MemoryArea.new 0x1000 0x3000 (by decide) none true ⟨true, false, true⟩)⟩
    let pt : Nat → Option Bool := fun a => if 0x1000 ≤ a ∧ a < 0x4000 then some true else none
    Inv s ∧ Coherent s pt ∧ ∃ s', s.unmap 0x2000 0x1000 pt = .err .BadState (s', pt) ∧ pt 0x3000 = some true ∧
      ∀ f, ¬Covers s'.layout 0x3000 f := by
  intro s pt
  have hs : Inv s := by decide
  have hc : Coherent s pt := fun a f => by
    rw [covers_layout_iff]
    simp only [s, pt, BTreeMap.mem_insert, BTreeMap.mem_empty, false_and, or_false, exists_eq_left,
      AddrRange.contains_iff, MemoryArea.new, AddrRange.fromStartSize]
    split_ifs <;> simp_all
  obtain ⟨s', h, hcov⟩ := (unmap_rejected_leaves_mapped_uncovered hs hc (show 0 < 0x1000 by decide)
    (show 0x2000 + 0x1000 ≤ usizeMax by decide)).1 0x1000 _ rfl (by decide) rfl
  exact ⟨hs, hc, s', h, hcov 0x3000 (by decide) (by decide)⟩

end PageTable

end MemorySet

end Axmm
