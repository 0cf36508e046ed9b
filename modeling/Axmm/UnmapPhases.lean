import Axmm.Layout
/-!
# UnmapPhases — the three phases of `unmap`, each specified on slots

`outside start end` is what `unmap` keeps of an area: its part below `start` and its part from `end` on.  The code
gets there in three phases, each specified on slots (`dropContained`, `trimBefore`, `trimAfter`), and the three
compose to `outside` slot by slot (`outside_eq`).  The second and third phases are unfolded once, per case of the
areas around the hole (`unmapBefore_of_trim` and the like); the set a cut leaves keeps `Inv` and has the pieces in
the cut slot's place (`unmapBefore_split_layout`, `unmapAfter_trim_layout`).  So each phase is a `PhaseStep`: it
returns the set as it is, or makes one backend call that cuts one slot.  What a `PhaseStep` returns is derived once
(`PhaseStep.cases`).
-/
namespace Axmm

namespace MemorySet

variable {B F PT FR : Type}

/-! ## The specification -/

/-- **What `unmap` keeps of a slot**: its part below `start` and its part from `end` on, each one that is not empty
keyed by its own start. -/
def outside (start «end» : Nat) (e : Slot B F) : List (Slot B F) :=
  (if e.range.start < start then
    [⟨e.range.start, .ofBounds e.range.start (min e.range.end start), e.flags, e.backend⟩] else []) ++
  (if «end» < e.range.end then
    [⟨max e.range.start «end», .ofBounds (max e.range.start «end») e.range.end, e.flags, e.backend⟩] else [])

/-- The first phase on a slot: it goes if the range contains it. -/
def dropContained (range : AddrRange) (e : Slot B F) : List (Slot B F) :=
  if e.range.containedIn range then [] else [e]

/-- The second phase on a slot: one across `start` keeps its part below `start`, and its part from `end` on if it
reaches past `end`. -/
def trimBefore (start «end» : Nat) (e : Slot B F) : List (Slot B F) :=
  if e.range.start < start ∧ start < e.range.end then
    ⟨e.range.start, .ofBounds e.range.start start, e.flags, e.backend⟩ ::
      (if «end» < e.range.end then [⟨«end», .ofBounds «end» e.range.end, e.flags, e.backend⟩] else [])
  else [e]

/-- The third phase on a slot: one that starts in `[start, end)` and reaches past `end` keeps its part from `end`
on. -/
def trimAfter (start «end» : Nat) (e : Slot B F) : List (Slot B F) :=
  if start ≤ e.range.start ∧ e.range.start < «end» ∧ «end» < e.range.end then
    [⟨«end», .ofBounds «end» e.range.end, e.flags, e.backend⟩]
  else [e]

theorem slot_eta {e : Slot B F} {lo hi : Nat} (hk : e.key = lo) (h1 : e.range.start = lo) (h2 : e.range.end = hi) :
    (⟨lo, .ofBounds lo hi, e.flags, e.backend⟩ : Slot B F) = e := by
  cases e; simp only at hk h1 h2; subst hk; rw [← AddrRange.eq_ofBounds h1 h2]

theorem slot_congr {e : Slot B F} {lo hi lo' hi' : Nat} (h1 : lo = lo') (h2 : hi = hi') :
    (⟨lo, .ofBounds lo hi, e.flags, e.backend⟩ : Slot B F) = ⟨lo', .ofBounds lo' hi', e.flags, e.backend⟩ := by
  subst h1 h2; rfl

/-- **The three phases compose to `outside`**, slot by slot. -/
theorem outside_eq {range : AddrRange} (hse : range.start < range.end) (e : Slot B F) (hk : e.key = e.range.start)
    (he : e.range.start < e.range.end) :
    ((dropContained range e).flatMap (trimBefore range.start range.end)).flatMap (trimAfter range.start range.end) =
      outside range.start range.end e := by
  unfold dropContained
  by_cases hc : range.start ≤ e.range.start ∧ e.range.end ≤ range.end
  · simp only [(AddrRange.containedIn_iff _ _).2 hc, if_true, List.flatMap_nil, outside]
    rw [if_neg (by omega), if_neg (by omega)]; rfl
  rw [if_neg (by simpa using hc), List.flatMap_singleton, trimBefore, outside]
  by_cases h1 : e.range.start < range.start ∧ range.start < e.range.end
  · rw [if_pos h1, if_pos h1.1, List.flatMap_cons, trimAfter, if_neg (by simp; omega)]
    by_cases h2 : range.end < e.range.end
    · rw [if_pos h2, if_pos h2, List.flatMap_singleton, trimAfter, if_neg (by simp; omega)]
      simp only [List.singleton_append, List.cons.injEq, List.cons_append, List.nil_append, and_true]
      exact ⟨slot_congr rfl (by omega), slot_congr (by omega) rfl⟩
    · rw [if_neg h2, if_neg h2]
      simp only [List.flatMap_nil, List.append_nil, List.cons.injEq, and_true]
      exact slot_congr rfl (by omega)
  · rw [if_neg h1, List.flatMap_singleton, trimAfter]
    by_cases h3 : range.start ≤ e.range.start ∧ e.range.start < range.end ∧ range.end < e.range.end
    · rw [if_pos h3, if_neg (by omega), if_pos h3.2.2, List.nil_append]
      simp only [List.cons.injEq, and_true]
      exact slot_congr (by omega) rfl
    · rw [if_neg h3]
      by_cases h4 : e.range.start < range.start
      · rw [if_pos h4, if_neg (by omega), List.append_nil, slot_eta hk rfl (by omega)]
      · rw [if_neg h4, if_pos (by omega), List.nil_append, slot_eta (by omega) (by omega) rfl]

theorem covered_trimBefore {start «end» : Nat} {e : Slot B F} (hse : start ≤ «end»)
    (h : e.range.start < start ∧ start < e.range.end) (a : Nat) :
    (∃ p ∈ trimBefore start «end» e, p.range.contains a = true) ↔
      e.range.contains a = true ∧ ¬(start ≤ a ∧ a < start + (min «end» e.range.end - start)) := by
  have := e.range.end_le
  unfold trimBefore
  rw [if_pos h]
  split <;> simp (disch := omega) [AddrRange.ofBounds_start_of_le, AddrRange.ofBounds_end_of_le,
    -AddrRange.ofBounds_start, -AddrRange.ofBounds_end] <;> omega

theorem covered_trimAfter {start «end» : Nat} {e : Slot B F}
    (h : start ≤ e.range.start ∧ e.range.start < «end» ∧ «end» < e.range.end) (a : Nat) :
    (∃ p ∈ trimAfter start «end» e, p.range.contains a = true) ↔
      e.range.contains a = true ∧ ¬(e.range.start ≤ a ∧ a < e.range.start + («end» - e.range.start)) := by
  have := e.range.end_le
  rw [trimAfter, if_pos h]
  simp
  omega

theorem flags_of_mem_trimBefore {start «end» : Nat} {p e : Slot B F} (h : p ∈ trimBefore start «end» e) :
    p.flags = e.flags := by
  unfold trimBefore at h
  split_ifs at h <;> simp only [List.mem_cons, List.mem_singleton, List.not_mem_nil, or_false] at h <;>
    rcases h with rfl | rfl <;> rfl

theorem flags_of_mem_trimAfter {start «end» : Nat} {p e : Slot B F} (h : p ∈ trimAfter start «end» e) :
    p.flags = e.flags := by
  unfold trimAfter at h
  split_ifs at h <;> rw [List.mem_singleton] at h <;> rw [h]

theorem backend_of_mem_trimBefore {start «end» : Nat} {p e : Slot B F} (h : p ∈ trimBefore start «end» e) :
    p.backend = e.backend := by
  unfold trimBefore at h
  split_ifs at h <;> simp only [List.mem_cons, List.mem_singleton, List.not_mem_nil, or_false] at h <;>
    rcases h with rfl | rfl <;> rfl

theorem trimBefore_sorted {start «end» : Nat} (hse : start < «end») {e : Slot B F} (hk : e.key = e.range.start)
    (he : e.range.start < e.range.end) : (trimBefore start «end» e).Pairwise (fun a b => a.key < b.key) ∧
      ∀ p ∈ trimBefore start «end» e, e.range.start ≤ p.key ∧ p.key < e.range.end := by
  unfold trimBefore
  split_ifs <;> simp <;> omega

theorem trimAfter_sorted {start «end» : Nat} {e : Slot B F} (hk : e.key = e.range.start)
    (he : e.range.start < e.range.end) : (trimAfter start «end» e).Pairwise (fun a b => a.key < b.key) ∧
      ∀ p ∈ trimAfter start «end» e, e.range.start ≤ p.key ∧ p.key < e.range.end := by
  unfold trimAfter
  split_ifs <;> simp <;> omega

theorem reaches_past_of_mem_trimBefore {start «end» : Nat} {p q : Slot B F}
    (hp : ¬(start ≤ p.range.start ∧ p.range.end ≤ «end»)) (hq : q ∈ trimBefore start «end» p)
    (h1 : start ≤ q.range.start) (h2 : q.range.start < «end») : «end» < q.range.end := by
  have := p.range.end_le
  unfold trimBefore at hq
  split_ifs at hq <;> simp only [List.mem_cons, List.mem_singleton, List.not_mem_nil, or_false] at hq <;>
    rcases hq with rfl | rfl <;> simp at h1 h2 ⊢ <;> omega

/-! ## A phase: one slot cut -/

variable [MappingBackend B F PT FR]

/-- **One backend call cutting one slot**: the backend of `e₀` unmaps `[lo, lo + n)`, a part of `e₀`, and `P`, the
pieces of `e₀` left, have its flags and cover what it covers outside that part.  On failure the phase returns
`BadState`, on success a set with `e₀` replaced by `P`; either way the set keeps `Inv`. -/
def CutsSlot (s : MemorySet B F FR) (pt : PT) (o : Outcome (MemorySet B F FR × PT)) (e₀ : Slot B F) (lo n : Nat)
    (P : List (Slot B F)) : Prop :=
  e₀.range.start ≤ lo ∧ lo + n ≤ e₀.range.end ∧ (∀ p ∈ P, p.flags = e₀.flags) ∧
  (∀ a, (∃ p ∈ P, p.range.contains a = true) ↔ e₀.range.contains a = true ∧ ¬(lo ≤ a ∧ a < lo + n)) ∧
  match MappingBackend.unmap e₀.backend lo n pt with
  | (false, pt) => ∃ s', o = .err .BadState (s', pt) ∧ Inv s'
  | (true, pt) => ∃ s', o = .ok (s', pt) ∧ Inv s' ∧ ∀ q, q ∈ s'.layout ↔ q ∈ P ∨ (q ∈ s.layout ∧ q ≠ e₀)

/-- **What the second and third phases do**, with `f` the phase's specification on slots: return the set as it is,
`f` keeping every slot whole, or cut the one slot `f` changes. -/
def PhaseStep (f : Slot B F → List (Slot B F)) (s : MemorySet B F FR) (pt : PT)
    (o : Outcome (MemorySet B F FR × PT)) : Prop :=
  (o = .ok (s, pt) ∧ ∀ q ∈ s.layout, f q = [q]) ∨
  ∃ e₀ ∈ s.layout, (∀ q ∈ s.layout, q ≠ e₀ → f q = [q]) ∧ ∃ lo n, CutsSlot s pt o e₀ lo n (f e₀)

namespace PhaseStep

variable {f : Slot B F → List (Slot B F)} {s s' : MemorySet B F FR} {pt pt' : PT} {o : Outcome (MemorySet B F FR × PT)}

/-- **What a phase returns**, when `f` cuts each slot into pieces in key order, whatever the backend answers: `Ok`,
on a set that keeps `Inv` and has the layout `f` makes of the one before; or, after the backend of a slot rejected an
`unmap`, `BadState` on a set that keeps `Inv`. -/
theorem cases (hs : Inv s) (hp : PhaseStep f s pt o)
    (hf : ∀ q : Slot B F, q.key = q.range.start → q.range.start < q.range.end →
      (f q).Pairwise (fun a b => a.key < b.key) ∧ ∀ p ∈ f q, q.range.start ≤ p.key ∧ p.key < q.range.end) :
    (∃ s' pt', o = .ok (s', pt') ∧ Inv s' ∧ s'.layout = s.layout.flatMap f) ∨
    (∃ s' pt', o = .err .BadState (s', pt') ∧ Inv s') ∧
      ∃ q ∈ s.layout, ∃ (lo n : Nat) (pt : PT), (MappingBackend.unmap q.backend lo n pt).1 = false := by
  have hL := flatMap_sorted hs.layout_apart (fun e he => (hf e (hs.slot he).1 (hs.slot he).2).1)
    fun e he => (hf e (hs.slot he).1 (hs.slot he).2).2
  rcases hp with ⟨rfl, hid⟩ | ⟨e₀, he₀, hid, lo, n, -, -, -, -, hcut⟩
  · exact .inl ⟨s, pt, rfl, hs, (flatMap_eq_self hid).symm⟩
  · rcases hu : MappingBackend.unmap e₀.backend lo n pt with ⟨_ | _, pt'⟩ <;> simp only [hu] at hcut
    · obtain ⟨s', rfl, hs'⟩ := hcut
      exact .inr ⟨⟨s', pt', rfl, hs'⟩, e₀, he₀, lo, n, pt, by rw [hu]⟩
    · obtain ⟨s', rfl, hs', hmem⟩ := hcut
      exact .inl ⟨s', pt', rfl, hs',
        layout_eq_of_mem_iff hL fun q => (hmem q).trans (mem_flatMap_of_single he₀ hid q).symm⟩

end PhaseStep

/-! ## The second phase -/

variable {s : MemorySet B F FR} {pt : PT} {start «end» bk : Nat} {before : MemoryArea B F FR}

theorem unmapBefore_of_none (h : s.areas.lastBelow start = none) : unmapBefore start «end» s pt = .ok (s, pt) := by
  simp only [unmapBefore, h]

theorem unmapBefore_of_le (h : s.areas.lastBelow start = some (bk, before)) (hle : before.end ≤ start) :
    unmapBefore start «end» s pt = .ok (s, pt) := by
  simp only [unmapBefore, h, if_neg (Nat.not_lt.2 hle)]

/-- **The area across `start` ends inside the hole**: it is shrunk to `[before.start, start)`. -/
theorem unmapBefore_of_trim (hs : Inv s) (h : s.areas.lastBelow start = some (bk, before)) (h1 : start < before.end)
    (h2 : before.end ≤ «end») :
    unmapBefore start «end» s pt =
      match MappingBackend.unmap before.backend start (before.end - start) pt with
      | (false, pt) => .err .BadState (s, pt)
      | (true, pt) => .ok (⟨s.areas.insert bk (before.withRange (.ofBounds before.start start))⟩, pt) := by
  obtain ⟨hm, hbk, -⟩ := BTreeMap.lastBelow_eq_some h
  have hk : bk = before.start := hs.key_eq _ hm
  have hsz := before.size_eq (Nat.le_of_lt (hs.nonempty _ hm))
  simp only [unmapBefore, h, if_pos h1, if_pos h2, subAddr_of_le (Nat.le_of_lt hbk)]
  simp only at hbk
  rw [before.shrinkRight_eq pt (Nat.le_of_lt (hs.nonempty _ hm)) (by omega) (by omega),
    show MappingBackend.unmap before.backend (before.start + (start - bk)) (before.end - before.start - (start - bk)) pt =
      MappingBackend.unmap before.backend start (before.end - start) pt by congr 1 <;> omega]
  cases MappingBackend.unmap before.backend start (before.end - start) pt with
  | mk ok pt' =>
    cases ok
    · simp only [Outcome.map, BTreeMap.insert_self hm]
    · simp only [Outcome.map]
      congr 4
      exact congrArg before.withRange (AddrRange.eq_ofBounds rfl (show before.start + (start - bk) = start by omega))

/-- **The area across `start` reaches past `end`**: it is split at `end`, its left part shrunk to `[before.start, start)`
and its right part put back at `end`. -/
theorem unmapBefore_of_split (hs : Inv s) (h : s.areas.lastBelow start = some (bk, before)) (hse : start < «end»)
    (h2 : «end» < before.end) : ∃ L R, before.split «end» = some (L, R) ∧
      unmapBefore start «end» s pt =
        match MappingBackend.unmap before.backend start («end» - start) pt with
        | (false, pt) => .err .BadState (⟨s.areas.insert bk L⟩, pt)
        | (true, pt) => .ok (⟨(s.areas.insert bk (L.withRange (.ofBounds before.start start))).insert «end» R⟩, pt) := by
  obtain ⟨hm, hbk, -⟩ := BTreeMap.lastBelow_eq_some h
  have hk : bk = before.start := hs.key_eq _ hm
  simp only at hbk
  obtain ⟨L, R, hLR⟩ := before.split_isSome (show before.start < «end» by omega) h2
  obtain ⟨-, -, hL1, hL2, hR1, -, -, -, hLb, -⟩ := MemoryArea.split_eq_some hLR
  refine ⟨L, R, hLR, ?_⟩
  simp only [unmapBefore, h, if_pos (show start < before.end by omega), if_neg (Nat.not_le.2 h2), hLR,
    subAddr_of_le (Nat.le_of_lt hbk)]
  rw [L.shrinkRight_eq pt (by omega) (by omega) (by omega), hLb,
    show MappingBackend.unmap before.backend (L.start + (start - bk)) (L.end - L.start - (start - bk)) pt =
      MappingBackend.unmap before.backend start («end» - start) pt by congr 1 <;> omega]
  cases MappingBackend.unmap before.backend start («end» - start) pt with
  | mk ok pt' =>
    cases ok
    · rfl
    · simp only [Outcome.map, Outcome.ok_bind, if_pos hR1]
      congr 5
      exact congrArg L.withRange (AddrRange.eq_ofBounds hL1 (show L.start + (start - bk) = start by omega))

/-- **After the split at `end` of the area across `start`**, the set with the left part shrunk to `[before.start, start)`
and the right part at `end` keeps `Inv`, and in its layout `trimBefore`'s two pieces take the place of the area's slot. -/
theorem unmapBefore_split_layout {L R : MemoryArea B F FR} (hs : Inv s) (hm : (bk, before) ∈ s.areas.toList)
    (hbk : bk < start) (hse : start < «end») (h2 : «end» < before.end) (hLR : before.split «end» = some (L, R)) :
    Inv (⟨(s.areas.insert bk (L.withRange (.ofBounds before.start start))).insert «end» R⟩ : MemorySet B F FR) ∧
      ∀ q, q ∈ layout ⟨(s.areas.insert bk (L.withRange (.ofBounds before.start start))).insert «end» R⟩ ↔
        q ∈ trimBefore start «end» (slotOf (bk, before)) ∨ (q ∈ s.layout ∧ q ≠ slotOf (bk, before)) := by
  have hk : bk = before.start := hs.key_eq _ hm
  have hst := before.start_le
  have hen := before.end_le
  have he₀ : slotOf (bk, before) ∈ s.layout := mem_layout.2 ⟨_, hm, rfl⟩
  have hstr : (slotOf (bk, before)).range.start < start ∧ start < (slotOf (bk, before)).range.end :=
    ⟨hk ▸ hbk, show start < before.end by omega⟩
  obtain ⟨-, -, hL1, hL2, hR1, hR2, hLf, hRf, hLb, hRb, -, -⟩ := MemoryArea.split_eq_some hLR
  have hR1' : R.vaRange.start = «end» := hR1
  have hL' : Inv (⟨s.areas.insert bk (L.withRange (.ofBounds before.start start))⟩ : MemorySet B F FR) := by
    refine hs.insert ?_ ?_ (hs.disjoint_of_sub hm ?_ ?_) <;>
      simp only [MemoryArea.withRange_start, MemoryArea.withRange_end, MemoryArea.withRange_vaRange,
        AddrRange.ofBounds_start, AddrRange.ofBounds_end] <;> omega
  have hP1' : slotOf (bk, L.withRange (.ofBounds before.start start)) =
      ⟨(slotOf (bk, before)).range.start, .ofBounds (slotOf (bk, before)).range.start start,
        (slotOf (bk, before)).flags, (slotOf (bk, before)).backend⟩ := by
    subst hk
    simp only [slotOf, MemoryArea.withRange_vaRange, MemoryArea.withRange_flags, MemoryArea.withRange_backend,
      hLf, hLb]
    rfl
  have hP2 : slotOf («end», R) = ⟨«end», .ofBounds «end» (slotOf (bk, before)).range.end,
      (slotOf (bk, before)).flags, (slotOf (bk, before)).backend⟩ := by
    simp only [slotOf, hRf, hRb, AddrRange.eq_ofBounds hR1 hR2]
    rfl
  have hfresh : ∀ q ∈ layout ⟨s.areas.insert bk (L.withRange (.ofBounds before.start start))⟩, q.key ≠ «end» := by
    intro q hq
    rcases (mem_layout_insert_of_mem he₀).1 hq with rfl | ⟨hq, -⟩
    · simp only [slotOf_key]
      omega
    · intro hqk
      have h3 : before.end ≤ q.range.start := hs.slot_end_le he₀ hq (by simp only [slotOf_key]; omega)
      have h4 := (hs.slot hq).1
      omega
  refine ⟨hL'.insert hR1.symm (by omega) fun e he _ => ?_, fun q => ?_⟩
  · rcases BTreeMap.mem_insert.1 he with rfl | ⟨he, hkb⟩
    · simp only [MemoryArea.withRange_vaRange, ← Bool.not_eq_true, AddrRange.overlaps_iff,
        AddrRange.ofBounds_start, AddrRange.ofBounds_end]
      omega
    · exact hs.disjoint_of_sub hm (show before.start ≤ R.start by omega) (show R.end ≤ before.end by omega) e he hkb
  · rw [mem_layout_insert_of_fresh hfresh, mem_layout_insert_of_mem he₀, trimBefore, if_pos hstr,
      if_pos (show «end» < (slotOf (bk, before)).range.end from h2), List.mem_cons,
      List.mem_singleton, hP1', hP2, or_assoc, or_left_comm]

/-- **The second phase is a `PhaseStep` of `trimBefore`**: it cuts the slot across `start`, if there is one. -/
theorem unmapBefore_step (hs : Inv s) (hse : start < «end») :
    PhaseStep (trimBefore start «end») s pt (unmapBefore start «end» s pt) := by
  cases hb : s.areas.lastBelow start with
  | none =>
    refine .inl ⟨unmapBefore_of_none hb, fun q hq => if_neg fun h => ?_⟩
    obtain ⟨e, he, rfl⟩ := mem_layout.1 hq
    have := BTreeMap.lastBelow_eq_none.1 hb e he
    have := hs.key_eq e he
    simp only [slotOf_range, MemoryArea.start] at h this
    omega
  | some b =>
    obtain ⟨bk, before⟩ := b
    obtain ⟨hm, hbk, hmax⟩ := BTreeMap.lastBelow_eq_some hb
    have hk : bk = before.start := hs.key_eq _ hm
    have hne : before.start < before.end := hs.nonempty _ hm
    have hst := before.start_le
    have hen := before.end_le
    have he₀ : slotOf (bk, before) ∈ s.layout := mem_layout.2 ⟨_, hm, rfl⟩
    simp only at hbk hmax
    have hother : ∀ q ∈ s.layout, q ≠ slotOf (bk, before) → trimBefore start «end» q = [q] := by
      intro q hq hq₀
      refine if_neg fun h => ?_
      obtain ⟨e, he, rfl⟩ := mem_layout.1 hq
      have hke := hs.key_eq e he
      simp only [slotOf_range, MemoryArea.start] at h hke
      have hlt : e.1 < bk := Nat.lt_of_le_of_ne (hmax e he (by omega)) fun h' => hq₀ (by rw [BTreeMap.key_inj he hm h'])
      have := hs.end_le_start he hm hlt
      simp only [MemoryArea.start, MemoryArea.end] at this hk
      omega
    by_cases h1 : start < before.end
    · have hstr : (slotOf (bk, before)).range.start < start ∧ start < (slotOf (bk, before)).range.end := ⟨hk ▸ hbk, h1⟩
      have hP1 : slotOf (bk, before.withRange (.ofBounds before.start start)) =
          ⟨(slotOf (bk, before)).range.start, .ofBounds (slotOf (bk, before)).range.start start,
            (slotOf (bk, before)).flags, (slotOf (bk, before)).backend⟩ := by
        subst hk; rfl
      refine .inr ⟨_, he₀, hother, start, min «end» before.end - start, Nat.le_of_lt hstr.1,
        show start + (min «end» before.end - start) ≤ before.end by omega, fun p hp => flags_of_mem_trimBefore hp,
        covered_trimBefore (Nat.le_of_lt hse) hstr, ?_⟩
      rw [show (slotOf (bk, before)).backend = before.backend from rfl]
      by_cases h2 : before.end ≤ «end»
      · rw [unmapBefore_of_trim hs hb h1 h2, show min «end» before.end - start = before.end - start by omega]
        rcases MappingBackend.unmap before.backend start (before.end - start) pt with ⟨_ | _, pt'⟩
        · exact ⟨_, rfl, hs⟩
        · refine ⟨_, rfl, hs.insert ?_ ?_ (hs.disjoint_of_sub hm ?_ ?_), fun q => by
            rw [mem_layout_insert_of_mem he₀, trimBefore, if_pos hstr,
              if_neg (show ¬«end» < (slotOf (bk, before)).range.end from Nat.not_lt.2 h2), List.mem_singleton, hP1]⟩ <;>
          simp only [MemoryArea.withRange_start, MemoryArea.withRange_end, MemoryArea.withRange_vaRange,
            AddrRange.ofBounds_start, AddrRange.ofBounds_end] <;> omega
      · obtain ⟨L, R, hLR, heq⟩ : ∃ L R, _ ∧ unmapBefore start «end» s pt = _ :=
          unmapBefore_of_split hs hb hse (Nat.lt_of_not_le h2)
        obtain ⟨-, -, hL1, hL2, -⟩ := MemoryArea.split_eq_some hLR
        rw [heq, show min «end» before.end - start = «end» - start by omega]
        rcases MappingBackend.unmap before.backend start («end» - start) pt with ⟨_ | _, pt'⟩
        · exact ⟨_, rfl, hs.insert (by rw [hL1]; exact hk) (by omega)
            (hs.disjoint_of_sub hm (show before.start ≤ L.start by omega) (show L.end ≤ before.end by omega))⟩
        · exact ⟨_, rfl, unmapBefore_split_layout hs hm hbk hse (Nat.lt_of_not_le h2) hLR⟩
    · refine .inl ⟨unmapBefore_of_le hb (by omega), fun q hq => ?_⟩
      by_cases hq₀ : q = slotOf (bk, before)
      · exact if_neg fun h => by subst hq₀; exact h1 h.2
      · exact hother q hq hq₀

/-! ## The third phase -/

variable {ak : Nat} {after : MemoryArea B F FR}

theorem unmapAfter_of_none (h : s.areas.firstAtLeast start = none) : unmapAfter start «end» s pt = .ok (s, pt) := by
  simp only [unmapAfter, h]

theorem unmapAfter_of_le (h : s.areas.firstAtLeast start = some (ak, after)) (hle : «end» ≤ ak) :
    unmapAfter start «end» s pt = .ok (s, pt) := by
  simp only [unmapAfter, h, if_neg (Nat.not_lt.2 hle)]

/-- The third phase panics on an area keyed in the hole that ends in it: `sub_addr` underflows, or `shrink_left` is
asked for an empty area. -/
theorem unmapAfter_of_end_le (hs : Inv s)
    (h : s.areas.firstAtLeast start = some (ak, after)) (h1 : ak < «end») (h2 : after.end ≤ «end») :
    unmapAfter start «end» s pt = .panic := by
  have hm := (BTreeMap.firstAtLeast_eq_some h).1
  simp only [unmapAfter, h, if_pos h1, BTreeMap.get?_eq_some.2 hm]
  rcases Nat.lt_or_eq_of_le h2 with hlt | rfl
  · simp only [subAddr, if_neg (Nat.not_le.2 hlt)]
  · simp only [subAddr, le_refl, if_true, Nat.sub_self,
      MemoryArea.shrinkLeft, after.size_eq (Nat.le_of_lt (hs.nonempty _ hm))]
    simp

/-- **The area keyed first from `start` starts inside the hole and reaches past `end`**: it is taken out, shrunk to
`[end, after.end)` and put back at `end`. -/
theorem unmapAfter_of_trim (hs : Inv s) (h : s.areas.firstAtLeast start = some (ak, after)) (h1 : ak < «end»)
    (h2 : «end» < after.end) :
    unmapAfter start «end» s pt =
      match MappingBackend.unmap after.backend after.start («end» - after.start) pt with
      | (false, pt) => .err .BadState (⟨s.areas.remove ak⟩, pt)
      | (true, pt) => .ok (⟨(s.areas.remove ak).insert «end» (after.withRange (.ofBounds «end» after.end))⟩, pt) := by
  have hm := (BTreeMap.firstAtLeast_eq_some h).1
  have hk : ak = after.start := hs.key_eq _ hm
  simp only [unmapAfter, h, if_pos h1, BTreeMap.get?_eq_some.2 hm, subAddr_of_le (Nat.le_of_lt h2)]
  rw [after.shrinkLeft_eq pt (by omega) (by omega) (by omega),
    show MappingBackend.unmap after.backend after.start (after.end - after.start - (after.end - «end»)) pt =
      MappingBackend.unmap after.backend after.start («end» - after.start) pt by congr 1; omega]
  cases MappingBackend.unmap after.backend after.start («end» - after.start) pt with
  | mk ok pt' =>
    cases ok
    · rfl
    · simp only
      split
      · congr 4
        exact congrArg after.withRange (AddrRange.eq_ofBounds (show after.end - (after.end - «end») = «end» by omega) rfl)
      · rename_i hne
        exact absurd (show after.end - (after.end - «end») = «end» by omega) hne

/-- **After the trim of the area keyed first in the hole**, the set with that area taken out and put back at `end`
as `[end, after.end)` keeps `Inv`, and in its layout `trimAfter`'s piece takes the place of the area's slot. -/
theorem unmapAfter_trim_layout (hs : Inv s) (hm : (ak, after) ∈ s.areas.toList) (hak : start ≤ ak) (h1 : ak < «end»)
    (h2 : «end» < after.end) :
    Inv (⟨(s.areas.remove ak).insert «end» (after.withRange (.ofBounds «end» after.end))⟩ : MemorySet B F FR) ∧
      ∀ q, q ∈ layout ⟨(s.areas.remove ak).insert «end» (after.withRange (.ofBounds «end» after.end))⟩ ↔
        q ∈ trimAfter start «end» (slotOf (ak, after)) ∨ (q ∈ s.layout ∧ q ≠ slotOf (ak, after)) := by
  have hk : ak = after.start := hs.key_eq _ hm
  have hen := after.end_le
  have he₀ : slotOf (ak, after) ∈ s.layout := mem_layout.2 ⟨_, hm, rfl⟩
  have hstr : start ≤ (slotOf (ak, after)).range.start ∧ (slotOf (ak, after)).range.start < «end» ∧
      «end» < (slotOf (ak, after)).range.end := ⟨hk ▸ hak, hk ▸ h1, h2⟩
  have hfresh : ∀ q ∈ layout ⟨s.areas.remove ak⟩, q.key ≠ «end» := by
    intro q hq hqk
    have hq := (mem_layout_remove.1 hq).1
    have h3 : after.end ≤ q.range.start := hs.slot_end_le he₀ hq (by simp only [slotOf_key]; omega)
    have h4 := (hs.slot hq).1
    omega
  refine ⟨(hs.remove ak).insert ?_ ?_ fun e he _ => ?_, fun q => ?_⟩
  · simp only [MemoryArea.withRange_start, AddrRange.ofBounds_start]
    omega
  · simp only [MemoryArea.withRange_start, MemoryArea.withRange_end, AddrRange.ofBounds_start,
      AddrRange.ofBounds_end]
    omega
  · obtain ⟨he, hka⟩ := BTreeMap.mem_remove.1 he
    refine hs.disjoint_of_sub hm ?_ ?_ e he hka <;>
      simp only [MemoryArea.withRange_vaRange, AddrRange.ofBounds_start, AddrRange.ofBounds_end] <;> omega
  · rw [mem_layout_insert_of_fresh hfresh, mem_layout_remove_of_mem he₀, trimAfter, if_pos hstr,
      List.mem_singleton]
    rfl

/-- **The third phase is a `PhaseStep` of `trimAfter`**, on a set where no slot keyed inside the hole ends inside it:
it cuts the slot keyed first from `start`, if that slot starts before `end`. -/
theorem unmapAfter_step (hs : Inv s)
    (hnc : ∀ q ∈ s.layout, start ≤ q.range.start → q.range.start < «end» → «end» < q.range.end) :
    PhaseStep (trimAfter start «end») s pt (unmapAfter start «end» s pt) := by
  cases hf : s.areas.firstAtLeast start with
  | none =>
    refine .inl ⟨unmapAfter_of_none hf, fun q hq => if_neg fun h => ?_⟩
    obtain ⟨e, he, rfl⟩ := mem_layout.1 hq
    have := BTreeMap.firstAtLeast_eq_none.1 hf e he
    have := hs.key_eq e he
    simp only [slotOf_range, MemoryArea.start] at h this
    omega
  | some b =>
    obtain ⟨ak, after⟩ := b
    obtain ⟨hm, hak, hmin⟩ := BTreeMap.firstAtLeast_eq_some hf
    have hk : ak = after.start := hs.key_eq _ hm
    have hne : after.start < after.end := hs.nonempty _ hm
    have hen := after.end_le
    have he₀ : slotOf (ak, after) ∈ s.layout := mem_layout.2 ⟨_, hm, rfl⟩
    simp only at hak hmin
    have hend : ak < «end» → «end» < after.end := fun h => hnc _ he₀ (hk ▸ hak) (hk ▸ h)
    have hother : ∀ q ∈ s.layout, q ≠ slotOf (ak, after) → trimAfter start «end» q = [q] := by
      intro q hq hq₀
      refine if_neg fun h => ?_
      obtain ⟨e, he, rfl⟩ := mem_layout.1 hq
      have hke := hs.key_eq e he
      simp only [slotOf_range, MemoryArea.start] at h hke
      have hlt : ak < e.1 := Nat.lt_of_le_of_ne (hmin e he (by omega)) fun h' => hq₀ (by rw [BTreeMap.key_inj he hm h'.symm])
      have := hs.end_le_start hm he hlt
      simp only [MemoryArea.start, MemoryArea.end] at this hk hend
      omega
    by_cases h1 : ak < «end»
    · have h2 := hend h1
      have hstr : start ≤ (slotOf (ak, after)).range.start ∧ (slotOf (ak, after)).range.start < «end» ∧
          «end» < (slotOf (ak, after)).range.end := ⟨hk ▸ hak, hk ▸ h1, h2⟩
      refine .inr ⟨_, he₀, hother, after.start, «end» - after.start, Nat.le_refl _,
        show after.start + («end» - after.start) ≤ after.end by omega, fun p hp => flags_of_mem_trimAfter hp,
        covered_trimAfter hstr, ?_⟩
      rw [show (slotOf (ak, after)).backend = after.backend from rfl, unmapAfter_of_trim hs hf h1 h2]
      rcases MappingBackend.unmap after.backend after.start («end» - after.start) pt with ⟨_ | _, pt'⟩
      · exact ⟨_, rfl, hs.remove ak⟩
      · exact ⟨_, rfl, unmapAfter_trim_layout hs hm hak h1 h2⟩
    · refine .inl ⟨unmapAfter_of_le hf (by omega), fun q hq => ?_⟩
      by_cases hq₀ : q = slotOf (ak, after)
      · exact if_neg fun h => by subst hq₀; exact h1 (hk ▸ h.2.1)
      · exact hother q hq hq₀

end MemorySet

end Axmm
