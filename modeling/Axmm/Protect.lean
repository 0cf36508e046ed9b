import Axmm.Layout
import Mathlib.Data.List.Nodup
/-!
# Protect — `protect` re-flags the part of each area inside the range

`protectPieces start end u` is what `protect` makes of a slot: the slot itself when `update_flags` leaves its flags
or it lies off `[start, end)`, else its part below `start` and its part from `end` on with its flags, and its part
inside the range with the new flags (`protectPieces_inside`, `protectPieces_across` and the two overhangs);
`protectCall` is the backend call it asks for.  The loop body is followed through its branches once, for one area
(`protectLoop_cons`): what it leaves and what it stages in `to_insert` are, up to order, that area's pieces.  An
induction over the loop puts the areas together (`protectLoop_perm`).  The staged keys are fresh, so `extend` adds
them, and `protect` of a non-empty range leaves the layout `protectPieces` makes, having called the backend area by
area in key order (`protect_layout`).

`protect_area` drops the backend's answer, so no failed `backend.protect` reaches the caller
(`protect_ok_though_backend_rejects`); and an empty range strictly inside an area the update changes takes the
three-way branch, whose second `split` at the same address fails its `unwrap` (`protect_empty_range_panics`).
-/
namespace Axmm

namespace MemorySet

variable {B F PT FR : Type}

/-! ## The specification -/

/-- **What `protect` makes of a slot**: the slot, when `update_flags` leaves its flags or it lies off the range;
else its part below `start` and its part from `end` on, with its flags, and its part inside, with the new flags, each
non-empty one keyed by its own start. -/
def protectPieces (start «end» : Nat) (u : F → Option F) (q : Slot B F) : List (Slot B F) :=
  match u q.flags with
  | none => [q]
  | some g =>
    if q.range.end ≤ start ∨ «end» ≤ q.range.start then [q] else
    (if q.range.start < start then [⟨q.range.start, .ofBounds q.range.start start, q.flags, q.backend⟩] else []) ++
      ⟨max q.range.start start, .ofBounds (max q.range.start start) (min q.range.end «end»), g, q.backend⟩ ::
      (if «end» < q.range.end then [⟨«end», .ofBounds «end» q.range.end, q.flags, q.backend⟩] else [])

section Pieces

variable {start «end» : Nat} {u : F → Option F} {q : Slot B F} {g : F}

theorem protectPieces_of_none (h : u q.flags = none) : protectPieces start «end» u q = [q] := by
  simp only [protectPieces, h]

theorem protectPieces_of_off (h : q.range.end ≤ start ∨ «end» ≤ q.range.start) :
    protectPieces start «end» u q = [q] := by
  unfold protectPieces
  split <;> simp only [if_pos h]

theorem protectPieces_inside (hu : u q.flags = some g) (h1 : start ≤ q.range.start) (h2 : q.range.end ≤ «end»)
    (hq : q.range.start < q.range.end) :
    protectPieces start «end» u q = [⟨q.range.start, .ofBounds q.range.start q.range.end, g, q.backend⟩] := by
  simp only [protectPieces, hu, if_neg (show ¬(q.range.end ≤ start ∨ «end» ≤ q.range.start) by omega),
    if_neg (show ¬q.range.start < start by omega), if_neg (show ¬«end» < q.range.end by omega), Nat.max_eq_left h1,
    Nat.min_eq_left h2, List.nil_append]

theorem protectPieces_across (hu : u q.flags = some g) (h1 : q.range.start < start) (h2 : «end» < q.range.end)
    (hse : start < «end») :
    protectPieces start «end» u q = [⟨q.range.start, .ofBounds q.range.start start, q.flags, q.backend⟩,
      ⟨start, .ofBounds start «end», g, q.backend⟩, ⟨«end», .ofBounds «end» q.range.end, q.flags, q.backend⟩] := by
  simp only [protectPieces, hu, if_neg (show ¬(q.range.end ≤ start ∨ «end» ≤ q.range.start) by omega), if_pos h1,
    if_pos h2, Nat.max_eq_right (Nat.le_of_lt h1), Nat.min_eq_right (Nat.le_of_lt h2), List.singleton_append]

theorem protectPieces_overhangs_right (hu : u q.flags = some g) (h1 : start ≤ q.range.start) (h2 : q.range.start < «end»)
    (h3 : «end» < q.range.end) :
    protectPieces start «end» u q = [⟨q.range.start, .ofBounds q.range.start «end», g, q.backend⟩,
      ⟨«end», .ofBounds «end» q.range.end, q.flags, q.backend⟩] := by
  simp only [protectPieces, hu, if_neg (show ¬(q.range.end ≤ start ∨ «end» ≤ q.range.start) by omega),
    if_neg (show ¬q.range.start < start by omega), if_pos h3, Nat.max_eq_left h1, Nat.min_eq_right (Nat.le_of_lt h3),
    List.nil_append]

theorem protectPieces_overhangs_left (hu : u q.flags = some g) (h1 : q.range.start < start) (h2 : start < q.range.end)
    (h3 : q.range.end ≤ «end») :
    protectPieces start «end» u q = [⟨q.range.start, .ofBounds q.range.start start, q.flags, q.backend⟩,
      ⟨start, .ofBounds start q.range.end, g, q.backend⟩] := by
  simp only [protectPieces, hu, if_neg (show ¬(q.range.end ≤ start ∨ «end» ≤ q.range.start) by omega), if_pos h1,
    if_neg (show ¬«end» < q.range.end by omega), Nat.max_eq_right (Nat.le_of_lt h1), Nat.min_eq_left h3, List.singleton_append]

/-- The pieces of a slot keyed by its start are apart, inside it, keyed by their starts, and non-empty. -/
theorem protectPieces_apart (hse : start < «end») (hk : q.key = q.range.start) (hq : q.range.start < q.range.end) :
    (protectPieces start «end» u q).Pairwise (fun a b => a.range.end ≤ b.range.start) ∧
      ∀ p ∈ protectPieces start «end» u q, p.key = p.range.start ∧ p.range.start < p.range.end ∧
        q.range.start ≤ p.range.start ∧ p.range.end ≤ q.range.end := by
  have := q.range.end_le
  unfold protectPieces
  split
  · simp only [List.pairwise_singleton, List.mem_singleton, forall_eq, true_and]
    omega
  · split_ifs <;> simp (disch := omega) only [List.singleton_append, List.nil_append, List.pairwise_cons,
      List.mem_cons, List.mem_singleton, List.not_mem_nil, or_false, false_imp_iff, implies_true, forall_eq_or_imp,
      forall_eq, List.Pairwise.nil, and_true, true_and, AddrRange.ofBounds_start_of_le, AddrRange.ofBounds_end_of_le] <;>
      omega

theorem contains_protectPieces (a : Nat) :
    (∃ p ∈ protectPieces start «end» u q, p.range.contains a = true) ↔ q.range.contains a = true := by
  have := q.range.start_le
  have := q.range.end_le
  unfold protectPieces
  split
  · simp only [List.mem_singleton, exists_eq_left]
  · split_ifs <;> simp (disch := omega) only [List.singleton_append, List.nil_append, List.mem_cons,
      List.mem_singleton, List.not_mem_nil, false_and, exists_false, or_false, exists_eq_or_imp, exists_eq_left,
      AddrRange.contains_iff, AddrRange.ofBounds_start_of_le, AddrRange.ofBounds_end_of_le] <;> omega

theorem flags_of_mem_protectPieces {p : Slot B F} {a : Nat} (hp : p ∈ protectPieces start «end» u q)
    (ha : p.range.contains a = true) :
    p.flags = if start ≤ a ∧ a < «end» then (u q.flags).getD q.flags else q.flags := by
  have := q.range.start_le
  have := q.range.end_le
  unfold protectPieces at hp
  split at hp
  · rename_i hu
    rw [List.mem_singleton] at hp
    subst hp
    simp only [hu, Option.getD_none, ite_self]
  · rename_i g hu
    rw [hu, Option.getD_some]
    split_ifs at hp <;> simp only [List.mem_cons, List.mem_singleton, List.not_mem_nil, or_false, List.mem_append,
      List.nil_append, List.singleton_append] at hp <;> rcases hp with rfl | rfl | rfl <;>
      simp (disch := omega) only [AddrRange.contains_iff, AddrRange.ofBounds_start_of_le,
        AddrRange.ofBounds_end_of_le] at ha <;> split_ifs <;> first | rfl | omega

/-- **A piece covers an address with the new flags inside the range, with the old ones outside.** -/
theorem covered_protectPieces (a : Nat) (f : F) :
    (∃ p ∈ protectPieces start «end» u q, p.range.contains a = true ∧ p.flags = f) ↔
      q.range.contains a = true ∧ (if start ≤ a ∧ a < «end» then (u q.flags).getD q.flags else q.flags) = f := by
  constructor
  · rintro ⟨p, hp, hc, rfl⟩
    exact ⟨(contains_protectPieces a).1 ⟨p, hp, hc⟩, (flags_of_mem_protectPieces hp hc).symm⟩
  · rintro ⟨hc, rfl⟩
    obtain ⟨p, hp, hc'⟩ := (contains_protectPieces a).2 hc
    exact ⟨p, hp, hc', flags_of_mem_protectPieces hp hc'⟩

/-- **After `protect`, an address is covered as before, with the flags `update_flags` gives inside the range.** -/
theorem covers_flatMap_protectPieces (L : List (Slot B F)) (a : Nat) (g : F) :
    Covers (L.flatMap (protectPieces start «end» u)) a g ↔
      ∃ f, Covers L a f ∧ (if start ≤ a ∧ a < «end» then (u f).getD f else f) = g := by
  simp only [Covers, List.mem_flatMap]
  constructor
  · rintro ⟨p, ⟨q, hq, hp⟩, hpa⟩
    obtain ⟨h1, h2⟩ := (covered_protectPieces a g).1 ⟨p, hp, hpa⟩
    exact ⟨q.flags, ⟨q, hq, h1, rfl⟩, h2⟩
  · rintro ⟨f, ⟨q, hq, h1, rfl⟩, h2⟩
    obtain ⟨p, hp, hpa⟩ := (covered_protectPieces a g).2 ⟨h1, h2⟩
    exact ⟨p, ⟨q, hq, hp⟩, hpa⟩

end Pieces

theorem perm_step {α : Type} {x : α} {L S T R P : List α} (h : (L ++ T).Perm R) (hP : (x :: S).Perm P) :
    (x :: L ++ (S ++ T)).Perm (P ++ R) :=
  ((List.perm_append_comm_assoc L S T).cons x).trans (hP.append h)

theorem perm_append_step {α : Type} {X L S T R P : List α} (h : (L ++ T).Perm R) (hP : (X ++ S).Perm P) :
    (X ++ (L ++ (S ++ T))).Perm (P ++ R) :=
  ((List.perm_append_comm_assoc L S T).append_left X).trans (by rw [← List.append_assoc]; exact hP.append h)

/-! ## The loop -/

variable [MappingBackend B F PT FR] {start «end» : Nat} {u : F → Option F}

/-- **What `protect` asks of the backend for one slot**: its part inside `[start, end)` protected with the flags
`update_flags` gives, unless it gives none or the part is empty. -/
def protectCall (start «end» : Nat) (u : F → Option F) (pt : PT) (q : Slot B F) : PT :=
  match u q.flags with
  | none => pt
  | some g =>
    if q.range.end ≤ start ∨ «end» ≤ q.range.start then pt
    else (MappingBackend.protect q.backend (max q.range.start start) (min q.range.end «end» - max q.range.start start) g
      pt).2

section Calls

variable {q : Slot B F} {pt : PT}

theorem protectCall_of_none (h : u q.flags = none) : protectCall start «end» u pt q = pt := by
  simp only [protectCall, h]

theorem protectCall_of_off (h : q.range.end ≤ start ∨ «end» ≤ q.range.start) : protectCall start «end» u pt q = pt := by
  unfold protectCall
  split
  · rfl
  · rw [if_pos h]

theorem protectCall_of_some {g : F} (hu : u q.flags = some g) (hon : ¬(q.range.end ≤ start ∨ «end» ≤ q.range.start))
    {lo n : Nat} (hlo : max q.range.start start = lo) (hn : min q.range.end «end» - lo = n) :
    protectCall start «end» u pt q = (MappingBackend.protect q.backend lo n g pt).2 := by
  simp only [protectCall, hu, if_neg hon, hlo, hn]

theorem foldl_protectCall_of_off : ∀ (L : List (Slot B F)) (pt : PT),
    (∀ q ∈ L, q.range.end ≤ start ∨ «end» ≤ q.range.start) → L.foldl (protectCall start «end» u) pt = pt
  | [], _, _ => rfl
  | q :: L, pt, h => by
    rw [List.foldl_cons, protectCall_of_off (h q (List.mem_cons_self _ _)),
      foldl_protectCall_of_off L pt fun q hq => h q (.tail _ hq)]

end Calls

/-- **What the loop body makes of one area** keyed by its start, unless it breaks there: it leaves the area as `a'`,
stages `S`, together the area's `protectPieces` and its frame table parted, and hands the rest of the loop the page
table of `protectCall`. -/
theorem protectLoop_cons (hse : start < «end») {k : Nat} {a : MemoryArea B F FR} (hk : k = a.start)
    (hne : a.start < a.end) (rest : List (Nat × MemoryArea B F FR)) (pt : PT) (hgo : u a.flags = none ∨ k < «end») :
    ∃ (a' : MemoryArea B F FR) (S : List (Nat × MemoryArea B F FR)) (pt' : PT),
      protectLoop start «end» u ((k, a) :: rest) pt =
        (protectLoop start «end» u rest pt').map (fun (l, toInsert, pt) => ((k, a') :: l, S ++ toInsert, pt)) ∧
      (slotOf (k, a') :: S.map slotOf).Perm (protectPieces start «end» u (slotOf (k, a))) ∧
      protectCall start «end» u pt (slotOf (k, a)) = pt' ∧ a.FramesParted ((k, a') :: S) ∧
      (u a.flags = none ∨ a.end ≤ start → a' = a) := by
  have hst := a.start_le
  have hen := a.end_le
  rw [protectLoop]
  cases hu : u a.flags with
  | none => exact ⟨a, [], pt, rfl, by rw [protectPieces_of_none hu]; exact .refl _, protectCall_of_none hu,
    MemoryArea.framesParted_single k rfl rfl, fun _ => rfl⟩
  | some g =>
    have hb : k < «end» := hgo.resolve_left fun h => Option.some_ne_none g (hu.symm.trans h)
    dsimp only
    rw [if_neg (Nat.not_le.2 hb)]
    by_cases h1 : a.end ≤ start
    · rw [if_pos h1]
      exact ⟨a, [], pt, rfl, by rw [protectPieces_of_off (Or.inl h1)]; exact .refl _, protectCall_of_off (.inl h1),
        MemoryArea.framesParted_single k rfl rfl, fun _ => rfl⟩
    rw [if_neg h1]
    -- from here on the area meets the range and is re-flagged
    have hcut : ¬((some g : Option F) = none ∨ a.end ≤ start) := fun h => h.elim Option.noConfusion h1
    have hon : ¬((slotOf (k, a)).range.end ≤ start ∨ «end» ≤ (slotOf (k, a)).range.start) :=
      show ¬(a.end ≤ start ∨ «end» ≤ a.start) by omega
    by_cases h2 : k ≥ start ∧ a.end ≤ «end»
    · -- inside the range: re-flagged whole
      rw [if_pos h2, a.protectArea_eq g pt (Nat.le_of_lt hne)]
      refine ⟨_, [], _, rfl, ?_, protectCall_of_some hu hon (show max a.start start = a.start by omega)
        (show min a.end «end» - a.start = a.end - a.start by omega), MemoryArea.framesParted_single k rfl rfl,
        fun h => absurd h hcut⟩
      rw [protectPieces_inside hu (show start ≤ a.start by omega) h2.2 hne, slotOf_eq (a := a.setFlags g) hk rfl rfl]
      exact .refl _
    rw [if_neg h2]
    by_cases h3 : k < start ∧ a.end > «end»
    · -- across the range: split at `end`, then at `start`, and the middle re-flagged
      rw [if_pos h3]
      obtain ⟨A, R, hAR⟩ := a.split_isSome (show a.start < «end» by omega) h3.2
      obtain ⟨-, -, hA1, hA2, hR1, hR2, hAf, hRf, hAb, hRb, -, -⟩ := MemoryArea.split_eq_some hAR
      obtain ⟨L, M, hLM⟩ := A.split_isSome (show A.start < start by omega) (show start < A.end by omega)
      obtain ⟨-, -, hL1, hL2, hM1, hM2, hLf, hMf, hLb, hMb, -, -⟩ := MemoryArea.split_eq_some hLM
      rw [hAR]
      dsimp only
      rw [hLM]
      dsimp only
      rw [M.protectArea_eq g pt (by omega)]
      refine ⟨L, [(R.start, R), (M.start, M.setFlags g)], _, rfl, ?_, ?_, ⟨?_, fun ha e he => ?_⟩,
        fun h => absurd h hcut⟩
      · rw [protectPieces_across hu (show a.start < start by omega) h3.2 hse, List.map_cons, List.map_cons,
          List.map_nil, slotOf_eq hk (hL1.trans hA1) hL2, slotOf_eq hR1 hR1 hR2,
          slotOf_eq (a := M.setFlags g) hM1 hM1 (hM2.trans hA2)]
        simp only [MemoryArea.setFlags_flags, MemoryArea.setFlags_backend, hLf, hLb, hAf, hAb, hRf, hRb, hMb,
          slotOf_range, slotOf_flags, slotOf_backend]
        exact .cons _ (.swap _ _ _)
      · rw [protectCall_of_some hu hon (show max a.start start = M.start by omega)
          (show min a.end «end» - M.start = M.end - M.start by omega), hMb, hAb]
        rfl
      · -- `L ++ M` part `A`, and `A ++ R` part `a`
        simp only [List.flatMap_cons, List.flatMap_nil, List.append_nil, MemoryArea.setFlags_frames]
        exact ((List.perm_append_comm.append_left _).trans (by
          rw [← List.append_assoc]; exact (MemoryArea.split_frames_perm hLM).append_right _)).trans
          (MemoryArea.split_frames_perm hAR)
      · obtain ⟨hA, hR⟩ := ha.split hAR
        obtain ⟨hL, hM⟩ := hA.split hLM
        simp only [List.mem_cons, List.mem_singleton, List.not_mem_nil, or_false] at he
        rcases he with rfl | rfl | rfl
        exacts [hL, hR, hM]
    rw [if_neg h3]
    by_cases h4 : a.end > «end»
    · -- over the range's end: split at `end`, the left part re-flagged
      rw [if_pos h4]
      obtain ⟨A, R, hAR⟩ := a.split_isSome (show a.start < «end» by omega) h4
      obtain ⟨-, -, hA1, hA2, hR1, hR2, hAf, hRf, hAb, hRb, -, -⟩ := MemoryArea.split_eq_some hAR
      rw [hAR]
      dsimp only
      rw [A.protectArea_eq g pt (by omega)]
      refine ⟨_, [(R.start, R)], _, rfl, ?_, ?_, MemoryArea.framesParted_split hAR k R.start ⟨rfl, rfl⟩ ⟨rfl, rfl⟩,
        fun h => absurd h hcut⟩
      · rw [protectPieces_overhangs_right hu (show start ≤ a.start by omega) (show a.start < «end» by omega) h4,
          List.map_cons, List.map_nil, slotOf_eq (a := A.setFlags g) hk hA1 hA2, slotOf_eq hR1 hR1 hR2]
        simp only [MemoryArea.setFlags_flags, MemoryArea.setFlags_backend, hAb, hRf, hRb, slotOf_range, slotOf_flags,
          slotOf_backend]
        exact .refl _
      · rw [protectCall_of_some hu hon (show max a.start start = A.start by omega)
          (show min a.end «end» - A.start = A.end - A.start by omega), hAb]
        rfl
    -- over the range's start: split at `start`, the right part re-flagged
    rw [if_neg h4]
    obtain ⟨L, R, hLR⟩ := a.split_isSome (show a.start < start by omega) (show start < a.end by omega)
    obtain ⟨-, -, hL1, hL2, hR1, hR2, hLf, hRf, hLb, hRb, -, -⟩ := MemoryArea.split_eq_some hLR
    rw [hLR]
    dsimp only
    rw [R.protectArea_eq g pt (by omega)]
    refine ⟨L, [(R.start, R.setFlags g)], _, rfl, ?_, ?_, MemoryArea.framesParted_split hLR k R.start ⟨rfl, rfl⟩ ⟨rfl, rfl⟩,
      fun h => absurd h hcut⟩
    · rw [protectPieces_overhangs_left hu (show a.start < start by omega) (show start < a.end by omega)
        (show a.end ≤ «end» by omega), List.map_cons, List.map_nil, slotOf_eq hk hL1 hL2,
        slotOf_eq (a := R.setFlags g) hR1 hR1 hR2]
      simp only [MemoryArea.setFlags_flags, MemoryArea.setFlags_backend, hLf, hLb, hRb, slotOf_range, slotOf_flags,
        slotOf_backend]
      exact .refl _
    · rw [protectCall_of_some hu hon (show max a.start start = R.start by omega)
        (show min a.end «end» - R.start = R.end - R.start by omega), hRb]
      rfl

/-- **The loop leaves, up to order, the pieces of the areas it is given**, and calls the backend as `protectCall`
says, area by area in key order.  On areas keyed by their starts, non-empty and apart, and a non-empty range, it
returns `Ok`; the areas it leaves and those it stages in `to_insert` are the `protectPieces` of its areas, and their
frame tables part those of its areas. -/
theorem protectLoop_perm (hse : start < «end») : ∀ (l : List (Nat × MemoryArea B F FR)) (pt : PT),
    l.Pairwise (fun a b => a.2.end ≤ b.2.start) → (∀ e ∈ l, e.1 = e.2.start ∧ e.2.start < e.2.end) →
    ∃ l' t pt', protectLoop start «end» u l pt = .ok (l', t, pt') ∧
      (l'.map slotOf ++ t.map slotOf).Perm ((l.map slotOf).flatMap (protectPieces start «end» u)) ∧
      pt' = (l.map slotOf).foldl (protectCall start «end» u) pt ∧
      ((l' ++ t).flatMap fun e => e.2.frames.toList).Perm (l.flatMap fun e => e.2.frames.toList) ∧
      ((∀ e ∈ l, e.2.FramesInside) → ∀ e ∈ l' ++ t, e.2.FramesInside) ∧
      ∀ e ∈ l, u e.2.flags = none ∨ e.2.end ≤ start ∨ «end» ≤ e.2.start → e ∈ l'
  | [], pt, _, _ => ⟨[], [], pt, rfl, .nil, rfl, .nil, fun h => h, fun _ h => absurd h (List.not_mem_nil _)⟩
  | (k, a) :: rest, pt, hl, he => by
    obtain ⟨hk, hne⟩ : k = a.start ∧ a.start < a.end := he _ (List.mem_cons_self _ _)
    have hrest := List.pairwise_cons.1 hl
    rw [List.map_cons, List.flatMap_cons, List.foldl_cons]
    by_cases hgo : u a.flags = none ∨ k < «end»
    · obtain ⟨a', S, pt₁, heq, hP, hpt, ⟨hF, hFI⟩, hkeep⟩ := protectLoop_cons hse hk hne rest pt hgo
      obtain ⟨l', t, pt', h, hperm, hpt', hF', hFI', hkeep'⟩ :=
        protectLoop_perm hse rest pt₁ hrest.2 fun e he' => he e (.tail _ he')
      refine ⟨_, _, pt', by rw [heq, h]; rfl, ?_, by rw [hpt]; exact hpt', ?_, fun hin e he' => ?_, fun e he' hc => ?_⟩
      · simp only [List.map_cons, List.map_append]
        exact perm_step hperm hP
      · simp only [List.flatMap_cons, List.flatMap_append, List.cons_append] at hF hF' ⊢
        exact perm_append_step hF' hF
      · -- an area of the pieces of the head, or of the rest
        have hin' := fun e (he : e ∈ rest) => hin e (.tail _ he)
        simp only [List.cons_append, List.mem_cons, List.mem_append] at he'
        rcases he' with rfl | he' | he' | he'
        · exact hFI (hin _ (List.mem_cons_self _ _)) _ (List.mem_cons_self _ _)
        · exact hFI' hin' e (List.mem_append_left _ he')
        · exact hFI (hin _ (List.mem_cons_self _ _)) e (.tail _ he')
        · exact hFI' hin' e (List.mem_append_right _ he')
      · -- the head, if kept, is left as it is, and so is each area of the rest kept
        rcases List.mem_cons.1 he' with rfl | he'
        · rw [hkeep (hc.elim .inl fun hc => hc.elim .inr fun hc => hgo.imp id fun h => by simp only at hc; omega)]
          exact List.mem_cons_self _ _
        · exact .tail _ (hkeep' e he' hc)
    -- `break`: the head and every area after it lie past the range
    obtain ⟨g, hu⟩ := Option.ne_none_iff_exists'.1 fun h => hgo (.inl h)
    have hb : «end» ≤ k := Nat.not_lt.1 fun h => hgo (.inr h)
    have hoff₀ : (slotOf (k, a)).range.end ≤ start ∨ «end» ≤ (slotOf (k, a)).range.start :=
      .inr (show «end» ≤ a.start by omega)
    have hoff : ∀ q ∈ rest.map slotOf, q.range.end ≤ start ∨ «end» ≤ q.range.start := by
      intro q hq
      obtain ⟨e, he', rfl⟩ := List.mem_map.1 hq
      have := hrest.1 e he'
      have := (he e (.tail _ he')).1
      exact .inr (show «end» ≤ e.2.vaRange.start by simp only [MemoryArea.start] at *; omega)
    refine ⟨_, [], pt, by simp only [protectLoop, hu]; rw [if_pos hb], ?_,
      by rw [protectCall_of_off hoff₀, foldl_protectCall_of_off _ _ hoff], by rw [List.append_nil],
      fun hin e he' => hin e (List.append_nil ((k, a) :: rest) ▸ he'), fun _ he' _ => he'⟩
    rw [protectPieces_of_off hoff₀, flatMap_eq_self fun q hq => protectPieces_of_off (hoff q hq)]
    simp only [List.map_cons, List.map_nil, List.append_nil, List.singleton_append, List.Perm.refl]

/-- On an empty range the loop panics at the first area it would cut, and otherwise leaves every area and stages
none. -/
theorem protectLoop_empty (start : Nat) : ∀ (l : List (Nat × MemoryArea B F FR)) (pt : PT),
    protectLoop start start u l pt = .panic ∨ protectLoop start start u l pt = .ok (l, [], pt)
  | [], _ => .inr rfl
  | (k, a) :: rest, pt => by
    have hnext : (protectLoop start start u rest pt).map (fun (l, toInsert, pt) => ((k, a) :: l, [] ++ toInsert, pt)) =
        .panic ∨ (protectLoop start start u rest pt).map (fun (l, toInsert, pt) => ((k, a) :: l, [] ++ toInsert, pt)) =
        .ok ((k, a) :: rest, [], pt) := by
      rcases protectLoop_empty start rest pt with h | h <;> rw [h]
      · exact .inl rfl
      · exact .inr rfl
    rw [protectLoop]
    cases hu : u a.flags with
    | none => exact hnext
    | some g =>
      dsimp only
      by_cases hb : k ≥ start
      · rw [if_pos hb]; exact .inr rfl
      rw [if_neg hb]
      by_cases h1 : a.end ≤ start
      · rw [if_pos h1]; exact hnext
      rw [if_neg h1, if_neg (by omega), if_pos ⟨Nat.lt_of_not_le hb, Nat.lt_of_not_le h1⟩]
      -- the part below `end` has nothing to cut at `start`
      left
      rcases ha : a.split start with _ | ⟨A, R⟩
      · rfl
      · obtain ⟨-, -, -, hA2, -⟩ := MemoryArea.split_eq_some ha
        dsimp only
        rw [A.split_eq_none (by omega)]

/-! ## `protect` -/

variable {s : MemorySet B F FR} {pt : PT} {size : Nat}

/-- **`protect` of a non-empty range leaves the layout `protectPieces` makes**, whatever the backend answers, and
keeps `Inv`; it calls the backend as `protectCall` says, area by area in key order.  Its areas hold the frames the
set held, inside them if they were. -/
theorem protect_layout (hs : Inv s) (hsz : 0 < size) (hr : start + size ≤ usizeMax) :
    ∃ s' pt', s.protect start size u pt = .ok (s', pt') ∧ Inv s' ∧
      s'.layout = s.layout.flatMap (protectPieces start (start + size) u) ∧
      pt' = s.layout.foldl (protectCall start (start + size) u) pt ∧
      (∀ p, (∃ e ∈ s'.areas.toList, p ∈ e.2.frames.toList) ↔ ∃ e ∈ s.areas.toList, p ∈ e.2.frames.toList) ∧
      ((∀ e ∈ s.areas.toList, e.2.FramesInside) → ∀ e ∈ s'.areas.toList, e.2.FramesInside) ∧
      ∀ e ∈ s.areas.toList, u e.2.flags = none ∨ e.2.end ≤ start ∨ start + size ≤ e.2.start →
        e ∈ s'.areas.toList := by
  have hse : start < start + size := by omega
  have hP := fun q (hq : q ∈ s.layout) => protectPieces_apart (u := u) hse (hs.slot hq).1 (hs.slot hq).2
  have hslots : ∀ p ∈ s.layout.flatMap (protectPieces start (start + size) u),
      p.key = p.range.start ∧ p.range.start < p.range.end := by
    intro p hp
    obtain ⟨q, hq, hp⟩ := List.mem_flatMap.1 hp
    exact ⟨((hP q hq).2 p hp).1, ((hP q hq).2 p hp).2.1⟩
  have hapart := flatMap_apart hs.layout_apart (fun q hq => (hP q hq).1) fun q hq p hp => ((hP q hq).2 p hp).2.2
  have hsorted := sorted_of_apart hslots hapart
  obtain ⟨l', t, pt', h, hperm, hpt, hF, hFI, hkeep⟩ := protectLoop_perm (u := u) hse s.areas.toList pt
    (s.areas.sorted.imp_of_mem fun ha hb hab => hs.end_le_start ha hb hab) fun e he => ⟨hs.key_eq e he, hs.nonempty e he⟩
  -- the staged keys are distinct, and fresh to the areas left
  have hnd : (l'.map Prod.fst ++ t.map Prod.fst).Nodup := by
    have := (hperm.map Slot.key).nodup_iff.2 ((List.pairwise_map.2 hsorted).imp Nat.ne_of_lt)
    simpa only [List.map_append, List.map_map] using this
  rw [List.nodup_append] at hnd
  have hkeys := protectLoop_keys start (start + size) u s.areas.toList pt l' t pt' (by rw [h]; rfl)
  have hext : ∀ p, p ∈ ((s.areas.ofSameKeys l' hkeys).extend t).toList ↔ p ∈ l' ∨ p ∈ t := fun p =>
    BTreeMap.mem_extend (m := s.areas.ofSameKeys l' hkeys) hnd.2.1
      (fun e he p hp hpe => hnd.2.2 (List.mem_map_of_mem Prod.fst (show p ∈ l' from hp))
        (hpe ▸ List.mem_map_of_mem Prod.fst he))
  have hmem : ∀ q, q ∈ layout ⟨(s.areas.ofSameKeys l' hkeys).extend t⟩ ↔
      q ∈ s.layout.flatMap (protectPieces start (start + size) u) := by
    intro q
    refine Iff.trans ?_ hperm.mem_iff
    rw [List.mem_append, layout, List.mem_map, List.mem_map, List.mem_map]
    simp only [hext, or_and_right, exists_or]
  have hL := layout_eq_of_mem_iff hsorted hmem
  refine ⟨_, pt', ?_, inv_of_layout (hL ▸ hslots) (hL ▸ hapart), hL, hpt, fun p => ?_,
    fun hin e he => hFI hin e (List.mem_append.2 ((hext e).1 he)), fun e he hc => (hext e).2 (.inl (hkeep e he hc))⟩
  · unfold protect
    simp only [checkedAdd, if_pos hr]
    -- only the `Ok` branch agrees with the loop's result
    split <;> rename_i heq <;> rw [h] at heq <;> cases heq
    rfl
  · rw [← List.mem_flatMap, ← List.mem_flatMap, ← hF.mem_iff]
    simp only [List.mem_flatMap, hext, List.mem_append]

theorem protect_of_overflow (hr : usizeMax < start + size) : s.protect start size u pt = .err .InvalidParam (s, pt) := by
  simp only [protect, checkedAdd, if_neg (Nat.not_le.2 hr)]

theorem protect_zero (hr : start ≤ usizeMax) : s.protect start 0 u pt = .panic ∨ s.protect start 0 u pt = .ok (s, pt) := by
  unfold protect
  simp only [checkedAdd, Nat.add_zero, if_pos hr]
  split
  · exact .inl rfl
  all_goals
    rename_i heq
    rcases protectLoop_empty start s.areas.toList pt with h | h <;> rw [h] at heq <;> cases heq
  exact .inr rfl

/-- **Every state `protect` returns keeps `Inv`**, whatever the backend answers. -/
theorem protect_inv (hs : Inv s) {y : MemorySet B F FR × PT} (h : (s.protect start size u pt).state? = some y) :
    Inv y.1 := by
  rcases Nat.lt_or_ge usizeMax (start + size) with hr | hr
  · rw [protect_of_overflow hr] at h; cases h; exact hs
  rcases Nat.eq_zero_or_pos size with rfl | hsz
  · rw [Nat.add_zero] at hr
    have h0 : s.protect start 0 u pt = .panic ∨ s.protect start 0 u pt = .ok (s, pt) := protect_zero hr
    rcases h0 with h' | h' <;> rw [h'] at h <;> cases h
    exact hs
  · obtain ⟨s', pt', h', hs', -⟩ := protect_layout hs hsz hr
    rw [h'] at h; cases h; exact hs'

/-- **`protect` re-flags the part of each area inside the range.**  On a set under `Inv` and a non-empty range that
does not overflow, `protect` returns `Ok`, whatever the backend answers, and keeps `Inv`.  Each area `update_flags`
leaves, or off the range, is kept under its key, whole and with its frames; each other one is cut into its non-empty parts below `start`, inside
the range and from `end` on, keyed by their starts, the middle one with the new flags.  The covered addresses are
those covered before, each with the flags `update_flags` gives inside the range and with its old flags outside. -/
theorem protect_reflags_inside (hs : Inv s) (hsz : 0 < size) (hr : start + size ≤ usizeMax) :
    ∃ s' pt', s.protect start size u pt = .ok (s', pt') ∧ Inv s' ∧
      s'.layout = s.layout.flatMap (protectPieces start (start + size) u) ∧
      (∀ q ∈ s.layout, u q.flags = none ∨ q.range.end ≤ start ∨ start + size ≤ q.range.start → q ∈ s'.layout) ∧
      (∀ e ∈ s.areas.toList, u e.2.flags = none ∨ e.2.end ≤ start ∨ start + size ≤ e.2.start →
        e ∈ s'.areas.toList) ∧
      (∀ a, (∃ f, Covers s'.layout a f) ↔ ∃ f, Covers s.layout a f) ∧
      ∀ a g, Covers s'.layout a g ↔
        ∃ f, Covers s.layout a f ∧ (if start ≤ a ∧ a < start + size then (u f).getD f else f) = g := by
  obtain ⟨s', pt', h, hs', hL, -, -, -, hkeep⟩ : ∃ s' pt', s.protect start size u pt = .ok (s', pt') ∧ _ :=
    protect_layout hs hsz hr
  refine ⟨s', pt', h, hs', hL, fun q hq hoff => ?_, hkeep, fun a => ?_,
    fun a g => hL ▸ covers_flatMap_protectPieces _ a g⟩
  · rw [hL, List.mem_flatMap]
    refine ⟨q, hq, ?_⟩
    rcases hoff with hn | hoff
    · rw [protectPieces_of_none hn]
      exact List.mem_singleton_self _
    · rw [protectPieces_of_off hoff]
      exact List.mem_singleton_self _
  · simp only [hL, covers_flatMap_protectPieces]
    exact ⟨fun ⟨_, f, hf, _⟩ => ⟨f, hf⟩, fun ⟨f, hf⟩ => ⟨_, f, hf, rfl⟩⟩

/-- On one area `[0x1000, 0x4000)`, `protect` of `[0x2000, 0x3000)` with an update that changes every area's flags
returns `Ok` with the layout `protectPieces` gives. -/
theorem protect_reflags_inside_oneArea :
    let s : MemorySet Fixed Unit Unit :=
      ⟨BTreeMap.empty.insert 0x1000 (MemoryArea.new 0x1000 0x3000 (by decide) none () ⟨true, true, true⟩)⟩
    Inv s ∧ 0 < 0x1000 ∧ 0x2000 + 0x1000 ≤ usizeMax ∧ ∃ s' pt', s.protect 0x2000 0x1000 (fun _ => some ()) () =
      .ok (s', pt') ∧ s'.layout = s.layout.flatMap (protectPieces 0x2000 0x3000 fun _ => some ()) := by
  intro s
  have hs : Inv s := by decide
  obtain ⟨s', pt', h, -, hL, -⟩ : ∃ s' pt', s.protect 0x2000 0x1000 (fun _ => some ()) () = .ok (s', pt') ∧ _ :=
    protect_reflags_inside hs (by decide) (by decide)
  exact ⟨hs, by decide, by decide, s', pt', h, hL⟩

/-- **Outside the range an address keeps its flags**: after `protect` of `[0x2000, 0x3000)` on one area
`[0x1000, 0x4000)`, `0x1000` is covered with the area's flags, though it lies outside the range. -/
theorem protect_keeps_flags_outside_range :
    let s : MemorySet Fixed Unit Unit :=
      ⟨BTreeMap.empty.insert 0x1000 (MemoryArea.new 0x1000 0x3000 (by decide) none () ⟨true, true, true⟩)⟩
    ∃ s' pt', s.protect 0x2000 0x1000 (fun _ => some ()) () = .ok (s', pt') ∧ Covers s'.layout 0x1000 () ∧
      ¬(0x2000 ≤ 0x1000 ∧ 0x1000 < 0x2000 + 0x1000) :=
  ⟨_, _, rfl, by unfold Covers; decide, by decide⟩

/-- **A rejected `backend.protect` is reported as success.** -/
theorem protect_ok_though_backend_rejects :
    let b : Fixed := ⟨true, true, false⟩
    let s : MemorySet Fixed Unit Unit :=
      ⟨BTreeMap.empty.insert 0x1000 (MemoryArea.new 0x1000 0x1000 (by decide) none () b)⟩
    Inv s ∧ (MappingBackend.protect b 0x1000 0x1000 () ()).1 = false ∧
      ∃ s', s.protect 0x1000 0x1000 (fun _ => some ()) () = .ok (s', ()) :=
  ⟨by decide, rfl, _, rfl⟩

/-- **`protect` of an empty range strictly inside an area it changes panics.** -/
theorem protect_empty_range_panics :
    let s : MemorySet Fixed Unit Unit :=
      ⟨BTreeMap.empty.insert 0 (MemoryArea.new 0 0x2000 (by decide) none () ⟨true, true, true⟩)⟩
    Inv s ∧ s.protect 0x1000 0 (fun _ => some ()) () = .panic :=
  ⟨by decide, rfl⟩

end MemorySet

end Axmm
