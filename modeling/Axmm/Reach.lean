import Axmm.Map
import Axmm.Protect
/-!
# Reach — every set the calls reach keeps `Inv`

The calls that change a `MemorySet` (`Call`): `insert`, `delete`, `map`, `unmap`, `protect` and `clear`, each with
its arguments, on the page table the caller passes (`Call.run`).  `Reachable` is the sets reached from
`MemorySet::new()` by calls that return, with `Ok` or with an error, each on any page table and over any backend;
`insert` with `unmap_overlap` only of an area nothing overlaps (`Call.Allowed`), since it inserts without unmapping.
Each call keeps `Inv` in every state it returns (`insert_inv`, `map_inv`, `unmap_inv`, `protect_inv`, `clear_inv`:
one step, `Call.run_inv`), so every reachable set does (`reachable_inv`).

`clear` is fail-stop: it unmaps the areas in key order, stops with `BadState` at the first one whose backend rejects
the `unmap`, and keeps every area, the ones already unmapped without their frames (`clear_stops_at_failure`).
-/
namespace Axmm

namespace MemorySet

variable {B F PT FR : Type} [MappingBackend B F PT FR]

/-! ## `clear` -/

theorem unmapArea_eq_err {a a' : MemoryArea B F FR} {pt pt' : PT} {e : MappingError}
    (h : a.unmapArea pt = .err e (a', pt')) : e = .BadState ∧ a' = a := by
  unfold MemoryArea.unmapArea at h
  split at h
  · cases h
  · split at h <;> cases h
    exact ⟨rfl, rfl⟩

theorem unmapArea_eq_ok {a a' : MemoryArea B F FR} {pt pt' : PT} (h : a.unmapArea pt = .ok (a', pt')) :
    a' = { a with frames := BTreeMap.empty } := by
  unfold MemoryArea.unmapArea at h
  split at h
  · cases h
  · split at h <;> cases h
    rfl

/-- **`clear`'s loop is fail-stop**: an error is `BadState`, and the areas it leaves are the ones before the failing
area without their frames, then the failing area and the rest as they were. -/
theorem clearLoop_eq_err : ∀ {l l' : List (Nat × MemoryArea B F FR)} {pt pt' : PT} {e : MappingError},
    clearLoop l pt = .err e (l', pt') → e = .BadState ∧
      ∃ n < l.length, l' = (l.take n).map (fun e => (e.1, { e.2 with frames := BTreeMap.empty })) ++ l.drop n
  | [], _, _, _, _, h => by cases h
  | (k, area) :: rest, l', pt, pt', e, h => by
    unfold clearLoop at h
    split at h
    · cases h
    · rename_i heq
      cases h
      obtain ⟨rfl, rfl⟩ := unmapArea_eq_err heq
      exact ⟨rfl, 0, Nat.succ_pos _, rfl⟩
    · rename_i heq
      cases hr : clearLoop rest _ with
      | panic => rw [hr] at h; cases h
      | ok _ => rw [hr] at h; cases h
      | err e' y =>
        obtain ⟨l₁, pt₁⟩ := y
        rw [hr] at h
        cases h
        obtain ⟨rfl, n, hn, rfl⟩ := clearLoop_eq_err hr
        obtain rfl := unmapArea_eq_ok heq
        exact ⟨rfl, n + 1, Nat.succ_lt_succ hn, rfl⟩

theorem clearLoop_cases : ∀ (l : List (Nat × MemoryArea B F FR)) (pt : PT), (∀ e ∈ l, e.2.start ≤ e.2.end) →
    (∃ y, clearLoop l pt = .ok y) ∨
      ∃ e y, clearLoop l pt = .err e y ∧
        ∃ x ∈ l, ∃ (lo n : Nat) (pt' : PT), (MappingBackend.unmap x.2.backend lo n pt').1 = false
  | [], _, _ => .inl ⟨_, rfl⟩
  | (k, a) :: rest, pt, h => by
    rw [clearLoop, a.unmapArea_eq pt (h _ (List.mem_cons_self _ _))]
    match hu : MappingBackend.unmap a.backend a.start (a.end - a.start) pt with
    | (false, _) => exact .inr ⟨_, _, rfl, _, List.mem_cons_self _ _, a.start, a.end - a.start, pt, by rw [hu]⟩
    | (true, pt₁) =>
      dsimp only
      rcases clearLoop_cases rest pt₁ (fun e he => h e (.tail _ he)) with ⟨y, hy⟩ | ⟨e, y, hy, x, hx, hrej⟩
      · exact .inl ⟨_, by rw [hy]; rfl⟩
      · exact .inr ⟨e, _, by rw [hy]; rfl, x, .tail _ hx, hrej⟩

theorem clearLoop_slots {l l' : List (Nat × MemoryArea B F FR)} {pt pt' : PT} {e : MappingError}
    (h : clearLoop l pt = .err e (l', pt')) : l'.map slotOf = l.map slotOf := by
  obtain ⟨-, n, -, rfl⟩ := clearLoop_eq_err h
  -- dropping the frames leaves the slot
  have hf : (slotOf ∘ fun e : Nat × MemoryArea B F FR =>
      ((e.1, { e.2 with frames := BTreeMap.empty }) : Nat × MemoryArea B F FR)) = slotOf := rfl
  rw [List.map_append, List.map_map, hf, ← List.map_append, List.take_append_drop]

/-- **Every state `clear` returns keeps `Inv`**: the empty set after `Ok`, the areas as they were after an error. -/
theorem clear_inv {s : MemorySet B F FR} {pt : PT} (hs : Inv s) {y : MemorySet B F FR × PT}
    (h : (s.clear pt).state? = some y) : Inv y.1 := by
  unfold clear at h
  split at h
  · cases h
  · rename_i heq
    cases h
    exact hs.of_layout_eq (clearLoop_slots heq)
  · cases h
    exact inv_new

/-- **`clear` stops at the first area whose `unmap` fails, and rolls nothing back.**  On a set under `Inv` it never
panics, and returns `Ok` with the empty set when every area's backend accepts `unmap`.  On an error, the error is
`BadState` and every area is still in the set: the ones before the failing area, which `unmap_area` has unmapped,
without their frames, and the failing area and the rest as they were. -/
theorem clear_stops_at_failure {s : MemorySet B F FR} (hs : Inv s) (pt : PT) :
    ((∀ q ∈ s.layout, ∀ lo n (pt : PT), (MappingBackend.unmap q.backend lo n pt).1 = true) →
      ∃ pt', s.clear pt = .ok (⟨BTreeMap.empty⟩, pt')) ∧
    (∀ e y, s.clear pt = .err e y → e = .BadState ∧ ∃ n < s.areas.toList.length, y.1.areas.toList =
      (s.areas.toList.take n).map (fun e => (e.1, { e.2 with frames := BTreeMap.empty })) ++ s.areas.toList.drop n) ∧
    s.clear pt ≠ .panic := by
  have hle : ∀ e ∈ s.areas.toList, e.2.start ≤ e.2.end := fun e he => Nat.le_of_lt (hs.nonempty e he)
  unfold clear
  split
  · rename_i heq
    rcases clearLoop_cases _ pt hle with ⟨_, h⟩ | ⟨_, _, h, -⟩ <;> rw [h] at heq <;> cases heq
  · rename_i e l pt' heq
    obtain ⟨rfl, n, hn, rfl⟩ := clearLoop_eq_err heq
    refine ⟨fun hu => ?_, fun _ _ h => ?_, nofun⟩
    · -- some area's backend rejected its `unmap`
      rcases clearLoop_cases _ pt hle with ⟨_, h⟩ | ⟨-, -, -, x, hx, lo, m, pt'', hrej⟩
      · rw [h] at heq; cases heq
      · exact Bool.noConfusion (hrej.symm.trans (hu _ (mem_layout.2 ⟨x, hx, rfl⟩) lo m pt''))
    · cases h
      exact ⟨rfl, n, hn, rfl⟩
  · exact ⟨fun _ => ⟨_, rfl⟩, fun _ _ => nofun, nofun⟩

/-- Two areas, the second's backend rejecting `unmap`: `clear` fails with `BadState` and keeps both. -/
theorem clear_stops_at_failure_secondArea :
    let s : MemorySet Fixed Unit Unit :=
      ⟨(BTreeMap.empty.insert 0x1000 (MemoryArea.new 0x1000 0x1000 (by decide) none () ⟨true, true, true⟩)).insert
        0x3000 (MemoryArea.new 0x3000 0x1000 (by decide) none () ⟨true, false, true⟩)⟩
    Inv s ∧ ∃ y, s.clear () = .err .BadState y ∧ ∃ n < 2, y.1.areas.toList =
      (s.areas.toList.take n).map (fun e => (e.1, { e.2 with frames := BTreeMap.empty })) ++ s.areas.toList.drop n := by
  intro s
  have hs : Inv s := by decide
  exact ⟨hs, _, rfl, ((clear_stops_at_failure hs ()).2.1 _ _ rfl).2⟩

/-! ## Runs -/

end MemorySet

/-- The calls that change a `MemorySet`, with their arguments. -/
inductive Call (B F FR : Type) where
  | insert (area : MemoryArea B F FR) (unmapOverlap : Bool)
  | delete (vaddr : Nat)
  | map (area : MemoryArea B F FR) (unmapOverlap : Bool) (overwriteFlags : Option F)
  | unmap (start size : Nat)
  | protect (start size : Nat) (updateFlags : F → Option F)
  | clear

namespace Call

open MemorySet

variable {B F PT FR : Type} [MappingBackend B F PT FR]

/-- A call on a set and a page table; `insert` and `delete` leave the page table as it is. -/
def run : Call B F FR → MemorySet B F FR → PT → Outcome (MemorySet B F FR × PT)
  | insert area unmapOverlap, s, pt => (s.insert area unmapOverlap).map (·, pt)
  | delete vaddr, s, pt => .ok (s.delete vaddr, pt)
  | map area unmapOverlap overwriteFlags, s, pt => s.map area pt unmapOverlap overwriteFlags
  | unmap start size, s, pt => s.unmap start size pt
  | protect start size updateFlags, s, pt => s.protect start size updateFlags pt
  | clear, s, pt => s.clear pt

/-- The calls the invariant is stated for: `insert` with `unmap_overlap` only of an area nothing overlaps. -/
def Allowed (s : MemorySet B F FR) : Call B F FR → Prop
  | insert area true => ∀ e ∈ s.areas.toList, e.2.vaRange.overlaps area.vaRange = false
  | _ => True

/-- **One step**: every state an allowed call returns keeps `Inv`. -/
theorem run_inv {s : MemorySet B F FR} {c : Call B F FR} {pt : PT} {y : MemorySet B F FR × PT} (hs : Inv s)
    (hc : c.Allowed s) (h : (c.run s pt).state? = some y) : Inv y.1 := by
  cases c with
  | insert area u =>
    simp only [run, Outcome.state?_map, Option.map_eq_some'] at h
    obtain ⟨s', hs', rfl⟩ := h
    cases u
    · exact insert_inv hs (.inl rfl) hs'
    · exact insert_inv hs (.inr hc) hs'
  | delete vaddr => cases h; exact hs.remove vaddr
  | map area u ov => exact map_inv hs h
  | unmap start size => exact unmap_inv hs h
  | protect start size u => exact protect_inv hs h
  | clear => exact clear_inv hs h

end Call

/-- **The sets reached from `MemorySet::new()`** by allowed calls that return, with `Ok` or with an error, each on any
page table. -/
inductive Reachable [MappingBackend B F PT FR] : MemorySet B F FR → Prop
  | new : Reachable MemorySet.new
  | step {s : MemorySet B F FR} {y : MemorySet B F FR × PT} (c : Call B F FR) (pt : PT) :
      Reachable s → c.Allowed s → (c.run s pt).state? = some y → Reachable y.1

namespace MemorySet

variable {B F PT FR : Type} [MappingBackend B F PT FR]

/-- **Every reachable set keeps `Inv`.**  `MemorySet::new()` satisfies it; every allowed call that returns, with `Ok`
or with an error, on any page table and whatever the backend answers, leaves a set that satisfies it; so does every
set a finite sequence of such calls reaches. -/
theorem reachable_inv :
    Inv (MemorySet.new : MemorySet B F FR) ∧
    (∀ (s : MemorySet B F FR) (c : Call B F FR) (pt : PT) (y : MemorySet B F FR × PT),
      Inv s → c.Allowed s → (c.run s pt).state? = some y → Inv y.1) ∧
    ∀ s : MemorySet B F FR, Reachable s → Inv s := by
  refine ⟨inv_new, fun _ _ _ _ hs hc h => Call.run_inv hs hc h, fun s hr => ?_⟩
  induction hr with
  | new => exact inv_new
  | step _ _ _ hc h ih => exact Call.run_inv ih hc h

/-- From `MemorySet::new()`, `map` of `[0x1000, 0x3000)` and then `unmap` of `[0x1800, 0x2800)` reach a set of two
areas, which keeps `Inv`. -/
theorem reachable_inv_mapThenUnmap :
    let c₁ : Call Fixed Unit Unit := .map (MemoryArea.new 0x1000 0x2000 (by decide) none () ⟨true, true, true⟩) false none
    let c₂ : Call Fixed Unit Unit := .unmap 0x1800 0x1000
    ∃ s₁ s₂ : MemorySet Fixed Unit Unit, (c₁.run .new ()).state? = some (s₁, ()) ∧
      (c₂.run s₁ ()).state? = some (s₂, ()) ∧ Reachable s₂ ∧ Inv s₂ ∧ s₂.layout.length = 2 := by
  intro c₁ c₂
  refine ⟨_, _, rfl, rfl, ?_⟩
  have hr := Reachable.step c₂ () (Reachable.step c₁ () .new trivial rfl) trivial rfl
  exact ⟨hr, reachable_inv.2.2 _ hr, rfl⟩

end MemorySet

end Axmm
