import Mathlib.Data.Nat.Defs
import Mathlib.Tactic.Common
/-!
# Addr — addresses and `AddrRange`

The memory set is generic over `B::Addr: MemoryAddr`, an address type that converts to and from `usize`.  Its
arithmetic and the half-open `AddrRange` live in `memory_addr`, of which only `page.rs` is among the sources: both are
modelled here from the spec (§3, "Address" and "Range").  Addresses are `Nat`; the ends of a stored range carry the
`usize` bound, so that the wrapping arithmetic of `shrink_*` and `extend_*` is the plain one exactly when it does
not wrap.
-/
namespace Axmm

/-- Modelled from the spec: `usize::MAX` on the 64-bit targets, the largest address. -/
def usizeMax : Nat := 18446744073709551615

/-- Modelled from the spec: `MemoryAddr::checked_add`, `None` when the sum passes `usize::MAX`. -/
def checkedAdd (a n : Nat) : Option Nat := if a + n ≤ usizeMax then some (a + n) else none

/-- Modelled from the spec: `MemoryAddr::wrapping_add`, modulo `2^64`. -/
def wrappingAdd (a n : Nat) : Nat := (a + n) % (usizeMax + 1)

/-- Modelled from the spec: `MemoryAddr::wrapping_sub` (and `wrapping_sub_addr`), modulo `2^64`. -/
def wrappingSub (a n : Nat) : Nat := (a + (usizeMax + 1 - n % (usizeMax + 1))) % (usizeMax + 1)

/-- Modelled from the spec: `MemoryAddr::sub_addr`, which panics (`none`) when `b` is above `a`. -/
def subAddr (a b : Nat) : Option Nat := if b ≤ a then some (a - b) else none

/-- Modelled from the spec: `MemoryAddr::is_aligned_4k`. -/
def isAligned4k (a : Nat) : Bool := a % 4096 == 0

theorem isAligned4k_iff {a : Nat} : isAligned4k a = true ↔ a % 4096 = 0 := beq_iff_eq

@[simp] theorem checkedAdd_eq_some {a n m : Nat} : checkedAdd a n = some m ↔ a + n ≤ usizeMax ∧ a + n = m := by
  unfold checkedAdd; split <;> simp_all

@[simp] theorem checkedAdd_eq_none {a n : Nat} : checkedAdd a n = none ↔ usizeMax < a + n := by
  unfold checkedAdd; split <;> simp_all

/-- `checked_add(n).is_some_and(|end| end <= x)`. -/
@[simp] theorem checkedAdd_any_le {a n x : Nat} :
    (checkedAdd a n).any (· ≤ x) = true ↔ a + n ≤ usizeMax ∧ a + n ≤ x := by
  unfold checkedAdd; split <;> simp_all

@[simp] theorem subAddr_eq_some {a b m : Nat} : subAddr a b = some m ↔ b ≤ a ∧ a - b = m := by
  unfold subAddr; split <;> simp_all

theorem subAddr_of_le {a b : Nat} (h : b ≤ a) : subAddr a b = some (a - b) := by simp [h]

theorem wrappingAdd_of_le {a n : Nat} (h : a + n ≤ usizeMax) : wrappingAdd a n = a + n :=
  Nat.mod_eq_of_lt (by omega)

theorem wrappingSub_of_le {a n : Nat} (h : n ≤ a) (ha : a ≤ usizeMax) : wrappingSub a n = a - n := by
  unfold wrappingSub
  rw [Nat.mod_eq_of_lt (show n < usizeMax + 1 by omega), show a + (usizeMax + 1 - n) = a - n + (usizeMax + 1) by omega,
    Nat.add_mod_right, Nat.mod_eq_of_lt (by omega)]

theorem wrappingAdd_le (a n : Nat) : wrappingAdd a n ≤ usizeMax := Nat.le_of_lt_succ (Nat.mod_lt _ (by omega))

theorem wrappingSub_le (a n : Nat) : wrappingSub a n ≤ usizeMax := Nat.le_of_lt_succ (Nat.mod_lt _ (by omega))

/-- Modelled from the spec: `memory_addr::AddrRange`, the half-open `[start, end)`.  Its fields are public and the
areas assign them directly, so nothing orders `start` and `end`; both are `usize` values. -/
structure AddrRange where
  start : Nat
  «end» : Nat
  start_le : start ≤ usizeMax
  end_le : «end» ≤ usizeMax
deriving DecidableEq

namespace AddrRange

@[ext] theorem ext {r o : AddrRange} (h1 : r.start = o.start) (h2 : r.end = o.end) : r = o := by
  cases r; cases o; simp_all

/-- Modelled from the spec: `AddrRange::try_from_start_size`, `None` when `start + size` overflows. -/
def tryFromStartSize (start size : Nat) : Option AddrRange :=
  if h : start + size ≤ usizeMax then some ⟨start, start + size, by omega, h⟩ else none

/-- Modelled from the spec: `AddrRange::from_start_size`, which panics on overflow; the caller proves it does not. -/
def fromStartSize (start size : Nat) (h : start + size ≤ usizeMax) : AddrRange := ⟨start, start + size, by omega, h⟩

/-- Modelled from the spec: `AddrRange::is_empty`.  The spec's `start == end` on a range with `start ≤ end`; a
range the wrapping arithmetic turned round counts as empty, as in `memory_addr`. -/
def isEmpty (r : AddrRange) : Bool := r.end ≤ r.start

/-- Modelled from the spec: `AddrRange::size`, `end.sub_addr(start)`. -/
def size (r : AddrRange) : Option Nat := subAddr r.end r.start

/-- Modelled from the spec: `AddrRange::contains`. -/
def contains (r : AddrRange) (a : Nat) : Bool := r.start ≤ a && a < r.end

/-- Modelled from the spec: `AddrRange::contains_range`. -/
def containsRange (r o : AddrRange) : Bool := r.start ≤ o.start && o.end ≤ r.end

/-- Modelled from the spec: `AddrRange::contained_in`. -/
def containedIn (r o : AddrRange) : Bool := o.containsRange r

/-- Modelled from the spec: `AddrRange::overlaps`. -/
def overlaps (r o : AddrRange) : Bool := r.start < o.end && o.start < r.end

@[simp] theorem tryFromStartSize_eq_some {start size : Nat} {r : AddrRange} :
    tryFromStartSize start size = some r ↔ r.start = start ∧ r.end = start + size ∧ start + size ≤ usizeMax := by
  unfold tryFromStartSize
  split
  · simp only [Option.some.injEq]
    constructor
    · rintro rfl; simp_all
    · rintro ⟨h1, h2, -⟩; ext <;> simp_all
  · simp_all

@[simp] theorem tryFromStartSize_eq_none {start size : Nat} :
    tryFromStartSize start size = none ↔ usizeMax < start + size := by
  unfold tryFromStartSize; split <;> simp_all

@[simp] theorem isEmpty_iff (r : AddrRange) : r.isEmpty = true ↔ r.end ≤ r.start := by simp [isEmpty]

@[simp] theorem contains_iff (r : AddrRange) (a : Nat) : r.contains a = true ↔ r.start ≤ a ∧ a < r.end := by
  simp [contains]

@[simp] theorem containedIn_iff (r o : AddrRange) : r.containedIn o = true ↔ o.start ≤ r.start ∧ r.end ≤ o.end := by
  simp [containedIn, containsRange]

@[simp] theorem overlaps_iff (r o : AddrRange) : r.overlaps o = true ↔ r.start < o.end ∧ o.start < r.end := by
  simp [overlaps]

theorem size_of_le {r : AddrRange} (h : r.start ≤ r.end) : r.size = some (r.end - r.start) := subAddr_of_le h

/-- The range `[lo, hi)` of two addresses, each at most `usize::MAX`. -/
def ofBounds (lo hi : Nat) : AddrRange := ⟨min lo usizeMax, min hi usizeMax, Nat.min_le_right _ _, Nat.min_le_right _ _⟩

@[simp] theorem ofBounds_start (lo hi : Nat) : (ofBounds lo hi).start = min lo usizeMax := rfl
@[simp] theorem ofBounds_end (lo hi : Nat) : (ofBounds lo hi).end = min hi usizeMax := rfl

theorem ofBounds_start_of_le {lo hi : Nat} (h : lo ≤ usizeMax) : (ofBounds lo hi).start = lo := Nat.min_eq_left h
theorem ofBounds_end_of_le {lo hi : Nat} (h : hi ≤ usizeMax) : (ofBounds lo hi).end = hi := Nat.min_eq_left h

theorem eq_ofBounds {r : AddrRange} {lo hi : Nat} (h1 : r.start = lo) (h2 : r.end = hi) : r = ofBounds lo hi := by
  have := r.start_le; have := r.end_le
  ext <;> simp <;> omega

theorem overlaps_comm (r o : AddrRange) : r.overlaps o = o.overlaps r := by
  simp only [overlaps, Bool.and_comm]

theorem overlaps_eq_false_iff (r o : AddrRange) : r.overlaps o = false ↔ r.end ≤ o.start ∨ o.end ≤ r.start := by
  rw [← Bool.not_eq_true, overlaps_iff]
  omega

end AddrRange

end Axmm
