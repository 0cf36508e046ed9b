import Axmm.BTreeMap
/-!
# Backend — `MappingBackend`, `MappingError`, and what a call returns

Every mutating call of the sources takes `&mut self` and, but for `insert` and `delete`, `&mut B::PageTable`, and
returns a `MappingResult`, or panics on an `unwrap`, an `assert!` or a `sub_addr` that underflows.  A call is
modelled as a function from its state to an `Outcome`: a panic, or `Ok(())` / `Err(e)` with the state the call leaves.
The `?` operator is `Outcome.bind`.

The backend is a class over the backend type `B`, with the flags, page table and frame reference types as its
associated types, as in backend.rs.  Theorems over every instance are theorems over every pattern of backend
successes and failures: the page table `PT` may record or decide anything.
-/
namespace Axmm

/-- Modelled from the spec: `MappingError` (§4.4); `lib.rs`, which declares it, is not among the sources. -/
inductive MappingError where
  | InvalidParam
  | AlreadyExists
  | BadState
deriving DecidableEq

/-- What a call does to its `&mut` state `σ`: it panics, or it returns `Ok(())` or `Err(e)` leaving the state `s`. -/
inductive Outcome (σ : Type) where
  | panic
  | ok (s : σ)
  | err (e : MappingError) (s : σ)

namespace Outcome

variable {σ τ : Type}

/-- The `?` operator: go on after `Ok`; an `Err` or a panic is the call's outcome. -/
def bind (o : Outcome σ) (k : σ → Outcome σ) : Outcome σ :=
  match o with
  | panic => panic
  | ok s => k s
  | err e s => err e s

/-- The outcome with its state mapped: a call on a part of the state (an area of the set) seen on the whole. -/
def map (f : σ → τ) : Outcome σ → Outcome τ
  | panic => panic
  | ok s => ok (f s)
  | err e s => err e (f s)

/-- The state a call that returned leaves, `Ok` or `Err`; `none` for a panic. -/
def state? : Outcome σ → Option σ
  | panic => none
  | ok s => some s
  | err _ s => some s

@[simp] theorem panic_bind (k : σ → Outcome σ) : (panic : Outcome σ).bind k = panic := rfl
@[simp] theorem ok_bind (s : σ) (k : σ → Outcome σ) : (ok s).bind k = k s := rfl
@[simp] theorem err_bind (e : MappingError) (s : σ) (k : σ → Outcome σ) : (err e s).bind k = err e s := rfl
@[simp] theorem map_panic (f : σ → τ) : (panic : Outcome σ).map f = panic := rfl
@[simp] theorem map_ok (f : σ → τ) (s : σ) : (ok s).map f = ok (f s) := rfl
@[simp] theorem map_err (f : σ → τ) (e : MappingError) (s : σ) : (err e s).map f = err e (f s) := rfl

@[simp] theorem state?_map (f : σ → τ) (o : Outcome σ) : (o.map f).state? = o.state?.map f := by
  cases o <;> rfl

theorem bind_eq_ok {o : Outcome σ} {k : σ → Outcome σ} {s' : σ} (h : o.bind k = ok s') :
    ∃ s, o = ok s ∧ k s = ok s' := by
  cases o <;> simp_all [bind]

theorem map_eq_ok {o : Outcome σ} {f : σ → τ} {t : τ} (h : o.map f = ok t) : ∃ s, o = ok s ∧ f s = t := by
  cases o <;> simp_all [map]

end Outcome

/-- `MappingBackend` (backend.rs), `RAII` build, on the page table `PT`.  `map` returns the frames it installed, or
`Err(())` as `none`; `unmap` and `protect` report success.  A call may change the page table whatever it reports.
The build without `RAII` is this one with the frames forgotten: no call of the sources branches on them. -/
class MappingBackend (B : Type) (F PT FR : outParam Type) where
  map : B → Nat → Nat → F → PT → Option (BTreeMap FR) × PT
  unmap : B → Nat → Nat → PT → Bool × PT
  protect : B → Nat → Nat → F → PT → Bool × PT

/-- A backend whose answers its value fixes, on no page table and unit flags: whether `map`, `unmap` and `protect`
succeed; `map` installs one frame, at the start of a range that is not empty. -/
structure Fixed where
  mapOk : Bool
  unmapOk : Bool
  protectOk : Bool

instance : MappingBackend Fixed Unit Unit Unit where
  map b start size _ pt :=
    (if b.mapOk then some (if 0 < size then ⟨[(start, ())], List.pairwise_singleton _ _⟩ else BTreeMap.empty) else none, pt)
  unmap b _ _ pt := (b.unmapOk, pt)
  protect b _ _ _ pt := (b.protectOk, pt)

end Axmm
