import Axmm.Inv
import Mathlib.Data.List.Pairwise
/-!
# Layout — the set without its frames

The build without `RAII` keeps, for each area, its range, its flags and its backend.  A `Slot` is that, under the
area's key; a set's `layout` is its slots in key order.  The specifications of `unmap` and `protect` cut each slot
into pieces, and a result is compared with them by layout: a layout is fixed by the slots it holds
(`layout_eq_of_mem_iff`), and the pieces of a `flatMap` are in key order when each slot's pieces lie inside it and
the slots are apart (`flatMap_sorted`).  `Covers L a f` says that an address is mapped with the flags `f`.
-/
namespace Axmm

/-- An area as the build without `RAII` has it, under its key. -/
structure Slot (B F : Type) where
  key : Nat
  range : AddrRange
  flags : F
  backend : B

/-- Some slot of `L` holds the address `a`, with the flags `f`. -/
def Covers {B F : Type} (L : List (Slot B F)) (a : Nat) (f : F) : Prop :=
  ∃ q ∈ L, q.range.contains a = true ∧ q.flags = f

namespace MemorySet

variable {B F FR : Type}

/-- The slot of an entry. -/
def slotOf (e : Nat × MemoryArea B F FR) : Slot B F := ⟨e.1, e.2.vaRange, e.2.flags, e.2.backend⟩

/-- The set's slots, in key order. -/
def layout (s : MemorySet B F FR) : List (Slot B F) := s.areas.toList.map slotOf

@[simp] theorem slotOf_key (e : Nat × MemoryArea B F FR) : (slotOf e).key = e.1 := rfl
@[simp] theorem slotOf_range (e : Nat × MemoryArea B F FR) : (slotOf e).range = e.2.vaRange := rfl
@[simp] theorem slotOf_flags (e : Nat × MemoryArea B F FR) : (slotOf e).flags = e.2.flags := rfl
@[simp] theorem slotOf_backend (e : Nat × MemoryArea B F FR) : (slotOf e).backend = e.2.backend := rfl

theorem slotOf_eq {k lo hi : Nat} {a : MemoryArea B F FR} (hk : k = lo) (h1 : a.start = lo) (h2 : a.end = hi) :
    slotOf (k, a) = ⟨lo, .ofBounds lo hi, a.flags, a.backend⟩ := by
  subst hk
  show (⟨k, a.vaRange, a.flags, a.backend⟩ : Slot B F) = _
  rw [← AddrRange.eq_ofBounds h1 h2]

theorem mem_layout {s : MemorySet B F FR} {q : Slot B F} : q ∈ s.layout ↔ ∃ e ∈ s.areas.toList, slotOf e = q :=
  List.mem_map

/-- An address is covered in the layout exactly when an area of the set contains it with those flags. -/
theorem covers_layout_iff {s : MemorySet B F FR} {a : Nat} {f : F} :
    Covers s.layout a f ↔ ∃ e ∈ s.areas.toList, e.2.vaRange.contains a = true ∧ e.2.flags = f :=
  ⟨fun ⟨_, hq, hqa, hf⟩ => by obtain ⟨e, he, rfl⟩ := mem_layout.1 hq; exact ⟨e, he, hqa, hf⟩,
    fun ⟨e, he, hea, hf⟩ => ⟨slotOf e, mem_layout.2 ⟨e, he, rfl⟩, hea, hf⟩⟩

theorem layout_sorted (s : MemorySet B F FR) : s.layout.Pairwise (fun a b => a.key < b.key) :=
  List.pairwise_map.2 s.areas.sorted

theorem layout_eq_of_mem_iff {s : MemorySet B F FR} {L : List (Slot B F)} (hL : L.Pairwise (fun a b => a.key < b.key))
    (h : ∀ q, q ∈ s.layout ↔ q ∈ L) : s.layout = L :=
  BTreeMap.list_eq_of_mem_iff Slot.key s.layout_sorted hL h

/-- **Under `Inv`, the slots are apart in key order.** -/
theorem Inv.layout_apart {s : MemorySet B F FR} (hs : Inv s) :
    s.layout.Pairwise (fun a b => a.range.end ≤ b.range.start) :=
  List.pairwise_map.2 (s.areas.sorted.imp_of_mem fun ha hb hab => hs.end_le_start ha hb hab)

theorem Inv.slot_end_le {s : MemorySet B F FR} (hs : Inv s) {q q' : Slot B F} (hq : q ∈ s.layout) (hq' : q' ∈ s.layout)
    (h : q.key < q'.key) : q.range.end ≤ q'.range.start := by
  obtain ⟨e, he, rfl⟩ := mem_layout.1 hq
  obtain ⟨e', he', rfl⟩ := mem_layout.1 hq'
  exact hs.end_le_start he he' h

theorem Inv.slot {s : MemorySet B F FR} (hs : Inv s) {q : Slot B F} (hq : q ∈ s.layout) :
    q.key = q.range.start ∧ q.range.start < q.range.end := by
  obtain ⟨e, he, rfl⟩ := mem_layout.1 hq
  exact ⟨hs.key_eq e he, hs.nonempty e he⟩

/-- **`Inv` read off the layout**: slots keyed by their starts, non-empty, and apart in key order. -/
theorem inv_of_layout {s : MemorySet B F FR} (h : ∀ q ∈ s.layout, q.key = q.range.start ∧ q.range.start < q.range.end)
    (ha : s.layout.Pairwise (fun a b => a.range.end ≤ b.range.start)) : Inv s := by
  refine ⟨fun e he => (h _ (mem_layout.2 ⟨e, he, rfl⟩)).1, fun e he => (h _ (mem_layout.2 ⟨e, he, rfl⟩)).2,
    fun a ha' b hb hab => ?_⟩
  have hd : s.areas.toList.Pairwise (fun x y => x.2.vaRange.overlaps y.2.vaRange = false) :=
    (List.pairwise_map.1 ha).imp fun hxy => by
      rw [← Bool.not_eq_true, AddrRange.overlaps_iff]
      exact fun h' => absurd hxy (by simp only [slotOf_range]; omega)
  exact hd.forall (fun x y hxy => (AddrRange.overlaps_comm _ _).trans hxy) ha' hb fun h' => hab (h' ▸ rfl)

/-- Under `Inv`, one slot at most contains an address, so an address is covered with one flags value at most. -/
theorem Inv.slot_eq_of_contains {s : MemorySet B F FR} (hs : Inv s) {q q' : Slot B F} (hq : q ∈ s.layout)
    (hq' : q' ∈ s.layout) {x : Nat} (hx : q.range.contains x = true) (hx' : q'.range.contains x = true) : q = q' := by
  obtain ⟨e, he, rfl⟩ := mem_layout.1 hq
  obtain ⟨e', he', rfl⟩ := mem_layout.1 hq'
  rw [hs.eq_of_contains he he' hx hx']

/-- `Inv` reads only the layout. -/
theorem Inv.of_layout_eq {s s' : MemorySet B F FR} (hs : Inv s) (h : s'.layout = s.layout) : Inv s' :=
  inv_of_layout (h ▸ fun _ hq => hs.slot hq) (h ▸ hs.layout_apart)

/-- **Pieces inside their slots, over slots apart, are in key order.** -/
theorem flatMap_sorted {L : List (Slot B F)} (hL : L.Pairwise (fun a b => a.range.end ≤ b.range.start))
    {f : Slot B F → List (Slot B F)} (hf : ∀ e ∈ L, (f e).Pairwise (fun a b => a.key < b.key))
    (hk : ∀ e ∈ L, ∀ p ∈ f e, e.range.start ≤ p.key ∧ p.key < e.range.end) :
    (L.flatMap f).Pairwise (fun a b => a.key < b.key) :=
  List.pairwise_flatMap.2 ⟨hf, hL.imp_of_mem fun ha hb hab x hx y hy => by
    have := hk _ ha x hx; have := hk _ hb y hy; omega⟩

theorem sorted_of_apart {L : List (Slot B F)} (h : ∀ q ∈ L, q.key = q.range.start ∧ q.range.start < q.range.end)
    (ha : L.Pairwise (fun a b => a.range.end ≤ b.range.start)) : L.Pairwise (fun a b => a.key < b.key) :=
  ha.imp_of_mem fun hx hy hxy => by
    have := h _ hx
    have := h _ hy
    omega

/-- **Pieces apart inside their slots, over slots apart, are apart.** -/
theorem flatMap_apart {L : List (Slot B F)} (hL : L.Pairwise (fun a b => a.range.end ≤ b.range.start))
    {f : Slot B F → List (Slot B F)} (hf : ∀ e ∈ L, (f e).Pairwise (fun a b => a.range.end ≤ b.range.start))
    (hk : ∀ e ∈ L, ∀ p ∈ f e, e.range.start ≤ p.range.start ∧ p.range.end ≤ e.range.end) :
    (L.flatMap f).Pairwise (fun a b => a.range.end ≤ b.range.start) :=
  List.pairwise_flatMap.2 ⟨hf, hL.imp_of_mem fun ha hb hab x hx y hy => by
    have := hk _ ha x hx; have := hk _ hb y hy; omega⟩

theorem layout_key_inj {s : MemorySet B F FR} {q q' : Slot B F} (hq : q ∈ s.layout) (hq' : q' ∈ s.layout)
    (h : q.key = q'.key) : q = q' := by
  obtain ⟨e, he, rfl⟩ := mem_layout.1 hq
  obtain ⟨e', he', rfl⟩ := mem_layout.1 hq'
  rw [BTreeMap.key_inj he he' h]

theorem mem_layout_insert {m : BTreeMap (MemoryArea B F FR)} {k : Nat} {a : MemoryArea B F FR} {q : Slot B F} :
    q ∈ layout ⟨m.insert k a⟩ ↔ q = slotOf (k, a) ∨ (q ∈ layout ⟨m⟩ ∧ q.key ≠ k) := by
  simp only [layout, List.mem_map, BTreeMap.mem_insert]
  constructor
  · rintro ⟨e, rfl | ⟨he, hk⟩, rfl⟩
    · exact .inl rfl
    · exact .inr ⟨⟨e, he, rfl⟩, hk⟩
  · rintro (rfl | ⟨⟨e, he, rfl⟩, hk⟩)
    · exact ⟨_, .inl rfl, rfl⟩
    · exact ⟨e, .inr ⟨he, hk⟩, rfl⟩

theorem key_ne_iff {s : MemorySet B F FR} {k : Nat} {a₀ : MemoryArea B F FR} {q : Slot B F} (hq : q ∈ s.layout)
    (he : slotOf (k, a₀) ∈ s.layout) : q.key ≠ k ↔ q ≠ slotOf (k, a₀) :=
  ⟨fun h h' => h (h' ▸ rfl), fun h h' => h (layout_key_inj hq he h')⟩

theorem mem_layout_insert_of_mem {s : MemorySet B F FR} {k : Nat} {a₀ a : MemoryArea B F FR} {q : Slot B F}
    (he : slotOf (k, a₀) ∈ s.layout) :
    q ∈ layout ⟨s.areas.insert k a⟩ ↔ q = slotOf (k, a) ∨ (q ∈ s.layout ∧ q ≠ slotOf (k, a₀)) :=
  mem_layout_insert.trans (or_congr_right (and_congr_right fun hq => key_ne_iff hq he))

theorem mem_layout_insert_of_fresh {s : MemorySet B F FR} {k : Nat} {a : MemoryArea B F FR} {q : Slot B F}
    (h : ∀ q ∈ s.layout, q.key ≠ k) : q ∈ layout ⟨s.areas.insert k a⟩ ↔ q = slotOf (k, a) ∨ q ∈ s.layout :=
  mem_layout_insert.trans (or_congr_right ⟨And.left, fun hq => ⟨hq, h q hq⟩⟩)

theorem mem_layout_remove {m : BTreeMap (MemoryArea B F FR)} {k : Nat} {q : Slot B F} :
    q ∈ layout ⟨m.remove k⟩ ↔ q ∈ layout ⟨m⟩ ∧ q.key ≠ k := by
  simp only [layout, List.mem_map, BTreeMap.mem_remove]
  constructor
  · rintro ⟨e, ⟨he, hk⟩, rfl⟩; exact ⟨⟨e, he, rfl⟩, hk⟩
  · rintro ⟨⟨e, he, rfl⟩, hk⟩; exact ⟨e, ⟨he, hk⟩, rfl⟩

theorem mem_layout_remove_of_mem {s : MemorySet B F FR} {k : Nat} {a₀ : MemoryArea B F FR} {q : Slot B F}
    (he : slotOf (k, a₀) ∈ s.layout) : q ∈ layout ⟨s.areas.remove k⟩ ↔ q ∈ s.layout ∧ q ≠ slotOf (k, a₀) :=
  mem_layout_remove.trans (and_congr_right fun hq => key_ne_iff hq he)

/-- **A `flatMap` that changes one slot**: its members are that slot's pieces and the other slots. -/
theorem mem_flatMap_of_single {L : List (Slot B F)} {f : Slot B F → List (Slot B F)} {e₀ : Slot B F} (he₀ : e₀ ∈ L)
    (hf : ∀ e ∈ L, e ≠ e₀ → f e = [e]) (q : Slot B F) :
    q ∈ L.flatMap f ↔ q ∈ f e₀ ∨ (q ∈ L ∧ q ≠ e₀) := by
  rw [List.mem_flatMap]
  constructor
  · rintro ⟨e, he, hq⟩
    by_cases h : e = e₀
    · exact .inl (h ▸ hq)
    · rw [hf e he h, List.mem_singleton] at hq; subst hq; exact .inr ⟨he, h⟩
  · rintro (hq | ⟨hq, hne⟩)
    · exact ⟨e₀, he₀, hq⟩
    · exact ⟨q, hq, by rw [hf q hq hne]; exact List.mem_singleton_self _⟩

theorem flatMap_eq_self {L : List (Slot B F)} {f : Slot B F → List (Slot B F)} (h : ∀ e ∈ L, f e = [e]) :
    L.flatMap f = L := by
  induction L with
  | nil => rfl
  | cons e L ih =>
    rw [List.flatMap_cons, h e (List.mem_cons_self _ _), ih fun e' he' => h e' (List.mem_cons_of_mem _ he')]
    rfl

end MemorySet

end Axmm
