import Axmm.Addr
/-!
# BTreeMap — the key-ordered maps that hold the areas and the frames

`MemorySet::areas` and `MemoryArea::frames` are `alloc::collections::BTreeMap`s keyed by addresses.  The model keeps
a map as its list of entries; the strict order of the keys is a field, so every operation proves that it keeps it,
and two maps with the same entries are equal (`eq_of_mem_iff`).  Each operation the sources call is one definition
here, under the name of the call or of the range query it stands for.
-/
namespace Axmm

/-- `alloc::collections::BTreeMap` keyed by addresses: its entries, in strictly increasing key order. -/
structure BTreeMap (V : Type) where
  toList : List (Nat × V)
  sorted : toList.Pairwise (fun a b => a.1 < b.1)

namespace BTreeMap

variable {V : Type}

@[ext] theorem ext {m m' : BTreeMap V} (h : m.toList = m'.toList) : m = m' := by
  cases m; cases m'; simp_all

/-- `BTreeMap::new`. -/
def empty : BTreeMap V := ⟨[], .nil⟩

/-- `BTreeMap::get`. -/
def get? (m : BTreeMap V) (k : Nat) : Option V := (m.toList.find? (·.1 == k)).map Prod.snd

/-- Insertion into the sorted list: before the first larger key, in place of an equal one. -/
def insertList (k : Nat) (v : V) : List (Nat × V) → List (Nat × V)
  | [] => [(k, v)]
  | e :: l => if k < e.1 then (k, v) :: e :: l else if k = e.1 then (k, v) :: l else e :: insertList k v l

theorem mem_insertList (k : Nat) (v : V) (p : Nat × V) :
    ∀ l : List (Nat × V), l.Pairwise (fun a b => a.1 < b.1) →
      (p ∈ insertList k v l ↔ p = (k, v) ∨ (p ∈ l ∧ p.1 ≠ k))
  | [], _ => by simp [insertList]
  | e :: l, hs => by
    rw [List.pairwise_cons] at hs
    unfold insertList
    split
    · rename_i hk
      simp only [List.mem_cons]
      constructor
      · rintro (h | h | h)
        · exact .inl h
        · subst h; exact .inr ⟨.inl rfl, by omega⟩
        · exact .inr ⟨.inr h, by have := hs.1 p h; omega⟩
      · rintro (h | ⟨h, -⟩)
        · exact .inl h
        · exact .inr h
    · split
      · rename_i hk'
        simp only [List.mem_cons]
        constructor
        · rintro (h | h)
          · exact .inl h
          · exact .inr ⟨.inr h, by have := hs.1 p h; omega⟩
        · rintro (h | ⟨h | h, hne⟩)
          · exact .inl h
          · subst h; exact absurd hk'.symm hne
          · exact .inr h
      · simp only [List.mem_cons, mem_insertList k v p l hs.2]
        constructor
        · rintro (h | h | ⟨h, hne⟩)
          · subst h; exact .inr ⟨.inl rfl, by omega⟩
          · exact .inl h
          · exact .inr ⟨.inr h, hne⟩
        · rintro (h | ⟨h | h, hne⟩)
          · exact .inr (.inl h)
          · exact .inl h
          · exact .inr (.inr ⟨h, hne⟩)

theorem insertList_sorted (k : Nat) (v : V) :
    ∀ l : List (Nat × V), l.Pairwise (fun a b => a.1 < b.1) → (insertList k v l).Pairwise (fun a b => a.1 < b.1)
  | [], _ => by simp [insertList]
  | e :: l, hs => by
    have hs' := List.pairwise_cons.1 hs
    unfold insertList
    split
    · rename_i hk
      refine List.Pairwise.cons (fun b hb => ?_) hs
      rcases List.mem_cons.1 hb with rfl | hb
      · exact hk
      · exact Nat.lt_trans hk (hs'.1 b hb)
    · split
      · rename_i hk'
        subst hk'
        exact List.Pairwise.cons hs'.1 hs'.2
      · refine List.Pairwise.cons (fun b hb => ?_) (insertList_sorted k v l hs'.2)
        rcases (mem_insertList k v b l hs'.2).1 hb with rfl | ⟨hb, -⟩
        · show e.1 < k; omega
        · exact hs'.1 b hb

/-- `BTreeMap::insert`.  The value it returns is `get?` before the call. -/
def insert (m : BTreeMap V) (k : Nat) (v : V) : BTreeMap V := ⟨insertList k v m.toList, insertList_sorted k v _ m.sorted⟩

/-- `BTreeMap::remove`.  The value it returns is `get?` before the call. -/
def remove (m : BTreeMap V) (k : Nat) : BTreeMap V := ⟨m.toList.filter (·.1 != k), m.sorted.filter _⟩

/-- `BTreeMap::retain`. -/
def retain (m : BTreeMap V) (p : Nat → V → Bool) : BTreeMap V := ⟨m.toList.filter (fun e => p e.1 e.2), m.sorted.filter _⟩

/-- `range(..x).last()`: the entry of the largest key below `x`. -/
def lastBelow (m : BTreeMap V) (x : Nat) : Option (Nat × V) := (m.toList.filter (·.1 < x)).getLast?

/-- `range(..=x).last()`: the entry of the largest key at most `x`. -/
def lastAtMost (m : BTreeMap V) (x : Nat) : Option (Nat × V) := (m.toList.filter (·.1 ≤ x)).getLast?

/-- `range(x..)`: the entries from key `x` on, in key order. -/
def rangeFrom (m : BTreeMap V) (x : Nat) : List (Nat × V) := m.toList.filter (x ≤ ·.1)

/-- `range(x..).next()`: the entry of the least key at least `x`. -/
def firstAtLeast (m : BTreeMap V) (x : Nat) : Option (Nat × V) := (m.rangeFrom x).head?

/-- `BTreeMap::split_off(&k)`: the entries below `k` stay, those from `k` on are returned. -/
def splitOff (m : BTreeMap V) (k : Nat) : BTreeMap V × BTreeMap V :=
  (⟨m.toList.filter (·.1 < k), m.sorted.filter _⟩, ⟨m.toList.filter (k ≤ ·.1), m.sorted.filter _⟩)

/-- `Extend::extend`: the entries inserted one after another, a later one replacing an earlier one's value. -/
def extend (m : BTreeMap V) (l : List (Nat × V)) : BTreeMap V := l.foldl (fun m e => m.insert e.1 e.2) m

/-- `BTreeMap::append`: every entry of `other` inserted, its values winning. -/
def append (m other : BTreeMap V) : BTreeMap V := m.extend other.toList

/-- `BTreeMap::len`. -/
def len (m : BTreeMap V) : Nat := m.toList.length

/-- The map after a pass that rewrote values in place (`iter_mut`, `range_mut`): the same keys in the same order. -/
def ofSameKeys (m : BTreeMap V) (l : List (Nat × V)) (h : l.map Prod.fst = m.toList.map Prod.fst) : BTreeMap V :=
  ⟨l, by
    have hs : (m.toList.map Prod.fst).Pairwise (· < ·) := List.pairwise_map.2 m.sorted
    rw [← h] at hs
    exact List.pairwise_map.1 hs⟩

/-! ## Entries -/

theorem key_inj_list : ∀ {l : List (Nat × V)}, l.Pairwise (fun a b => a.1 < b.1) →
    ∀ {a b : Nat × V}, a ∈ l → b ∈ l → a.1 = b.1 → a = b
  | [], _, _, _, ha, _, _ => absurd ha (List.not_mem_nil _)
  | e :: l, hs, a, b, ha, hb, h => by
    rw [List.pairwise_cons] at hs
    rw [List.mem_cons] at ha hb
    rcases ha with ha | ha <;> rcases hb with hb | hb
    · exact ha.trans hb.symm
    · exact absurd (hs.1 b hb) (by subst ha; omega)
    · exact absurd (hs.1 a ha) (by subst hb; omega)
    · exact key_inj_list hs.2 ha hb h

theorem key_inj {m : BTreeMap V} {a b : Nat × V} (ha : a ∈ m.toList) (hb : b ∈ m.toList) (h : a.1 = b.1) : a = b :=
  key_inj_list m.sorted ha hb h

@[simp] theorem mem_insert {m : BTreeMap V} {k : Nat} {v : V} {p : Nat × V} :
    p ∈ (m.insert k v).toList ↔ p = (k, v) ∨ (p ∈ m.toList ∧ p.1 ≠ k) := mem_insertList k v p _ m.sorted

@[simp] theorem mem_remove {m : BTreeMap V} {k : Nat} {p : Nat × V} :
    p ∈ (m.remove k).toList ↔ p ∈ m.toList ∧ p.1 ≠ k := by simp [remove]

@[simp] theorem mem_retain {m : BTreeMap V} {q : Nat → V → Bool} {p : Nat × V} :
    p ∈ (m.retain q).toList ↔ p ∈ m.toList ∧ q p.1 p.2 = true := by simp [retain]

@[simp] theorem mem_empty {p : Nat × V} : p ∉ (empty : BTreeMap V).toList := by simp [empty]

@[simp] theorem mem_splitOff_fst {m : BTreeMap V} {k : Nat} {p : Nat × V} :
    p ∈ (m.splitOff k).1.toList ↔ p ∈ m.toList ∧ p.1 < k := by simp [splitOff]

@[simp] theorem mem_splitOff_snd {m : BTreeMap V} {k : Nat} {p : Nat × V} :
    p ∈ (m.splitOff k).2.toList ↔ p ∈ m.toList ∧ k ≤ p.1 := by simp [splitOff]

theorem splitOff_perm (m : BTreeMap V) (k : Nat) : ((m.splitOff k).1.toList ++ (m.splitOff k).2.toList).Perm m.toList := by
  have h : m.toList.filter (k ≤ ·.1) = m.toList.filter fun e => !decide (e.1 < k) :=
    List.filter_congr fun e _ => by simp only [← decide_not, Nat.not_lt]
  simp only [splitOff, h]
  exact List.filter_append_perm _ _

theorem get?_eq_some {m : BTreeMap V} {k : Nat} {v : V} : m.get? k = some v ↔ (k, v) ∈ m.toList := by
  unfold get?
  constructor
  · intro h
    obtain ⟨e, he, rfl⟩ := Option.map_eq_some'.1 h
    have hk : e.1 = k := by simpa using List.find?_some he
    exact hk ▸ List.mem_of_find?_eq_some he
  · intro h
    cases he : m.toList.find? (·.1 == k) with
    | none => exact absurd h (by simpa using List.find?_eq_none.1 he (k, v))
    | some e =>
      have hk : e.1 = k := by simpa using List.find?_some he
      rw [key_inj (List.mem_of_find?_eq_some he) h hk]
      rfl

theorem get?_eq_none {m : BTreeMap V} {k : Nat} : m.get? k = none ↔ ∀ v, (k, v) ∉ m.toList := by
  rw [← not_iff_not, ← ne_eq, Option.ne_none_iff_exists']
  simp [get?_eq_some]

theorem lastBelow_eq_some {m : BTreeMap V} {x : Nat} {e : Nat × V} (h : m.lastBelow x = some e) :
    e ∈ m.toList ∧ e.1 < x ∧ ∀ e' ∈ m.toList, e'.1 < x → e'.1 ≤ e.1 := by
  unfold lastBelow at h
  obtain ⟨ys, hys⟩ := List.getLast?_eq_some_iff.1 h
  have hs : (ys ++ [e]).Pairwise (fun a b : Nat × V => a.1 < b.1) := hys ▸ m.sorted.filter _
  have he : e ∈ m.toList.filter (·.1 < x) := by rw [hys]; simp
  simp only [List.mem_filter, decide_eq_true_eq] at he
  refine ⟨he.1, he.2, fun e' he' hx => ?_⟩
  have : e' ∈ ys ++ [e] := by rw [← hys]; simp [he', hx]
  rcases List.mem_append.1 this with h' | h'
  · exact Nat.le_of_lt ((List.pairwise_append.1 hs).2.2 e' h' e (by simp))
  · simp_all

theorem lastBelow_eq_none {m : BTreeMap V} {x : Nat} : m.lastBelow x = none ↔ ∀ e ∈ m.toList, x ≤ e.1 := by
  simp [lastBelow, List.filter_eq_nil_iff]

theorem lastAtMost_eq_some {m : BTreeMap V} {x : Nat} {e : Nat × V} (h : m.lastAtMost x = some e) :
    e ∈ m.toList ∧ e.1 ≤ x ∧ ∀ e' ∈ m.toList, e'.1 ≤ x → e'.1 ≤ e.1 := by
  have h' : m.lastBelow (x + 1) = some e := by
    rw [lastBelow, ← h, lastAtMost]; congr 1; apply List.filter_congr; intro _ _; simp [Nat.lt_succ_iff]
  obtain ⟨h1, h2, h3⟩ := lastBelow_eq_some h'
  exact ⟨h1, by omega, fun e' he' hx => h3 e' he' (by omega)⟩

theorem lastAtMost_eq_none {m : BTreeMap V} {x : Nat} : m.lastAtMost x = none ↔ ∀ e ∈ m.toList, x < e.1 := by
  simp [lastAtMost, List.filter_eq_nil_iff]

@[simp] theorem mem_rangeFrom {m : BTreeMap V} {x : Nat} {e : Nat × V} :
    e ∈ m.rangeFrom x ↔ e ∈ m.toList ∧ x ≤ e.1 := by simp [rangeFrom]

theorem rangeFrom_sorted (m : BTreeMap V) (x : Nat) : (m.rangeFrom x).Pairwise (fun a b => a.1 < b.1) :=
  m.sorted.filter _

theorem firstAtLeast_eq_some {m : BTreeMap V} {x : Nat} {e : Nat × V} (h : m.firstAtLeast x = some e) :
    e ∈ m.toList ∧ x ≤ e.1 ∧ ∀ e' ∈ m.toList, x ≤ e'.1 → e.1 ≤ e'.1 := by
  unfold firstAtLeast at h
  obtain ⟨ys, hys⟩ := List.head?_eq_some_iff.1 h
  have hs := hys ▸ m.rangeFrom_sorted x
  have he : e ∈ m.rangeFrom x := by rw [hys]; simp
  rw [mem_rangeFrom] at he
  refine ⟨he.1, he.2, fun e' he' hx => ?_⟩
  have : e' ∈ e :: ys := by rw [← hys]; simp [he', hx]
  rcases List.mem_cons.1 this with rfl | h'
  · exact Nat.le_refl _
  · exact Nat.le_of_lt ((List.pairwise_cons.1 hs).1 e' h')

theorem firstAtLeast_eq_none {m : BTreeMap V} {x : Nat} : m.firstAtLeast x = none ↔ ∀ e ∈ m.toList, e.1 < x := by
  simp [firstAtLeast, rangeFrom, List.filter_eq_nil_iff]

/-- **Two lists strictly ordered by a key, with the same members, are the same list.** -/
theorem list_eq_of_mem_iff {α : Type} (key : α → Nat) : ∀ {l l' : List α}, l.Pairwise (fun a b => key a < key b) →
    l'.Pairwise (fun a b => key a < key b) → (∀ p, p ∈ l ↔ p ∈ l') → l = l'
  | [], [], _, _, _ => rfl
  | [], b :: _, _, _, h => by simpa using (h b).2 (by simp)
  | a :: _, [], _, _, h => by simpa using (h a).1 (by simp)
  | a :: l, b :: l', hl, hl', h => by
    rw [List.pairwise_cons] at hl hl'
    have hab : a = b := by
      rcases List.mem_cons.1 ((h a).1 (by simp)) with h1 | h1
      · exact h1
      rcases List.mem_cons.1 ((h b).2 (by simp)) with h2 | h2
      · exact h2.symm
      exact absurd (Nat.lt_trans (hl.1 b h2) (hl'.1 a h1)) (Nat.lt_irrefl _)
    subst hab
    refine congrArg _ (list_eq_of_mem_iff key hl.2 hl'.2 fun p => ?_)
    have hp := h p
    simp only [List.mem_cons] at hp
    constructor
    · intro hp'; rcases hp.1 (.inr hp') with rfl | h'
      · exact absurd (hl.1 _ hp') (Nat.lt_irrefl _)
      · exact h'
    · intro hp'; rcases hp.2 (.inr hp') with rfl | h'
      · exact absurd (hl'.1 _ hp') (Nat.lt_irrefl _)
      · exact h'

theorem eq_of_mem_iff {m m' : BTreeMap V} (h : ∀ p, p ∈ m.toList ↔ p ∈ m'.toList) : m = m' :=
  ext (list_eq_of_mem_iff Prod.fst m.sorted m'.sorted h)

theorem insert_self {m : BTreeMap V} {k : Nat} {v : V} (h : (k, v) ∈ m.toList) : m.insert k v = m :=
  eq_of_mem_iff fun p => by
    rw [mem_insert]
    constructor
    · rintro (rfl | ⟨hp, -⟩)
      · exact h
      · exact hp
    · intro hp
      by_cases hk : p.1 = k
      · exact .inl (key_inj hp h hk)
      · exact .inr ⟨hp, hk⟩

/-- **`extend` by entries of fresh, distinct keys adds them.** -/
theorem mem_extend : ∀ {m : BTreeMap V} {l : List (Nat × V)}, (l.map Prod.fst).Nodup →
    (∀ e ∈ l, ∀ p ∈ m.toList, p.1 ≠ e.1) →
    ∀ {p : Nat × V}, p ∈ (m.extend l).toList ↔ p ∈ m.toList ∨ p ∈ l
  | m, [], _, _, p => by simp [extend]
  | m, e :: l, hn, hf, p => by
    rw [List.map_cons, List.nodup_cons] at hn
    have hfresh : ∀ e' ∈ l, ∀ p' ∈ (m.insert e.1 e.2).toList, p'.1 ≠ e'.1 := by
      intro e' he' p' hp'
      rcases mem_insert.1 hp' with rfl | ⟨hp', -⟩
      · exact fun h => hn.1 (h ▸ List.mem_map_of_mem Prod.fst he')
      · exact hf e' (.tail _ he') p' hp'
    show p ∈ ((m.insert e.1 e.2).extend l).toList ↔ _
    rw [mem_extend hn.2 hfresh, mem_insert, List.mem_cons]
    constructor
    · rintro ((rfl | ⟨hp, -⟩) | hp)
      · exact .inr (.inl rfl)
      · exact .inl hp
      · exact .inr (.inr hp)
    · rintro (hp | rfl | hp)
      · exact .inl (.inr ⟨hp, hf e (List.mem_cons_self _ _) p hp⟩)
      · exact .inl (.inl rfl)
      · exact .inr hp

theorem mem_of_mem_extend : ∀ {m : BTreeMap V} {l : List (Nat × V)} {p : Nat × V}, p ∈ (m.extend l).toList →
    p ∈ m.toList ∨ p ∈ l
  | m, [], p, h => .inl h
  | m, e :: l, p, h => by
    rcases mem_of_mem_extend (m := m.insert e.1 e.2) (l := l) h with h | h
    · rcases mem_insert.1 h with rfl | ⟨h, -⟩
      · exact .inr (List.mem_cons_self _ _)
      · exact .inl h
    · exact .inr (.tail _ h)

/-- **`append` of a map whose keys the other lacks** holds the entries of both. -/
theorem mem_append {m other : BTreeMap V} (h : ∀ p ∈ m.toList, ∀ q ∈ other.toList, p.1 ≠ q.1) {p : Nat × V} :
    p ∈ (m.append other).toList ↔ p ∈ m.toList ∨ p ∈ other.toList :=
  mem_extend (List.pairwise_map.2 (other.sorted.imp Nat.ne_of_lt)) fun e he q hq => h q hq e he

end BTreeMap

end Axmm
