import Axmm.Inv
/-!
# FreeArea — what `find_free_area` returns, and the limit it checks only after the last area

`find_free_area` first moves `last_end` past the area across `max hint limit.start`, then walks the areas from there
and returns the first gap that fits.  On a set under `Inv` the range it returns starts at or after the hint and
`limit.start`, does not pass `usize::MAX`, and meets no area (`findFreeArea_free`), from one lemma about the set-up
before the loop (`findFreeArea_eq_loop`) and one about the loop (`findFreeAreaLoop_free`).

Inside its loop it compares `last_end + size` with the next area's start only; `limit.end` is read after the loop
alone.  A gap below an area that lies beyond the limit is returned though it does not fit in the limit
(`findFreeArea_past_limit`).
-/
namespace Axmm

namespace MemorySet

variable {B F FR : Type}

/-- The loop returns an address at or after `lastEnd` whose range of `size` bytes meets no area of the list, when the
areas are apart, each keyed by its start and none starting before `lastEnd`. -/
theorem findFreeAreaLoop_free (size : Nat) (limit : AddrRange) :
    ∀ (l : List (Nat × MemoryArea B F FR)) (lastEnd r : Nat), l.Pairwise (fun a b => a.2.end ≤ b.2.start) →
      (∀ e ∈ l, e.1 = e.2.start ∧ lastEnd ≤ e.2.start ∧ e.2.start ≤ e.2.end) →
      findFreeAreaLoop size limit l lastEnd = some r →
      lastEnd ≤ r ∧ r + size ≤ usizeMax ∧ ∀ e ∈ l, e.2.end ≤ r ∨ r + size ≤ e.2.start
  | [], lastEnd, r, _, _, h => by
    rw [findFreeAreaLoop] at h
    split_ifs at h with hc
    obtain rfl : lastEnd = r := Option.some.inj h
    exact ⟨Nat.le_refl _, (checkedAdd_any_le.1 hc).1, fun _ he => absurd he (List.not_mem_nil _)⟩
  | (addr, area) :: rest, lastEnd, r, hl, he, h => by
    obtain ⟨hk, hle, hse⟩ : addr = area.start ∧ lastEnd ≤ area.start ∧ area.start ≤ area.end :=
      he _ (List.mem_cons_self _ _)
    obtain ⟨hafter, hrest⟩ : (∀ e ∈ rest, area.end ≤ e.2.start) ∧ rest.Pairwise (fun a b => a.2.end ≤ b.2.start) :=
      List.pairwise_cons.1 hl
    rw [findFreeAreaLoop] at h
    split_ifs at h with hc
    · -- the gap before `area` fits, and every later area starts after `area`
      obtain rfl : lastEnd = r := Option.some.inj h
      obtain ⟨hmax, hfit⟩ := checkedAdd_any_le.1 hc
      refine ⟨Nat.le_refl _, hmax, fun e he' => .inr ?_⟩
      rcases List.mem_cons.1 he' with rfl | he'
      · exact hk ▸ hfit
      · have := hafter e he'
        omega
    · obtain ⟨h1, h2, h3⟩ := findFreeAreaLoop_free size limit rest area.end r hrest
        (fun e he' => ⟨(he e (.tail _ he')).1, hafter e he', (he e (.tail _ he')).2.2⟩) h
      refine ⟨by omega, h2, fun e he' => ?_⟩
      rcases List.mem_cons.1 he' with rfl | he'
      · exact .inl h1
      · exact h3 e he'

/-- **The loop returns the first gap that fits.**  For an address at or after `lastEnd` whose `size` bytes meet no
area of the list and do not pass `usize::MAX`, the loop returns that address or one before it, or nothing, when those
bytes pass `limit.end`. -/
theorem findFreeAreaLoop_le_free (size : Nat) (limit : AddrRange) {x : Nat} (hmax : x + size ≤ usizeMax) :
    ∀ (l : List (Nat × MemoryArea B F FR)) (lastEnd : Nat), (∀ e ∈ l, e.1 = e.2.start) → lastEnd ≤ x →
      (∀ e ∈ l, e.2.end ≤ x ∨ x + size ≤ e.2.start) →
      (∃ r, findFreeAreaLoop size limit l lastEnd = some r ∧ r ≤ x) ∨
        (findFreeAreaLoop size limit l lastEnd = none ∧ limit.end < x + size)
  | [], lastEnd, _, hle, _ => by
    rw [findFreeAreaLoop]
    split_ifs with hc
    · exact .inl ⟨_, rfl, hle⟩
    · exact .inr ⟨rfl, Nat.lt_of_not_le fun hlim => hc (checkedAdd_any_le.2 ⟨by omega, by omega⟩)⟩
  | (addr, area) :: rest, lastEnd, hk, hle, hfree => by
    rw [findFreeAreaLoop]
    split_ifs with hc
    · exact .inl ⟨_, rfl, hle⟩
    · -- the bytes from `lastEnd` run into `area`, so those from `x` lie past it
      have hka : addr = area.start := hk _ (List.mem_cons_self _ _)
      have hx : area.end ≤ x ∨ x + size ≤ area.start := hfree _ (List.mem_cons_self _ _)
      have hend : area.end ≤ x := hx.resolve_right fun h => hc (checkedAdd_any_le.2 ⟨by omega, by omega⟩)
      exact findFreeAreaLoop_le_free size limit hmax rest area.end (fun e he => hk e (.tail _ he)) hend
        (fun e he => hfree e (.tail _ he))

variable {s : MemorySet B F FR}

/-- Before the loop, `last_end` is moved past the area across `max hint limit.start`: every area keyed below it ends
by it, and every address it skips lies inside that area. -/
theorem findFreeArea_eq_loop (hs : Inv s) (hint size : Nat) (limit : AddrRange) :
    ∃ y, max hint limit.start ≤ y ∧ (∀ e ∈ s.areas.toList, e.1 < y → e.2.end ≤ y) ∧
      (∀ x, max hint limit.start ≤ x → x < y → ∃ e ∈ s.areas.toList, e.2.start < x ∧ x < e.2.end) ∧
      s.findFreeArea hint size limit = findFreeAreaLoop size limit (s.areas.rangeFrom y) y := by
  cases hb : s.areas.lastBelow (max hint limit.start) with
  | none =>
    exact ⟨_, Nat.le_refl _, fun e he hlt => absurd (BTreeMap.lastBelow_eq_none.1 hb e he) (Nat.not_le.2 hlt),
      fun x hx hxy => absurd hxy (Nat.not_lt.2 hx), by simp only [findFreeArea, hb]⟩
  | some b =>
    obtain ⟨k, prev⟩ := b
    obtain ⟨hm, hk, hmax⟩ := BTreeMap.lastBelow_eq_some hb
    have hkp : k = prev.start := hs.key_eq _ hm
    refine ⟨max (max hint limit.start) prev.end, Nat.le_max_left _ _, fun e he hlt => ?_,
      fun x hx hxy => ⟨_, hm, by simp only at hk ⊢; omega, by simp only; omega⟩, by simp only [findFreeArea, hb]⟩
    have hke := hs.key_eq e he
    have hne := hs.nonempty _ hm
    simp only at hk hmax hne
    -- areas keyed below `prev` end before it; none is keyed between `prev` and its end
    rcases Nat.lt_trichotomy e.1 k with hlt' | rfl | hgt
    · have := hs.end_le_start he hm hlt'
      simp only at this
      omega
    · rw [BTreeMap.key_inj he hm rfl]
      exact Nat.le_max_right _ _
    · have := hs.end_le_start hm he hgt
      have hx : ¬e.1 < max hint limit.start := fun h' => absurd (hmax e he h') (Nat.not_le.2 hgt)
      simp only at this
      omega

/-- **`find_free_area` returns a free range at or after the hint**: on a set under `Inv`, the address it returns is at
or after `hint` and `limit.start`, `size` bytes from it do not pass `usize::MAX`, and no area meets them. -/
theorem findFreeArea_free {hint size r : Nat} {limit : AddrRange} (hs : Inv s)
    (h : s.findFreeArea hint size limit = some r) :
    hint ≤ r ∧ limit.start ≤ r ∧ r + size ≤ usizeMax ∧
      ∀ e ∈ s.areas.toList, e.2.end ≤ r ∨ r + size ≤ e.2.start := by
  obtain ⟨y, hy, hbelow, -, heq⟩ := findFreeArea_eq_loop hs hint size limit
  rw [heq] at h
  obtain ⟨h1, h2, h3⟩ := findFreeAreaLoop_free size limit _ y r
    ((s.areas.rangeFrom_sorted y).imp_of_mem fun ha hb hab =>
      hs.end_le_start (BTreeMap.mem_rangeFrom.1 ha).1 (BTreeMap.mem_rangeFrom.1 hb).1 hab)
    (fun e he => have he := BTreeMap.mem_rangeFrom.1 he
      ⟨hs.key_eq e he.1, hs.key_eq e he.1 ▸ he.2, Nat.le_of_lt (hs.nonempty e he.1)⟩) h
  refine ⟨by omega, by omega, h2, fun e he => ?_⟩
  -- the loop saw the areas from `y` on; those keyed below end by `y`
  by_cases hey : y ≤ e.1
  · exact h3 e (BTreeMap.mem_rangeFrom.2 ⟨he, hey⟩)
  · exact .inl (Nat.le_trans (hbelow e he (Nat.lt_of_not_le hey)) h1)

/-- With one area at `[0x10000, 0x11000)`, a hint inside it gives the address where the area ends. -/
theorem findFreeArea_free_pastArea :
    let s : MemorySet Fixed Unit Unit :=
      ⟨BTreeMap.empty.insert 0x10000 (MemoryArea.new 0x10000 0x1000 (by decide) none () ⟨true, true, true⟩)⟩
    Inv s ∧ s.findFreeArea 0x10800 0x1000 ⟨0, 0x100000, by decide, by decide⟩ = some 0x11000 ∧
      (0x10800 ≤ 0x11000 ∧ 0 ≤ 0x11000 ∧ 0x11000 + 0x1000 ≤ usizeMax ∧
        ∀ e ∈ s.areas.toList, e.2.end ≤ 0x11000 ∨ 0x11000 + 0x1000 ≤ e.2.start) :=
  ⟨by decide, rfl, @findFreeArea_free _ _ _ _ _ _ _ ⟨0, 0x100000, by decide, by decide⟩ (by decide) (by rfl)⟩

/-- **`find_free_area` is first fit.**  On a set under `Inv`, for every address at or after `hint` and `limit.start`
whose `size` bytes meet no area and do not pass `usize::MAX`, it returns that address or one before it, or `None`
when those bytes pass `limit.end`.  As what it returns is itself such an address, it is the lowest one; and `None`
means that no free range from `max hint limit.start` ends by `limit.end`. -/
theorem findFreeArea_first_fit (hs : Inv s) (hint size : Nat) (limit : AddrRange) {x : Nat}
    (hx : max hint limit.start ≤ x) (hmax : x + size ≤ usizeMax)
    (hfree : ∀ e ∈ s.areas.toList, e.2.end ≤ x ∨ x + size ≤ e.2.start) :
    (∃ r, s.findFreeArea hint size limit = some r ∧ r ≤ x) ∨
      (s.findFreeArea hint size limit = none ∧ limit.end < x + size) := by
  obtain ⟨y, -, -, hskip, heq⟩ := findFreeArea_eq_loop hs hint size limit
  -- an address skipped before the loop lies inside an area, so `x` is not one
  have hyx : y ≤ x := Nat.le_of_not_lt fun hxy => by
    obtain ⟨e, he, h1, h2⟩ := hskip x hx hxy
    have := hfree e he
    omega
  rw [heq]
  exact findFreeAreaLoop_le_free size limit hmax _ y (fun e he => hs.key_eq e (BTreeMap.mem_rangeFrom.1 he).1) hyx
    fun e he => hfree e (BTreeMap.mem_rangeFrom.1 he).1

/-- With one area at `[0x10000, 0x11000)` and a hint inside it, the free address `0x20000` bounds what is returned. -/
theorem findFreeArea_first_fit_pastArea :
    let s : MemorySet Fixed Unit Unit :=
      ⟨BTreeMap.empty.insert 0x10000 (MemoryArea.new 0x10000 0x1000 (by decide) none () ⟨true, true, true⟩)⟩
    (∃ r, s.findFreeArea 0x10800 0x1000 ⟨0, 0x100000, by decide, by decide⟩ = some r ∧ r ≤ 0x20000) ∨
      (s.findFreeArea 0x10800 0x1000 ⟨0, 0x100000, by decide, by decide⟩ = none ∧ 0x100000 < 0x20000 + 0x1000) :=
  findFreeArea_first_fit (by decide) 0x10800 0x1000 ⟨0, 0x100000, by decide, by decide⟩ (by decide) (by decide)
    (by decide)

/-- **A gap past `limit.end`**: with one area at `[0x10000, 0x11000)`, asking for `0x2000` bytes within
`[0, 0x1000)` returns `0`, and `[0, 0x2000)` is not inside the limit. -/
theorem findFreeArea_past_limit :
    let s : MemorySet Fixed Unit Unit :=
      ⟨BTreeMap.empty.insert 0x10000 (MemoryArea.new 0x10000 0x1000 (by decide) none () ⟨true, true, true⟩)⟩
    Inv s ∧ s.findFreeArea 0 0x2000 ⟨0, 0x1000, by decide, by decide⟩ = some 0 ∧ ¬ 0 + 0x2000 ≤ 0x1000 :=
  ⟨by decide, rfl, by decide⟩

end MemorySet

end Axmm
