import Axmm.Inv
/-!
# Adjust — `adjust_area` moves the bounds but not the key

`adjust_area` resizes the area under `area_addr` in place.  It never re-keys the area when its start moves, and its
right-hand step sizes the area from `current_start`, the start before the left-hand step.  On a set of one area
`[0x1000, 0x3000)` moved to `[0x2000, 0x4000)` the area stays under `0x1000` and ends at `0x5000`
(`adjustArea_moves_start_keeps_key`); moved to `[0x2000, 2^64 - 0x1000)` its end wraps round to `0`, and the frame
the backend installed at `0x3000` lies outside it (`adjustArea_end_wraps`).

Moving the end alone resizes the area in place to `[start, end)`, through `extend_right` or `shrink_right`; as
nothing compares the new range with the other areas, the set keeps `Inv` exactly when it overlaps none of them
(`adjustArea_end_only`).
-/
namespace Axmm

namespace MemorySet

/-- The set of one area `[0x1000, 0x3000)` with no frames, on a backend whose calls all succeed. -/
def oneArea : MemorySet Fixed Unit Unit :=
  ⟨BTreeMap.empty.insert 0x1000 (MemoryArea.new 0x1000 0x2000 (by decide) none () ⟨true, true, true⟩)⟩

/-- **Both bounds moved**: the area stays under its old key, and its end is off by the distance its start moved. -/
theorem adjustArea_moves_start_keeps_key :
    Inv oneArea ∧ ∃ s', oneArea.adjustArea 0x1000 0x2000 0x4000 () = .ok (s', ()) ∧
      s'.areas.toList.map (fun e => (e.1, e.2.start, e.2.end)) = [(0x1000, 0x2000, 0x5000)] :=
  ⟨by decide, _, rfl, rfl⟩

/-- **The end wraps round**: from the empty set, `insert` then `adjust_area` leave an area `[0x2000, 0)` holding a
frame at `0x3000`, though the backend installs frames only inside the range it maps. -/
theorem adjustArea_end_wraps :
    (∀ (b : Fixed) s n f pt fr, (MappingBackend.map b s n f pt).1 = some fr → ∀ e ∈ fr.toList, s ≤ e.1 ∧ e.1 < s + n) ∧
    ∃ s₁ s₂, (new : MemorySet Fixed Unit Unit).insert (MemoryArea.new 0x1000 0x2000 (by decide) none () ⟨true, true, true⟩)
        false = .ok s₁ ∧
      s₁.adjustArea 0x1000 0x2000 (usizeMax + 1 - 0x1000) () = .ok (s₂, ()) ∧
      s₂.areas.toList.map (fun e => (e.1, e.2.start, e.2.end, e.2.frames.toList.map Prod.fst)) =
        [(0x1000, 0x2000, 0, [0x3000])] := by
  refine ⟨fun b s n f pt fr h e he => ?_, _, _, rfl, rfl, rfl⟩
  simp only [MappingBackend.map] at h
  split at h
  · split at h
    · cases h
      obtain rfl : e = (s, ()) := by simpa using he
      exact ⟨Nat.le_refl _, by simp only; omega⟩
    · cases h; simp at he
  · cases h

/-! ## Moving the end alone -/

variable {B F PT FR : Type} [MappingBackend B F PT FR] {s : MemorySet B F FR} {k «end» : Nat} {a : MemoryArea B F FR}

/-- With its start left where it is, `adjust_area` resizes the area on the right alone. -/
theorem adjustArea_of_start_eq (he : (k, a) ∈ s.areas.toList) (hk : isAligned4k a.start = true)
    (hend : isAligned4k «end» = true) (hlt : a.start < «end») (pt : PT) :
    s.adjustArea k a.start «end» pt =
      (if «end» ≠ a.end then
        if «end» > a.end then a.extendRight («end» - a.start) pt else a.shrinkRight («end» - a.start) pt
      else .ok (a, pt)).map fun (area, pt) => (⟨s.areas.insert k area⟩, pt) := by
  unfold adjustArea
  rw [BTreeMap.get?_eq_some.2 he]
  simp only [hk, hend, Bool.not_true, Bool.false_eq_true, if_false, ge_iff_le, if_neg (Nat.not_le.2 hlt), ne_eq,
    not_true_eq_false, subAddr_of_le (Nat.le_of_lt hlt), Outcome.ok_bind]

/-- **Moving only the end resizes the area in place, and checks nothing against the other areas.**  On a set under
`Inv`, `adjust_area` of an area, under its start, to `[start, end)` with `end` above the start and both 4K-aligned,
returns `Ok` when the area's backend maps and unmaps, with the area now `[start, end)` and its flags and backend as
they were.  The set it returns keeps `Inv` exactly when the new range overlaps no other area. -/
theorem adjustArea_end_only (hs : Inv s) (he : (k, a) ∈ s.areas.toList) (hk : isAligned4k a.start = true)
    (hend : isAligned4k «end» = true) (hlt : a.start < «end») (hmax : «end» ≤ usizeMax)
    (hm : ∀ lo n f (pt : PT), (MappingBackend.map a.backend lo n f pt).1.isSome)
    (hu : ∀ lo n (pt : PT), (MappingBackend.unmap a.backend lo n pt).1 = true) (pt : PT) :
    ∃ a' pt', s.adjustArea k a.start «end» pt = .ok (⟨s.areas.insert k a'⟩, pt') ∧
      a'.start = a.start ∧ a'.end = «end» ∧ a'.flags = a.flags ∧ a'.backend = a.backend ∧
      (Inv (⟨s.areas.insert k a'⟩ : MemorySet B F FR) ↔
        ∀ e ∈ s.areas.toList, e.1 ≠ k → e.2.vaRange.overlaps a'.vaRange = false) := by
  have hle : a.start < a.end := hs.nonempty _ he
  obtain ⟨a', pt', h, h1, h2, h3, h4⟩ : ∃ a' pt', s.adjustArea k a.start «end» pt = .ok (⟨s.areas.insert k a'⟩, pt') ∧
      a'.start = a.start ∧ a'.end = «end» ∧ a'.flags = a.flags ∧ a'.backend = a.backend := by
    rw [adjustArea_of_start_eq he hk hend hlt]
    by_cases hne : «end» = a.end
    · subst hne
      exact ⟨a, pt, by rw [if_neg fun h => h rfl]; rfl, rfl, rfl, rfl, rfl⟩
    rw [if_pos hne]
    by_cases hgt : «end» > a.end
    · -- the backend maps `[end, new end)`
      rw [if_pos hgt, a.extendRight_eq pt (Nat.le_of_lt hle) (by omega) (by omega)]
      rcases hmp : MappingBackend.map a.backend a.end («end» - a.start - (a.end - a.start)) a.flags pt with
        ⟨_ | fr, pt₁⟩
      · have := hm a.end («end» - a.start - (a.end - a.start)) a.flags pt
        rw [hmp] at this
        cases this
      · exact ⟨_, pt₁, rfl, rfl, show a.start + («end» - a.start) = «end» by omega, rfl, rfl⟩
    · -- the backend unmaps `[new end, end)`
      rw [if_neg hgt, a.shrinkRight_eq pt (Nat.le_of_lt hle) (by omega) (by omega)]
      rcases hup : MappingBackend.unmap a.backend (a.start + («end» - a.start)) (a.end - a.start - («end» - a.start))
        pt with ⟨_ | _, pt₁⟩
      · have := hu (a.start + («end» - a.start)) (a.end - a.start - («end» - a.start)) pt
        rw [hup] at this
        cases this
      · exact ⟨_, pt₁, rfl, rfl, show a.start + («end» - a.start) = «end» by omega, rfl, rfl⟩
  -- `adjust_area` never compares the new range with the other areas
  exact ⟨a', pt', h, h1, h2, h3, h4, Inv.apart_of_insert,
    hs.insert ((hs.key_eq _ he).trans h1.symm) (by rw [h1, h2]; exact hlt)⟩

/-- On `oneArea`, moving the end of `[0x1000, 0x3000)` to `0x5000` returns `Ok` with `[0x1000, 0x5000)`. -/
theorem adjustArea_end_only_oneArea :
    let a : MemoryArea Fixed Unit Unit := MemoryArea.new 0x1000 0x2000 (by decide) none () ⟨true, true, true⟩
    ∃ a' pt', oneArea.adjustArea 0x1000 a.start 0x5000 () = .ok (⟨oneArea.areas.insert 0x1000 a'⟩, pt') ∧
      a'.start = a.start ∧ a'.end = 0x5000 ∧ a'.flags = a.flags ∧ a'.backend = a.backend ∧
      (Inv (⟨oneArea.areas.insert 0x1000 a'⟩ : MemorySet Fixed Unit Unit) ↔
        ∀ e ∈ oneArea.areas.toList, e.1 ≠ 0x1000 → e.2.vaRange.overlaps a'.vaRange = false) := by
  intro a
  exact adjustArea_end_only (a := a) (by decide) (List.Mem.head _) (by decide) (by decide) (by decide) (by decide)
    (fun _ _ _ _ => by rfl) (fun _ _ _ => by rfl) ()

end MemorySet

end Axmm
