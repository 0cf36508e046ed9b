import Axmm.Area
/-!
# Set — `MemorySet` (set.rs)

The set is its `BTreeMap` of areas.  Lookups read at most two neighbours of a key; the mutations are the source's,
step by step: `unmap` in its three phases (`unmapContained`, `unmapBefore`, `unmapAfter`), `protect` as its loop
over `iter_mut()` (`protectLoop`) followed by `extend(to_insert)`, `clear` as its loop over `iter_mut()`.  A call on
an area reached through `range_mut`, `get_mut` or `find_mut` writes the area back under the key it was found at.
The `Debug` implementation is left out.
-/
namespace Axmm

/-- `MemorySet`. -/
structure MemorySet (B F FR : Type) where
  areas : BTreeMap (MemoryArea B F FR)

namespace MemorySet

variable {B F PT FR : Type}

/-- `MemorySet::new`. -/
def new : MemorySet B F FR := ⟨BTreeMap.empty⟩

/-- `MemorySet::len`. -/
def len (s : MemorySet B F FR) : Nat := s.areas.len

/-- `MemorySet::is_empty`. -/
def isEmpty (s : MemorySet B F FR) : Bool := s.areas.len == 0

/-- `MemorySet::iter`. -/
def iter (s : MemorySet B F FR) : List (MemoryArea B F FR) := s.areas.toList.map Prod.snd

/-- `MemorySet::overlaps`: only the areas keyed last below `range.start` and first from it are looked at. -/
def overlaps (s : MemorySet B F FR) (range : AddrRange) : Bool :=
  (match s.areas.lastBelow range.start with
   | some (_, before) => before.vaRange.overlaps range
   | none => false) ||
  (match s.areas.firstAtLeast range.start with
   | some (_, after) => after.vaRange.overlaps range
   | none => false)

/-- `MemorySet::find`: the area keyed last at or below `addr`, if it contains `addr`. -/
def find (s : MemorySet B F FR) (addr : Nat) : Option (MemoryArea B F FR) :=
  ((s.areas.lastAtMost addr).map Prod.snd).filter fun a => a.vaRange.contains addr

/-- `MemorySet::find_mut`: the same area, with the key under which it is mutated. -/
def findMut (s : MemorySet B F FR) (addr : Nat) : Option (Nat × MemoryArea B F FR) :=
  (s.areas.lastAtMost addr).filter fun e => e.2.vaRange.contains addr

/-- The `for` loop of `find_free_area` over `range(last_end..)`, from the area at hand on. -/
def findFreeAreaLoop (size : Nat) (limit : AddrRange) : List (Nat × MemoryArea B F FR) → Nat → Option Nat
  | [], lastEnd => if (checkedAdd lastEnd size).any (· ≤ limit.end) then some lastEnd else none
  | (addr, area) :: rest, lastEnd =>
    if (checkedAdd lastEnd size).any (· ≤ addr) then some lastEnd else findFreeAreaLoop size limit rest area.end

/-- `MemorySet::find_free_area`. -/
def findFreeArea (s : MemorySet B F FR) (hint size : Nat) (limit : AddrRange) : Option Nat :=
  let lastEnd := max hint limit.start
  let lastEnd :=
    match s.areas.lastBelow lastEnd with
    | some (_, area) => max lastEnd area.end
    | none => lastEnd
  findFreeAreaLoop size limit (s.areas.rangeFrom lastEnd) lastEnd

/-- `MemorySet::insert`, with the empty-range check made twice as in the source. -/
def insert (s : MemorySet B F FR) (area : MemoryArea B F FR) (unmapOverlap : Bool) : Outcome (MemorySet B F FR) :=
  if area.vaRange.isEmpty then .err .InvalidParam s
  else if area.vaRange.isEmpty then .err .InvalidParam s
  else if s.overlaps area.vaRange && !unmapOverlap then .err .AlreadyExists s
  else if (s.areas.get? area.start).isSome then .panic
  else .ok ⟨s.areas.insert area.start area⟩

/-- `MemorySet::delete`. -/
def delete (s : MemorySet B F FR) (vaddr : Nat) : MemorySet B F FR := ⟨s.areas.remove vaddr⟩

variable [MappingBackend B F PT FR]

/-- The closure `retain` runs in `unmap`'s first phase, over the areas in key order: each area the range contains
is unmapped, and `unwrap` panics (`none`) on a failed unmap.  The areas `retain` keeps are those it does not
contain. -/
def unmapContained (range : AddrRange) : List (Nat × MemoryArea B F FR) → PT → Option PT
  | [], pt => some pt
  | (_, area) :: rest, pt =>
    if area.vaRange.containedIn range then
      match area.unmapArea pt with
      | .ok (_, pt) => unmapContained range rest pt
      | _ => none
    else unmapContained range rest pt

/-- `unmap`'s second phase: the area keyed last below `start`, shrunk on the right, or split around the hole and
its right part put back at `end`. -/
def unmapBefore (start «end» : Nat) (s : MemorySet B F FR) (pt : PT) : Outcome (MemorySet B F FR × PT) :=
  match s.areas.lastBelow start with
  | none => .ok (s, pt)
  | some (beforeStart, before) =>
    let beforeEnd := before.end
    if beforeEnd > start then
      if beforeEnd ≤ «end» then
        match subAddr start beforeStart with
        | none => .panic
        | some n => (before.shrinkRight n pt).map fun (before, pt) => (⟨s.areas.insert beforeStart before⟩, pt)
      else
        match before.split «end» with
        | none => .panic
        | some (before, rightPart) =>
          match subAddr start beforeStart with
          | none => .panic
          | some n =>
            ((before.shrinkRight n pt).map fun (before, pt) => (⟨s.areas.insert beforeStart before⟩, pt)).bind
              fun (s, pt) => if rightPart.start = «end» then .ok (⟨s.areas.insert «end» rightPart⟩, pt) else .panic
    else .ok (s, pt)

/-- `unmap`'s third phase: the area keyed first from `start`, if it starts before `end`, taken out, shrunk on the
left and put back at `end`. -/
def unmapAfter (start «end» : Nat) (s : MemorySet B F FR) (pt : PT) : Outcome (MemorySet B F FR × PT) :=
  match s.areas.firstAtLeast start with
  | none => .ok (s, pt)
  | some (afterStart, after) =>
    let afterEnd := after.end
    if afterStart < «end» then
      match s.areas.get? afterStart with
      | none => .panic
      | some newArea =>
        let s : MemorySet B F FR := ⟨s.areas.remove afterStart⟩
        match subAddr afterEnd «end» with
        | none => .panic
        | some n =>
          match newArea.shrinkLeft n pt with
          | .panic => .panic
          | .err e (_, pt) => .err e (s, pt)
          | .ok (newArea, pt) => if newArea.start = «end» then .ok (⟨s.areas.insert «end» newArea⟩, pt) else .panic
    else .ok (s, pt)

/-- `MemorySet::unmap`. -/
def unmap (s : MemorySet B F FR) (start size : Nat) (pt : PT) : Outcome (MemorySet B F FR × PT) :=
  match AddrRange.tryFromStartSize start size with
  | none => .err .InvalidParam (s, pt)
  | some range =>
    if range.isEmpty then .ok (s, pt) else
    let «end» := range.end
    match unmapContained range s.areas.toList pt with
    | none => .panic
    | some pt =>
      let s : MemorySet B F FR := ⟨s.areas.retain fun _ area => !area.vaRange.containedIn range⟩
      (unmapBefore start «end» s pt).bind fun (s, pt) => unmapAfter start «end» s pt

/-- `MemorySet::map`. -/
def map (s : MemorySet B F FR) (area : MemoryArea B F FR) (pt : PT) (unmapOverlap : Bool)
    (overwriteFlags : Option F) : Outcome (MemorySet B F FR × PT) :=
  if area.vaRange.isEmpty then .err .InvalidParam (s, pt) else
  let cleared : Outcome (MemorySet B F FR × PT) :=
    if s.overlaps area.vaRange then
      if unmapOverlap then
        match area.size with
        | none => .panic
        | some size => s.unmap area.start size pt
      else .err .AlreadyExists (s, pt)
    else .ok (s, pt)
  cleared.bind fun (s, pt) =>
    match area.mapArea pt overwriteFlags with
    | .panic => .panic
    | .err e (_, pt) => .err e (s, pt)
    | .ok (area, pt) => if (s.areas.get? area.start).isSome then .panic else .ok (⟨s.areas.insert area.start area⟩, pt)

/-- `MemorySet::adjust_area`: the area under `areaAddr` resized in place, the left side first, then the right. -/
def adjustArea (s : MemorySet B F FR) (areaAddr start «end» : Nat) (pt : PT) : Outcome (MemorySet B F FR × PT) :=
  match s.areas.get? areaAddr with
  | none => .panic
  | some area =>
    if !isAligned4k start then .panic else
    if !isAligned4k «end» then .panic else
    if start ≥ «end» then .err .InvalidParam (s, pt) else
    let currentStart := area.start
    let currentEnd := area.end
    let left : Outcome (MemoryArea B F FR × PT) :=
      if start ≠ currentStart then
        if start < currentStart then
          match subAddr currentEnd start with
          | none => .panic
          | some n => area.extendLeft n pt
        else
          match subAddr currentEnd start with
          | none => .panic
          | some n => area.shrinkLeft n pt
      else .ok (area, pt)
    let right := left.bind fun (area, pt) =>
      if «end» ≠ currentEnd then
        if «end» > currentEnd then
          match subAddr «end» currentStart with
          | none => .panic
          | some n => area.extendRight n pt
        else
          match subAddr «end» currentStart with
          | none => .panic
          | some n => area.shrinkRight n pt
      else .ok (area, pt)
    right.map fun (area, pt) => (⟨s.areas.insert areaAddr area⟩, pt)

/-- The loop of `clear` over `iter_mut()`: each area unmapped in key order, its frames dropped; `?` stops it. -/
def clearLoop : List (Nat × MemoryArea B F FR) → PT → Outcome (List (Nat × MemoryArea B F FR) × PT)
  | [], pt => .ok ([], pt)
  | (k, area) :: rest, pt =>
    match area.unmapArea pt with
    | .panic => .panic
    | .err e (area, pt) => .err e ((k, area) :: rest, pt)
    | .ok (area, pt) => (clearLoop rest pt).map fun (l, pt) => ((k, area) :: l, pt)

theorem clearLoop_keys : ∀ {l l' : List (Nat × MemoryArea B F FR)} {pt pt' : PT} {e : MappingError},
    clearLoop l pt = .err e (l', pt') → l'.map Prod.fst = l.map Prod.fst
  | [], _, _, _, _, h => by simp [clearLoop] at h
  | (k, area) :: rest, l', pt, pt', e, h => by
    unfold clearLoop at h
    split at h
    · cases h
    · cases h; rfl
    · rename_i area' pt'' _
      cases hr : clearLoop rest pt'' with
      | panic => rw [hr] at h; cases h
      | ok s => rw [hr] at h; cases h
      | err e' s =>
        rw [hr] at h
        cases h
        simp [clearLoop_keys hr]

/-- `MemorySet::clear`. -/
def clear (s : MemorySet B F FR) (pt : PT) : Outcome (MemorySet B F FR × PT) :=
  match h : clearLoop s.areas.toList pt with
  | .panic => .panic
  | .err e (l, pt) => .err e (⟨s.areas.ofSameKeys l (clearLoop_keys h)⟩, pt)
  | .ok (_, pt) => .ok (⟨BTreeMap.empty⟩, pt)

/-- The loop of `protect` over `iter_mut()`, from the area at hand on: the areas as it leaves them, the areas it
stages in `to_insert`, and the page table.  `break` leaves the rest untouched; `?` stops it, and `to_insert` is
dropped. -/
def protectLoop (start «end» : Nat) (updateFlags : F → Option F) :
    List (Nat × MemoryArea B F FR) → PT →
      Outcome (List (Nat × MemoryArea B F FR) × List (Nat × MemoryArea B F FR) × PT)
  | [], pt => .ok ([], [], pt)
  | (areaStart, area) :: rest, pt =>
    let areaEnd := area.end
    let next (area : MemoryArea B F FR) (staged : List (Nat × MemoryArea B F FR)) (pt : PT) :=
      (protectLoop start «end» updateFlags rest pt).map fun (l, toInsert, pt) =>
        ((areaStart, area) :: l, staged ++ toInsert, pt)
    match updateFlags area.flags with
    | none => next area [] pt
    | some newFlags =>
      if areaStart ≥ «end» then .ok ((areaStart, area) :: rest, [], pt)
      else if areaEnd ≤ start then next area [] pt
      else if areaStart ≥ start ∧ areaEnd ≤ «end» then
        match area.protectArea newFlags pt with
        | .panic => .panic
        | .err e (area, pt) => .err e ((areaStart, area) :: rest, [], pt)
        | .ok (area, pt) => next (area.setFlags newFlags) [] pt
      else if areaStart < start ∧ areaEnd > «end» then
        match area.split «end» with
        | none => .panic
        | some (area, rightPart) =>
          match area.split start with
          | none => .panic
          | some (area, middlePart) =>
            match middlePart.protectArea newFlags pt with
            | .panic => .panic
            | .err e (_, pt) => .err e ((areaStart, area) :: rest, [], pt)
            | .ok (middlePart, pt) =>
              next area [(rightPart.start, rightPart), (middlePart.start, middlePart.setFlags newFlags)] pt
      else if areaEnd > «end» then
        match area.split «end» with
        | none => .panic
        | some (area, rightPart) =>
          match area.protectArea newFlags pt with
          | .panic => .panic
          | .err e (area, pt) => .err e ((areaStart, area) :: rest, [], pt)
          | .ok (area, pt) => next (area.setFlags newFlags) [(rightPart.start, rightPart)] pt
      else
        match area.split start with
        | none => .panic
        | some (area, rightPart) =>
          match rightPart.protectArea newFlags pt with
          | .panic => .panic
          | .err e (_, pt) => .err e ((areaStart, area) :: rest, [], pt)
          | .ok (rightPart, pt) => next area [(rightPart.start, rightPart.setFlags newFlags)] pt

/-- The keys `protectLoop` leaves, after `Ok` or `Err`, are the keys it was given. -/
def LoopKeys (l : List (Nat × MemoryArea B F FR))
    (o : Outcome (List (Nat × MemoryArea B F FR) × List (Nat × MemoryArea B F FR) × PT)) : Prop :=
  ∀ l' t pt', o.state? = some (l', t, pt') → l'.map Prod.fst = l.map Prod.fst

theorem protectLoop_keys (start «end» : Nat) (updateFlags : F → Option F) :
    ∀ (l : List (Nat × MemoryArea B F FR)) (pt : PT), LoopKeys l (protectLoop start «end» updateFlags l pt)
  | [], pt => by intro l' t pt' h; cases h; rfl
  | (areaStart, area) :: rest, pt => by
    have ih := protectLoop_keys start «end» updateFlags rest
    have hnext : ∀ (a : MemoryArea B F FR) staged (pt : PT), LoopKeys ((areaStart, area) :: rest)
        ((protectLoop start «end» updateFlags rest pt).map fun (l, toInsert, pt) =>
          ((areaStart, a) :: l, staged ++ toInsert, pt)) := by
      intro a staged pt l' t pt' h
      rw [Outcome.state?_map, Option.map_eq_some'] at h
      obtain ⟨⟨l₀, t₀, p₀⟩, h₀, h⟩ := h
      simp only [Prod.mk.injEq] at h
      obtain ⟨rfl, -, -⟩ := h
      simp [ih pt l₀ t₀ p₀ h₀]
    intro l' t pt' h
    simp only [protectLoop] at h
    repeat' split at h
    all_goals first
      | exact hnext _ _ _ l' t pt' h
      | (simp only [Outcome.state?, Option.some.injEq, Prod.mk.injEq] at h; obtain ⟨rfl, -, -⟩ := h; rfl)
      | simp [Outcome.state?] at h

/-- `MemorySet::protect`. -/
def protect (s : MemorySet B F FR) (start size : Nat) (updateFlags : F → Option F) (pt : PT) :
    Outcome (MemorySet B F FR × PT) :=
  match checkedAdd start size with
  | none => .err .InvalidParam (s, pt)
  | some «end» =>
    match h : protectLoop start «end» updateFlags s.areas.toList pt with
    | .panic => .panic
    | .err e (l, _, pt) =>
      .err e (⟨s.areas.ofSameKeys l (protectLoop_keys _ _ _ _ _ l _ pt (by rw [h]; rfl))⟩, pt)
    | .ok (l, toInsert, pt) =>
      .ok (⟨(s.areas.ofSameKeys l (protectLoop_keys _ _ _ _ _ l toInsert pt (by rw [h]; rfl))).extend toInsert⟩, pt)

/-- `MemorySet::insert_frame` (`RAII`), with the frame it replaced; `none` when `debug_assert!` panics. -/
def insertFrame (s : MemorySet B F FR) (vaddr : Nat) (frame : FR) : Option (Option FR × MemorySet B F FR) :=
  match s.findMut vaddr with
  | none => some (none, s)
  | some (k, area) => (area.insertFrame vaddr frame).map fun (old, area) => (old, ⟨s.areas.insert k area⟩)

/-- `MemorySet::find_frame` (`RAII`); `none` when `debug_assert!` panics. -/
def findFrame (s : MemorySet B F FR) (vaddr : Nat) : Option (Option FR) :=
  match s.find vaddr with
  | none => some none
  | some area => area.findFrame vaddr

/-- `MemorySet::remap_frame` (`RAII`): `expect` panics (`none`) when no frame is replaced. -/
def remapFrame (s : MemorySet B F FR) (vaddr : Nat) (newFrame : FR) : Option (MemorySet B F FR) :=
  match s.insertFrame vaddr newFrame with
  | some (some _, s) => some s
  | _ => none

end MemorySet

end Axmm
