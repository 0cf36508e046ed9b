import Axmm.Lookup
import Axmm.Layout
/-!
# Frames — the frame tables (`RAII`), and the lookups and updates by page

The spec's frame-table invariant (§4.2, §8 property 2): every key of an area's frame table is 4K-aligned and lies in
the area's range (`MemoryArea.FramesInside`, and over a set `MemorySet.FramesInside`).  The set's frames seen as one
table are `trackedFrames`, the frame tables of its areas in key order.

Under `Inv` and the frame invariant an address has at most one tracked frame, in the table of the area that contains
it.  So `find_frame` reads exactly the set's table (`findFrame_reads_tracked`); `insert_frame` puts a frame at an
address inside an area, returns the one it displaced and leaves every other frame, the layout and both invariants
(`insertFrame_replaces`); and `remap_frame` panics exactly where no frame is tracked (`remapFrame_iff_tracked`).  An
area split in place, its halves keyed where `unmap` and `protect` key them, leaves what the set covers and the frames
it tracks (`split_remerge`).  At the area level, `unmap_frames` drops exactly the frames of its range
(`unmapFrames_eq_retain`), and `stat` never reports more resident bytes than the area's size (`stat_rss_le_size`).
-/
namespace Axmm

namespace MemoryArea

variable {B F PT FR : Type}

/-- Keys in strictly increasing order, each a 4K-aligned address of `[lo, hi)` with `hi` page-aligned, are at most
`(hi - lo) / 4096` many. -/
theorem length_mul_le_of_aligned : ∀ (l : List (Nat × FR)) (lo hi : Nat), l.Pairwise (fun a b => a.1 < b.1) →
    (∀ p ∈ l, lo ≤ p.1 ∧ p.1 < hi ∧ isAligned4k p.1 = true) → isAligned4k hi = true → l.length * 4096 ≤ hi - lo
  | [], _, _, _, _, _ => by simp
  | p :: rest, lo, hi, hl, hp, hhi => by
    obtain ⟨hlo, hlt, hpa⟩ := hp p (List.mem_cons_self _ _)
    obtain ⟨hafter, hrest⟩ := List.pairwise_cons.1 hl
    -- the next key is a page further on at least
    have ih := length_mul_le_of_aligned rest (p.1 + 4096) hi hrest (fun q hq => by
      obtain ⟨-, hq2, hqa⟩ := hp q (.tail _ hq)
      have := hafter q hq
      exact ⟨by rw [isAligned4k_iff] at hpa hqa; omega, hq2, hqa⟩) hhi
    rw [isAligned4k_iff] at hpa hhi
    rw [List.length_cons]
    omega

/-- **`stat` never reports more resident bytes than the area's size**: with the frame table inside the area and the
area ending on a page, `rss`, a page per frame, is at most `size`. -/
theorem stat_rss_le_size {a : MemoryArea B F FR} (ha : a.FramesInside) (he : isAligned4k a.end = true) {st : AreaStat}
    (h : a.stat = some st) : st.rss ≤ st.size := by
  unfold stat at h
  rcases hs : a.size with _ | n <;> rw [hs] at h <;> cases h
  have hn : a.start ≤ a.end ∧ n = a.end - a.start := by
    simp only [size, AddrRange.size, subAddr] at hs
    split_ifs at hs with hle
    exact ⟨hle, (Option.some.inj hs).symm⟩
  rw [hn.2]
  exact length_mul_le_of_aligned a.frames.toList a.start a.end a.frames.sorted (fun p hp => by
    have := ha p hp
    rw [AddrRange.contains_iff] at this
    exact ⟨this.1.1, this.1.2, this.2⟩) he

/-- An area `[0x1000, 0x3000)` with a frame on each of its two pages: `rss` is the whole size. -/
theorem stat_rss_le_size_twoPages :
    let a : MemoryArea Fixed Unit Unit := MemoryArea.new 0x1000 0x2000 (by decide)
      (some ((BTreeMap.empty.insert 0x1000 ()).insert 0x2000 ())) () ⟨true, true, true⟩
    a.FramesInside ∧ isAligned4k a.end = true ∧ a.stat = some ⟨0x1000, 0x3000, 0x2000, 0x2000, 0⟩ ∧ 0x2000 ≤ 0x2000 := by
  intro a
  have ha : a.FramesInside := by decide
  have he : isAligned4k a.end = true := by decide
  have hst : a.stat = some ⟨0x1000, 0x3000, 0x2000, 0x2000, 0⟩ := by decide
  exact ⟨ha, he, hst, stat_rss_le_size ha he hst⟩

variable [MappingBackend B F PT FR]

/-- **`unmap_frames` drops exactly the frames of its range**: when `start + size` does not pass `usize::MAX` and the
backend accepts the `unmap`, it returns the area with its range, flags and backend and the frames outside
`[start, start + size)`, and the page table the backend left. -/
theorem unmapFrames_eq_retain (a : MemoryArea B F FR) {start size : Nat} (pt : PT) (hr : start + size ≤ usizeMax)
    (hu : (MappingBackend.unmap a.backend start size pt).1 = true) :
    a.unmapFrames start size pt =
      .ok ({ a with frames := a.frames.retain fun k _ => !(decide (start ≤ k) && decide (k < start + size)) },
        (MappingBackend.unmap a.backend start size pt).2) := by
  unfold unmapFrames
  rcases h : MappingBackend.unmap a.backend start size pt with ⟨_ | _, pt'⟩
  · rw [h] at hu
    cases hu
  · simp only [checkedAdd, if_pos hr]
    congr 3
    refine BTreeMap.eq_of_mem_iff fun p => ?_
    rw [BTreeMap.mem_append fun p hp q hq => by
      simp only [BTreeMap.mem_splitOff_fst, BTreeMap.mem_splitOff_snd] at hp hq
      omega]
    simp only [BTreeMap.mem_splitOff_fst, BTreeMap.mem_splitOff_snd, BTreeMap.mem_retain, Bool.not_eq_true',
      Bool.and_eq_false_iff, decide_eq_false_iff_not, Nat.not_le, Nat.not_lt]
    constructor
    · rintro (⟨hp, h⟩ | ⟨⟨hp, -⟩, h⟩)
      · exact ⟨hp, .inl h⟩
      · exact ⟨hp, .inr h⟩
    · rintro ⟨hp, h | h⟩
      · exact .inl ⟨hp, h⟩
      · exact .inr ⟨⟨hp, by omega⟩, h⟩

/-- With one frame at each page of `[0x1000, 0x3000)`, `unmap_frames` of `[0x2000, 0x3000)` keeps the frame at
`0x1000` alone. -/
theorem unmapFrames_eq_retain_onePage :
    let a : MemoryArea Fixed Unit Unit := MemoryArea.new 0x1000 0x2000 (by decide)
      (some ((BTreeMap.empty.insert 0x1000 ()).insert 0x2000 ())) () ⟨true, true, true⟩
    (0x2000 + 0x1000 ≤ usizeMax ∧ (MappingBackend.unmap a.backend 0x2000 0x1000 ()).1 = true) ∧
      a.unmapFrames 0x2000 0x1000 () =
        .ok ({ a with frames := a.frames.retain fun k _ => !(decide (0x2000 ≤ k) && decide (k < 0x2000 + 0x1000)) },
          (MappingBackend.unmap a.backend 0x2000 0x1000 ()).2) :=
  ⟨⟨by decide, rfl⟩, unmapFrames_eq_retain _ () (by decide) rfl⟩

end MemoryArea

namespace MemorySet

variable {B F PT FR : Type}

/-- **Every frame table of the set keeps to its area.** -/
def FramesInside (s : MemorySet B F FR) : Prop := ∀ e ∈ s.areas.toList, e.2.FramesInside

instance (s : MemorySet B F FR) : Decidable s.FramesInside :=
  inferInstanceAs (Decidable (∀ e ∈ s.areas.toList, e.2.FramesInside))

/-- The frames the set tracks, by virtual page: the frame tables of its areas in key order. -/
def trackedFrames (s : MemorySet B F FR) : List (Nat × FR) := s.areas.toList.flatMap fun e => e.2.frames.toList

theorem mem_trackedFrames {s : MemorySet B F FR} {p : Nat × FR} :
    p ∈ s.trackedFrames ↔ ∃ e ∈ s.areas.toList, p ∈ e.2.frames.toList := List.mem_flatMap

variable {s : MemorySet B F FR}

theorem FramesInside.of_subset (hf : s.FramesInside) {s' : MemorySet B F FR}
    (h : ∀ e ∈ s'.areas.toList, e ∈ s.areas.toList) : s'.FramesInside := fun e he => hf e (h e he)

theorem FramesInside.insert (hf : s.FramesInside) {k : Nat} {a : MemoryArea B F FR} (ha : a.FramesInside) :
    FramesInside (⟨s.areas.insert k a⟩ : MemorySet B F FR) := fun e he => by
  rcases BTreeMap.mem_insert.1 he with rfl | ⟨he, -⟩
  · exact ha
  · exact hf e he

theorem mem_frames_of_tracked (hs : Inv s) (hf : s.FramesInside) {e : Nat × MemoryArea B F FR}
    (he : e ∈ s.areas.toList) {p : Nat × FR} (hc : e.2.vaRange.contains p.1 = true) (hp : p ∈ s.trackedFrames) :
    p ∈ e.2.frames.toList := by
  obtain ⟨e', he', hp'⟩ := mem_trackedFrames.1 hp
  rwa [← hs.eq_of_contains he' he (hf e' he' p hp').1 hc]

theorem not_tracked_of_uncontained (hf : s.FramesInside) {x : Nat}
    (hno : ∀ e ∈ s.areas.toList, e.2.vaRange.contains x = false) {p : Nat × FR} (hp : p ∈ s.trackedFrames) : p.1 ≠ x :=
  fun hpx => by
    obtain ⟨e, he, hp⟩ := mem_trackedFrames.1 hp
    have := (hf e he p hp).1
    rw [hpx, hno e he] at this
    cases this

theorem tracked_of_insert {m : BTreeMap (MemoryArea B F FR)} {k : Nat} {a : MemoryArea B F FR} {p : Nat × FR}
    (hp : p ∈ trackedFrames ⟨m.insert k a⟩) : p ∈ a.frames.toList ∨ p ∈ trackedFrames ⟨m⟩ := by
  obtain ⟨e, he, hp⟩ := mem_trackedFrames.1 hp
  rcases BTreeMap.mem_insert.1 he with rfl | ⟨he, -⟩
  · exact .inl hp
  · exact .inr (mem_trackedFrames.2 ⟨e, he, hp⟩)

theorem tracked_insert_sub {m : BTreeMap (MemoryArea B F FR)} {k : Nat} {a : MemoryArea B F FR} {S : List (Nat × FR)}
    (ha : ∀ p ∈ a.frames.toList, p ∈ S) (hm : ∀ p ∈ trackedFrames ⟨m⟩, p ∈ S) :
    ∀ p ∈ trackedFrames ⟨m.insert k a⟩, p ∈ S := fun p hp => (tracked_of_insert hp).elim (ha p) (hm p)

theorem tracked_insert_self {m : BTreeMap (MemoryArea B F FR)} {k : Nat} {a : MemoryArea B F FR} {p : Nat × FR}
    (hp : p ∈ a.frames.toList) : p ∈ trackedFrames ⟨m.insert k a⟩ :=
  mem_trackedFrames.2 ⟨_, BTreeMap.mem_insert.2 (.inl rfl), hp⟩

theorem tracked_insert_of_mem {m : BTreeMap (MemoryArea B F FR)} {k : Nat} {a : MemoryArea B F FR} {p : Nat × FR}
    {e : Nat × MemoryArea B F FR} (he : e ∈ m.toList) (hk : e.1 ≠ k) (hp : p ∈ e.2.frames.toList) :
    p ∈ trackedFrames ⟨m.insert k a⟩ :=
  mem_trackedFrames.2 ⟨e, BTreeMap.mem_insert.2 (.inr ⟨he, hk⟩), hp⟩

theorem tracked_of_remove {m : BTreeMap (MemoryArea B F FR)} {k : Nat} {p : Nat × FR}
    (hp : p ∈ trackedFrames ⟨m.remove k⟩) : p ∈ trackedFrames ⟨m⟩ := by
  obtain ⟨e, he, hp⟩ := mem_trackedFrames.1 hp
  exact mem_trackedFrames.2 ⟨e, (BTreeMap.mem_remove.1 he).1, hp⟩

theorem layout_insert_of_slotOf {k : Nat} {a₀ a : MemoryArea B F FR} (he : (k, a₀) ∈ s.areas.toList)
    (h : slotOf (k, a) = slotOf (k, a₀)) : layout ⟨s.areas.insert k a⟩ = s.layout := by
  have he₀ : slotOf (k, a₀) ∈ s.layout := mem_layout.2 ⟨_, he, rfl⟩
  refine layout_eq_of_mem_iff s.layout_sorted fun q => ?_
  rw [mem_layout_insert_of_mem he₀, h]
  by_cases hq : q = slotOf (k, a₀)
  · exact ⟨fun _ => hq ▸ he₀, fun _ => .inl hq⟩
  · exact ⟨fun h' => (h'.resolve_left hq).1, fun h' => .inr ⟨h', hq⟩⟩

/-! ## Lookups and updates by page -/

variable {vaddr : Nat}

theorem findMut_eq_none_iff (hs : Inv s) :
    s.findMut vaddr = none ↔ ∀ e ∈ s.areas.toList, e.2.vaRange.contains vaddr = false := by
  simp only [Option.eq_none_iff_forall_not_mem, Option.mem_def, findMut_eq_some_iff hs, not_and, Bool.not_eq_true]

theorem findFrame_eq : s.findFrame vaddr =
    match s.findMut vaddr with
    | none => some none
    | some (_, A) => A.findFrame vaddr := by
  unfold findFrame
  rw [find_eq_findMut]
  rcases s.findMut vaddr with _ | ⟨k, A⟩ <;> rfl

/-- **`find_frame` reads the set's frame table.**  On a set under `Inv` whose frame tables keep to their areas, at a
4K-aligned address `find_frame` returns the frame the set tracks there, and `None` where it tracks none; at an
unaligned address its `debug_assert!` panics exactly when an area contains the address. -/
theorem findFrame_reads_tracked (hs : Inv s) (hf : s.FramesInside) (vaddr : Nat) :
    (isAligned4k vaddr = true →
      ∃ o, s.findFrame vaddr = some o ∧ ∀ f, o = some f ↔ (vaddr, f) ∈ s.trackedFrames) ∧
    (isAligned4k vaddr = false →
      (s.findFrame vaddr = none ↔ ∃ e ∈ s.areas.toList, e.2.vaRange.contains vaddr = true)) := by
  rw [findFrame_eq]
  rcases hm : s.findMut vaddr with _ | ⟨k, A⟩
  · have hno := (findMut_eq_none_iff hs).1 hm
    refine ⟨fun _ => ⟨none, rfl, fun f => ⟨nofun, fun hp => ?_⟩⟩,
      fun _ => ⟨nofun, fun ⟨e, he, hc⟩ => by rw [hno e he] at hc; cases hc⟩⟩
    exact absurd rfl (not_tracked_of_uncontained hf hno hp)
  · obtain ⟨he, hc⟩ := (findMut_eq_some_iff hs).1 hm
    refine ⟨fun ha => ⟨_, if_pos ha, fun f => BTreeMap.get?_eq_some.trans
      ⟨fun h => mem_trackedFrames.2 ⟨_, he, h⟩, fun h => mem_frames_of_tracked hs hf he hc h⟩⟩,
      fun ha => ⟨fun _ => ⟨_, he, hc⟩, fun _ => if_neg (by rw [ha]; exact Bool.false_ne_true)⟩⟩

/-- One area at `[0x1000, 0x3000)` tracking a frame at `0x2000`: `find_frame 0x2000` returns it. -/
theorem findFrame_reads_tracked_onePage :
    let s : MemorySet Fixed Unit Unit := ⟨BTreeMap.empty.insert 0x1000
      (MemoryArea.new 0x1000 0x2000 (by decide) (some (BTreeMap.empty.insert 0x2000 ())) () ⟨true, true, true⟩)⟩
    Inv s ∧ s.FramesInside ∧ isAligned4k 0x2000 = true ∧
      ∃ o, s.findFrame 0x2000 = some o ∧ ∀ f, o = some f ↔ (0x2000, f) ∈ s.trackedFrames := by
  intro s
  have hs : Inv s := by decide
  have hf : s.FramesInside := by decide
  exact ⟨hs, hf, rfl, (findFrame_reads_tracked hs hf 0x2000).1 rfl⟩

variable (frame : FR)

/-- What `insert_frame` does at an aligned address: inside the area `(k, A)` it puts the frame into `A`'s table and
returns the one there before; outside every area it does nothing. -/
theorem insertFrame_cases (hs : Inv s) (ha : isAligned4k vaddr = true) :
    (∃ k A, (k, A) ∈ s.areas.toList ∧ A.vaRange.contains vaddr = true ∧
      s.insertFrame vaddr frame =
        some (A.frames.get? vaddr, ⟨s.areas.insert k { A with frames := A.frames.insert vaddr frame }⟩)) ∨
    ((∀ e ∈ s.areas.toList, e.2.vaRange.contains vaddr = false) ∧ s.insertFrame vaddr frame = some (none, s)) := by
  unfold insertFrame
  rcases hm : s.findMut vaddr with _ | ⟨k, A⟩
  · exact .inr ⟨(findMut_eq_none_iff hs).1 hm, rfl⟩
  · obtain ⟨he, hc⟩ := (findMut_eq_some_iff hs).1 hm
    exact .inl ⟨k, A, he, hc, by simp only [MemoryArea.insertFrame, if_pos ha, Option.map_some']⟩

theorem mem_trackedFrames_insertFrame (hs : Inv s) (hf : s.FramesInside) {k : Nat} {A : MemoryArea B F FR}
    (he : (k, A) ∈ s.areas.toList) (hc : A.vaRange.contains vaddr = true) (p : Nat × FR) :
    p ∈ trackedFrames ⟨s.areas.insert k { A with frames := A.frames.insert vaddr frame }⟩ ↔
      p = (vaddr, frame) ∨ (p ∈ s.trackedFrames ∧ p.1 ≠ vaddr) := by
  rw [mem_trackedFrames]
  constructor
  · rintro ⟨e, he', hp⟩
    rcases BTreeMap.mem_insert.1 he' with rfl | ⟨he', hek⟩
    · rcases BTreeMap.mem_insert.1 hp with rfl | ⟨hp, hpv⟩
      · exact .inl rfl
      · exact .inr ⟨mem_trackedFrames.2 ⟨_, he, hp⟩, hpv⟩
    · -- another area holds no frame at `vaddr`
      refine .inr ⟨mem_trackedFrames.2 ⟨e, he', hp⟩, fun hpv => hek ?_⟩
      have := (hf e he' p hp).1
      rw [hpv] at this
      rw [hs.eq_of_contains he' he this hc]
  · rintro (rfl | ⟨hp, hpv⟩)
    · exact ⟨_, BTreeMap.mem_insert.2 (.inl rfl), BTreeMap.mem_insert.2 (.inl rfl)⟩
    · obtain ⟨e, he', hp⟩ := mem_trackedFrames.1 hp
      by_cases hek : e.1 = k
      · obtain rfl := BTreeMap.key_inj he' he hek
        exact ⟨_, BTreeMap.mem_insert.2 (.inl rfl), BTreeMap.mem_insert.2 (.inr ⟨hp, hpv⟩)⟩
      · exact ⟨e, BTreeMap.mem_insert.2 (.inr ⟨he', hek⟩), hp⟩

/-- `insert_frame` keeps the layout, `Inv` and the frame invariant: it fills an aligned page of the area that holds
it. -/
theorem insertFrame_inv (hs : Inv s) (hf : s.FramesInside) {old : Option FR} {s' : MemorySet B F FR}
    (h : s.insertFrame vaddr frame = some (old, s')) : s'.layout = s.layout ∧ Inv s' ∧ s'.FramesInside := by
  by_cases ha : isAligned4k vaddr = true
  · rcases insertFrame_cases frame hs ha with ⟨k, A, he, hc, h'⟩ | ⟨-, h'⟩ <;> rw [h'] at h <;> cases h
    · have hL := layout_insert_of_slotOf (a := { A with frames := A.frames.insert vaddr frame }) he rfl
      refine ⟨hL, hs.of_layout_eq hL, hf.insert fun p hp => ?_⟩
      rcases BTreeMap.mem_insert.1 hp with rfl | ⟨hp, -⟩
      · exact ⟨hc, ha⟩
      · exact hf _ he p hp
    · exact ⟨rfl, hs, hf⟩
  · unfold insertFrame at h
    rcases hm : s.findMut vaddr with _ | ⟨k, A⟩ <;> rw [hm] at h
    · cases h; exact ⟨rfl, hs, hf⟩
    · simp only [MemoryArea.insertFrame, if_neg ha, Option.map_none'] at h
      cases h

/-- **`insert_frame` replaces the frame at an address.**  On a set under `Inv` whose frame tables keep to their
areas, at a 4K-aligned address it returns the frame tracked there before, if any.  When an area contains the address
the set it leaves tracks `frame` there and every other frame as before; when none does, nothing changes.  It keeps the
layout, `Inv` and the frame invariant. -/
theorem insertFrame_replaces (hs : Inv s) (hf : s.FramesInside) (ha : isAligned4k vaddr = true) :
    ∃ old s', s.insertFrame vaddr frame = some (old, s') ∧ (∀ f, old = some f ↔ (vaddr, f) ∈ s.trackedFrames) ∧
      (∀ p, p ∈ s'.trackedFrames ↔ (p = (vaddr, frame) ∧ ∃ e ∈ s.areas.toList, e.2.vaRange.contains vaddr = true) ∨
        (p ∈ s.trackedFrames ∧ p.1 ≠ vaddr)) ∧
      s'.layout = s.layout ∧ Inv s' ∧ s'.FramesInside := by
  rcases insertFrame_cases frame hs ha with ⟨k, A, he, hc, h⟩ | ⟨hno, h⟩
  · refine ⟨_, _, h, fun f => BTreeMap.get?_eq_some.trans
      ⟨fun h => mem_trackedFrames.2 ⟨_, he, h⟩, fun h => mem_frames_of_tracked hs hf he hc h⟩, fun p => ?_,
      insertFrame_inv frame hs hf h⟩
    rw [mem_trackedFrames_insertFrame frame hs hf he hc]
    exact or_congr_left ⟨fun h => ⟨h, _, he, hc⟩, And.left⟩
  · refine ⟨_, _, h, fun f => ⟨nofun, fun hp => absurd rfl (not_tracked_of_uncontained hf hno hp)⟩,
      fun p => ⟨fun hp => .inr ⟨hp, not_tracked_of_uncontained hf hno hp⟩, ?_⟩, rfl, hs, hf⟩
    rintro (⟨-, e, he, hc⟩ | ⟨hp, -⟩)
    · rw [hno e he] at hc
      cases hc
    · exact hp

/-- One area at `[0x1000, 0x3000)` with no frame: `insert_frame` at `0x2000` returns `None`. -/
theorem insertFrame_replaces_onePage :
    let s : MemorySet Fixed Unit Unit :=
      ⟨BTreeMap.empty.insert 0x1000 (MemoryArea.new 0x1000 0x2000 (by decide) none () ⟨true, true, true⟩)⟩
    Inv s ∧ s.FramesInside ∧ isAligned4k 0x2000 = true ∧
      ∃ old s', s.insertFrame 0x2000 () = some (old, s') ∧ (∀ f, old = some f ↔ (0x2000, f) ∈ s.trackedFrames) ∧
        (∀ p, p ∈ s'.trackedFrames ↔ (p = (0x2000, ()) ∧ ∃ e ∈ s.areas.toList, e.2.vaRange.contains 0x2000 = true) ∨
          (p ∈ s.trackedFrames ∧ p.1 ≠ 0x2000)) ∧
        s'.layout = s.layout ∧ Inv s' ∧ s'.FramesInside := by
  intro s
  have hs : Inv s := by decide
  have hf : s.FramesInside := by decide
  exact ⟨hs, hf, rfl, insertFrame_replaces () hs hf rfl⟩

/-- **`remap_frame` replaces a tracked frame, and panics where none is tracked.**  On a set under `Inv` whose frame
tables keep to their areas, at a 4K-aligned address the `expect` fails exactly when the set tracks no frame there;
otherwise the set it leaves has the layout it had and tracks `frame` in place of the old one. -/
theorem remapFrame_iff_tracked (hs : Inv s) (hf : s.FramesInside) (ha : isAligned4k vaddr = true) :
    (s.remapFrame vaddr frame = none ↔ ∀ f, (vaddr, f) ∉ s.trackedFrames) ∧
    ∀ s', s.remapFrame vaddr frame = some s' →
      s'.layout = s.layout ∧ ∀ p, p ∈ s'.trackedFrames ↔ p = (vaddr, frame) ∨ (p ∈ s.trackedFrames ∧ p.1 ≠ vaddr) := by
  unfold remapFrame
  rcases insertFrame_cases frame hs ha with ⟨k, A, he, hc, h⟩ | ⟨hno, h⟩ <;> rw [h]
  · have hframe : ∀ f, (vaddr, f) ∈ A.frames.toList ↔ (vaddr, f) ∈ s.trackedFrames := fun f =>
      ⟨fun h => mem_trackedFrames.2 ⟨_, he, h⟩, fun h => mem_frames_of_tracked hs hf he hc h⟩
    rcases hg : A.frames.get? vaddr with _ | f
    · exact ⟨⟨fun _ f hp => (by rw [← hframe, ← BTreeMap.get?_eq_some, hg] at hp; cases hp), fun _ => rfl⟩,
        fun _ => nofun⟩
    · refine ⟨⟨nofun, fun h => absurd ((hframe f).1 (BTreeMap.get?_eq_some.1 hg)) (h f)⟩, ?_⟩
      rintro s' ⟨⟩
      exact ⟨layout_insert_of_slotOf he rfl, mem_trackedFrames_insertFrame frame hs hf he hc⟩
  · exact ⟨⟨fun _ f hp => absurd rfl (not_tracked_of_uncontained hf hno hp), fun _ => rfl⟩, fun _ => nofun⟩

/-- One area at `[0x1000, 0x3000)` with no frame: `remap_frame` at `0x2000` panics. -/
theorem remapFrame_iff_tracked_onePage :
    let s : MemorySet Fixed Unit Unit :=
      ⟨BTreeMap.empty.insert 0x1000 (MemoryArea.new 0x1000 0x2000 (by decide) none () ⟨true, true, true⟩)⟩
    (Inv s ∧ s.FramesInside ∧ isAligned4k 0x2000 = true) ∧
      (s.remapFrame 0x2000 () = none ↔ ∀ f, (0x2000, f) ∉ s.trackedFrames) ∧
      ∀ s', s.remapFrame 0x2000 () = some s' →
        s'.layout = s.layout ∧ ∀ p, p ∈ s'.trackedFrames ↔ p = (0x2000, ()) ∨ (p ∈ s.trackedFrames ∧ p.1 ≠ 0x2000) := by
  intro s
  have hs : Inv s := by decide
  have hf : s.FramesInside := by decide
  exact ⟨⟨hs, hf, rfl⟩, remapFrame_iff_tracked () hs hf rfl⟩

/-! ## An area split in place -/

theorem mem_split_insert (hs : Inv s) {k pos : Nat} {a l r : MemoryArea B F FR} (he : (k, a) ∈ s.areas.toList)
    (h : a.split pos = some (l, r)) (e : Nat × MemoryArea B F FR) :
    e ∈ ((s.areas.insert k l).insert pos r).toList ↔ e = (pos, r) ∨ e = (k, l) ∨ (e ∈ s.areas.toList ∧ e.1 ≠ k) := by
  obtain ⟨h1, h2, -⟩ := MemoryArea.split_eq_some h
  have hk : k = a.start := hs.key_eq _ he
  have hfresh := hs.key_ne_of_inside he h1 h2
  simp only [BTreeMap.mem_insert]
  constructor
  · rintro (h | ⟨h | h, -⟩)
    · exact .inl h
    · exact .inr (.inl h)
    · exact .inr (.inr h)
  · rintro (h | rfl | ⟨he', hek⟩)
    · exact .inl h
    · exact .inr ⟨.inl rfl, show k ≠ pos by omega⟩
    · exact .inr ⟨.inr ⟨he', hek⟩, hfresh e he' hek⟩

theorem exists_split_insert (hs : Inv s) {k pos : Nat} {a l r : MemoryArea B F FR} (he : (k, a) ∈ s.areas.toList)
    (h : a.split pos = some (l, r)) (P : Nat × MemoryArea B F FR → Prop) (hP : P (pos, r) ∨ P (k, l) ↔ P (k, a)) :
    (∃ e ∈ ((s.areas.insert k l).insert pos r).toList, P e) ↔ ∃ e ∈ s.areas.toList, P e := by
  simp only [mem_split_insert hs he h, or_and_right, exists_or, exists_eq_left, ← or_assoc, hP]
  constructor
  · rintro (h | ⟨e, ⟨he', -⟩, h⟩)
    · exact ⟨_, he, h⟩
    · exact ⟨e, he', h⟩
  · rintro ⟨e, he', h⟩
    by_cases hek : e.1 = k
    · obtain rfl := BTreeMap.key_inj he' he hek
      exact .inl h
    · exact .inr ⟨e, ⟨he', hek⟩, h⟩

theorem inv_split_insert (hs : Inv s) {k pos : Nat} {a l r : MemoryArea B F FR} (he : (k, a) ∈ s.areas.toList)
    (h : a.split pos = some (l, r)) : Inv (⟨(s.areas.insert k l).insert pos r⟩ : MemorySet B F FR) := by
  obtain ⟨h1, h2, hl1, hl2, hr1, hr2, -⟩ := MemoryArea.split_eq_some h
  have hk : k = a.start := hs.key_eq _ he
  have hl : Inv (⟨s.areas.insert k l⟩ : MemorySet B F FR) :=
    hs.insert (hk.trans hl1.symm) (by omega)
      (hs.disjoint_of_sub he (show a.start ≤ l.start by omega) (show l.end ≤ a.end by omega))
  refine hl.insert hr1.symm (by omega) fun e he' hep => ?_
  rcases BTreeMap.mem_insert.1 he' with rfl | ⟨he', hek⟩
  · simp only [MemoryArea.start, MemoryArea.end] at hl2 hr1
    simp only [← Bool.not_eq_true, AddrRange.overlaps_iff]
    omega
  · exact hs.disjoint_of_sub he (show a.start ≤ r.start by omega) (show r.end ≤ a.end by omega) e he' hek

/-- **An area split in place keeps the set** (spec §8 property 7): on a set under `Inv`, replacing an area by the
halves `split` makes of it, the left one under the area's key and the right one under `pos`, keeps `Inv`, covers
every address with the flags it had, and tracks the same frames. -/
theorem split_remerge (hs : Inv s) {k pos : Nat} {a l r : MemoryArea B F FR} (he : (k, a) ∈ s.areas.toList)
    (h : a.split pos = some (l, r)) :
    Inv (⟨(s.areas.insert k l).insert pos r⟩ : MemorySet B F FR) ∧
    (∀ x f, Covers (layout ⟨(s.areas.insert k l).insert pos r⟩) x f ↔ Covers s.layout x f) ∧
    ∀ p, p ∈ trackedFrames ⟨(s.areas.insert k l).insert pos r⟩ ↔ p ∈ s.trackedFrames := by
  obtain ⟨h1, h2, hl1, hl2, hr1, hr2, hlf, hrf, -⟩ := MemoryArea.split_eq_some h
  simp only [MemoryArea.start, MemoryArea.end] at h1 h2 hl1 hl2 hr1 hr2
  refine ⟨inv_split_insert hs he h, fun x f => ?_, fun p => ?_⟩
  · -- `[start, pos)` and `[pos, end)` make `[start, end)`, all with the area's flags
    rw [covers_layout_iff, covers_layout_iff]
    refine exists_split_insert hs he h (fun e => e.2.vaRange.contains x = true ∧ e.2.flags = f) ?_
    simp only [AddrRange.contains_iff, hlf, hrf, ← or_and_right]
    exact and_congr_left fun _ => by omega
  · -- the halves part the frame table at `pos`
    rw [mem_trackedFrames, mem_trackedFrames]
    refine exists_split_insert hs he h (fun e => p ∈ e.2.frames.toList) ?_
    simp only [(MemoryArea.split_frames h p).1, (MemoryArea.split_frames h p).2, ← and_or_left]
    exact and_iff_left (by omega)

/-- One area at `[0x1000, 0x3000)` split at `0x2000` in place. -/
theorem split_remerge_oneArea :
    let A : MemoryArea Fixed Unit Unit := MemoryArea.new 0x1000 0x2000 (by decide) none () ⟨true, true, true⟩
    let s : MemorySet Fixed Unit Unit := ⟨BTreeMap.empty.insert 0x1000 A⟩
    ∃ l r, (Inv s ∧ (0x1000, A) ∈ s.areas.toList ∧ A.split 0x2000 = some (l, r)) ∧
      Inv (⟨(s.areas.insert 0x1000 l).insert 0x2000 r⟩ : MemorySet Fixed Unit Unit) ∧
      (∀ x f, Covers (layout ⟨(s.areas.insert 0x1000 l).insert 0x2000 r⟩) x f ↔ Covers s.layout x f) ∧
      ∀ p, p ∈ trackedFrames ⟨(s.areas.insert 0x1000 l).insert 0x2000 r⟩ ↔ p ∈ s.trackedFrames := by
  intro A s
  have hs : Inv s := by decide
  have he : (0x1000, A) ∈ s.areas.toList := List.mem_cons_self _ _
  obtain ⟨l, r, h⟩ := MemoryArea.split_isSome (a := A) (show A.start < 0x2000 by decide) (by decide)
  exact ⟨l, r, ⟨hs, he, h⟩, split_remerge hs he h⟩

end MemorySet

end Axmm
