import Calldata.Proofs.Arrangement
import Calldata.Proofs.Trace

/-!
What the copies and pointers of one level leave in memory, merged or not. The last write to a byte
decides it. A byte in the gap of a merged copy is written again by a pointer or by a later copy, or it
is lost, and then it belongs to a short copy of known size.
-/
namespace Calldata

structure Patch where
  start : Int
  length : Int
  part : Wire

namespace Patch
variable {memory memory' : Memory} {ps : List Patch} {place : Int}

def Covers (p : Patch) (place : Int) : Prop := p.start ≤ place ∧ place < p.start + p.length

def apply (memory : Memory) (p : Patch) : Memory := memory.patched p.start p.length p.part

theorem wire_apply_of_covers {p : Patch} (h : p.Covers place) :
    (apply memory p).wire place = p.part (place - p.start) := if_pos h

theorem wire_apply_of_not_covers {p : Patch} (h : ¬ p.Covers place) :
    (apply memory p).wire place = memory.wire place := if_neg h

theorem wire_of_not_covers (none_ : ∀ p ∈ ps, ¬ p.Covers place) :
    (ps.foldl apply memory).wire place = memory.wire place := by
  induction ps generalizing memory with
  | nil => rfl
  | cons p rest ih =>
    obtain ⟨here, later⟩ := List.forall_mem_cons.1 none_
    rw [List.foldl_cons, ih later, wire_apply_of_not_covers here]

/-- The last patch that covers a byte decides it. -/
theorem wire_of_last {before after : List Patch} {p : Patch} (h : p.Covers place)
    (last : ∀ q ∈ after, ¬ q.Covers place) :
    ((before ++ p :: after).foldl apply memory).wire place = p.part (place - p.start) := by
  rw [List.foldl_append, List.foldl_cons, wire_of_not_covers last, wire_apply_of_covers h]

theorem exists_last {α : Type} {P : α → Prop} {l : List α} (h : ∃ x ∈ l, P x) :
    ∃ before x after, l = before ++ x :: after ∧ P x ∧ ∀ y ∈ after, ¬ P y := by
  induction l with
  | nil => simp at h
  | cons y rest ih =>
    by_cases later : ∃ x ∈ rest, P x
    · obtain ⟨before, x, after, rfl, hx, last⟩ := ih later
      exact ⟨y :: before, x, after, rfl, hx, last⟩
    · obtain ⟨x, hx, holds⟩ := h
      rcases List.mem_cons.1 hx with rfl | hx
      · exact ⟨[], x, rest, rfl, holds, fun y hy hp => later ⟨y, hy, hp⟩⟩
      · exact absurd ⟨x, hx, holds⟩ later

theorem wire_congr (h : memory.wire place = memory'.wire place ∨ ∃ p ∈ ps, p.Covers place) :
    (ps.foldl apply memory).wire place = (ps.foldl apply memory').wire place := by
  by_cases covered : ∃ p ∈ ps, p.Covers place
  · obtain ⟨before, p, after, rfl, covers, last⟩ := exists_last covered
    rw [wire_of_last covers last, wire_of_last covers last]
  · have none_ : ∀ p ∈ ps, ¬ p.Covers place := fun p hp covers => covered ⟨p, hp, covers⟩
    rw [wire_of_not_covers none_, wire_of_not_covers none_]
    exact h.resolve_right covered

theorem size_le_iff {bound : Int} :
    (ps.foldl apply memory).size ≤ bound ↔ memory.size ≤ bound ∧ ∀ p ∈ ps, p.start + p.length ≤ bound := by
  induction ps generalizing memory with
  | nil => simp
  | cons p rest ih =>
    rw [List.foldl_cons, ih, List.forall_mem_cons, ← and_assoc]
    refine and_congr_left' ?_
    show max memory.size (p.start + p.length) ≤ bound ↔ _
    omega

end Patch

def Copy.patch (e : Scene) (w : Wire) (offset : Int) (c : Copy) : Patch :=
  ⟨offset + c.start e, c.size.worth e, w.drop (c.src.worth e)⟩

def Pointer.patch (e : Scene) (offset : Int) (p : Pointer) : Patch :=
  ⟨offset + p.dst.worth e, 32, Wire.digits (offset + p.value.worth e).toNat⟩

theorem Copy.covers_patch {e : Scene} {w : Wire} {offset place : Int} {c : Copy} :
    (c.patch e w offset).Covers place ↔ c.start e ≤ place - offset ∧ place - offset < c.stop e := by
  simp only [Patch.Covers, patch, start, stop]
  omega

namespace Copy
variable {c d : Copy} {copies parts : List Copy} {e : Scene} {w : Wire} {offset place : Int}

theorem Spans.ascending (h : c.Spans parts) (plain : ∀ d ∈ parts, d.PlainNames)
    (sizes : ∀ d ∈ parts, 0 ≤ d.size.worth e) : parts.Pairwise (·.stop e ≤ ·.start e) := by
  induction h with
  | one c => exact List.pairwise_singleton _ _
  | @more c d parts g spans near ih =>
    have earlier : ∀ d ∈ parts, d.PlainNames := fun d hd => plain d (by simp [hd])
    have nonneg : ∀ d ∈ parts, 0 ≤ d.size.worth e := fun d hd => sizes d (by simp [hd])
    obtain ⟨dst, _⟩ := worth_of_gap (spans.plainNames earlier) (plain d (by simp)) near e
    obtain ⟨_, _, low, _⟩ := gap_eq_some near
    refine List.pairwise_append.2 ⟨ih earlier nonneg, List.pairwise_singleton _ _, fun p hp q hq => ?_⟩
    obtain rfl := List.mem_singleton.1 hq
    have := (spans.within earlier nonneg p hp).2.1
    omega

theorem Spans.patch (h : c.Spans parts) (plain : ∀ d ∈ parts, d.PlainNames)
    (sizes : ∀ d ∈ parts, 0 ≤ d.size.worth e) (hd : d ∈ parts) (covers : (d.patch e w offset).Covers place) :
    (c.patch e w offset).Covers place ∧ (c.patch e w offset).part (place - (c.patch e w offset).start) =
      (d.patch e w offset).part (place - (d.patch e w offset).start) := by
  obtain ⟨left, right, same⟩ := h.within plain sizes d hd
  rw [covers_patch] at covers ⊢
  refine ⟨by omega, ?_⟩
  simp only [Copy.patch, Wire.drop]
  congr 1
  omega

theorem spans_split {before after : List Copy} (split : merge copies = before ++ c :: after) :
    ∃ parts front back, c.Spans parts ∧ sorted copies = front ++ (parts ++ back) ∧
      ∀ d ∈ back, ∃ c' ∈ after, ∃ parts', c'.Spans parts' ∧ d ∈ parts' ∧ ∀ d' ∈ parts', d' ∈ copies := by
  obtain ⟨chains, spans, all⟩ := spans_merge copies
  rw [split] at spans
  have cut {before : List Copy} {chains : List (List Copy)}
      (h : List.Forall₂ Spans (before ++ c :: after) chains) :
      ∃ front parts back, chains = front ++ parts :: back ∧ c.Spans parts ∧ List.Forall₂ Spans after back := by
    induction before generalizing chains with
    | nil =>
      obtain ⟨parts, back, here, later, rfl⟩ := List.forall₂_cons_left_iff.1 h
      exact ⟨[], parts, back, rfl, here, later⟩
    | cons b before ih =>
      obtain ⟨first, rest, _, later, rfl⟩ := List.forall₂_cons_left_iff.1 h
      obtain ⟨front, parts, back, rfl, here, later⟩ := ih later
      exact ⟨first :: front, parts, back, rfl, here, later⟩
  obtain ⟨front, parts, back, rfl, here, later⟩ := cut spans
  refine ⟨parts, front.flatten, back.flatten, here, by simpa using all.symm, fun d hd => ?_⟩
  obtain ⟨chain, hchain, hd⟩ := List.mem_flatten.1 hd
  obtain ⟨i, hi, rfl⟩ := List.getElem_of_mem hchain
  have bound : i < after.length := later.length_eq ▸ hi
  refine ⟨after[i], List.getElem_mem bound, _, later.get bound hi, hd, fun d' hd' => mem_sorted.1 ?_⟩
  rw [← all]
  refine List.mem_flatten.2 ⟨_, ?_, hd'⟩
  simp [hchain]

theorem exists_merged (hd : d ∈ copies) :
    ∃ c ∈ merge copies, ∃ parts, c.Spans parts ∧ d ∈ parts ∧ ∀ d' ∈ parts, d' ∈ copies := by
  obtain ⟨chains, spans, all⟩ := spans_merge copies
  have mem : d ∈ chains.flatten := all ▸ mem_sorted.2 hd
  obtain ⟨chain, hchain, hd⟩ := List.mem_flatten.1 mem
  obtain ⟨i, hi, rfl⟩ := List.getElem_of_mem hchain
  have bound : i < (merge copies).length := spans.length_eq ▸ hi
  refine ⟨_, List.getElem_mem bound, _, spans.get bound hi, hd, fun d' hd' => mem_sorted.1 ?_⟩
  rw [← all]
  exact List.mem_flatten.2 ⟨_, hchain, hd'⟩

end Copy

namespace Arrangement
variable {lossy : Bool} {lengths : String → Prop} {marks : List String} {copies : List Copy} {pointers : List Pointer}
  {low high : Term} {items : List Item} {x y z : Item} {e : Scene} {w : Wire} {offset place : Int}
  {memory : Memory}

theorem eq_of_covers (h : Lineup lossy lengths marks copies items) (he : e.Settled marks) (hx : x ∈ items)
    (hy : y ∈ items) (coversX : x.copy.start e ≤ place ∧ place < x.copy.stop e)
    (coversY : y.copy.start e ≤ place ∧ place < y.copy.stop e) : x = y := by
  by_contra ne
  rcases h.apart hx hy ne with order | order
  · have := order e he
    omega
  · have := order e he
    omega

theorem exists_item (h : Lineup lossy lengths marks copies items) {d : Copy} (hd : d ∈ copies) :
    ∃ x ∈ items, x.region ≠ .hole ∧ x.copy = d := by
  rw [← h.copies] at hd
  obtain ⟨x, hx, rfl⟩ := List.mem_map.1 hd
  have := List.mem_filter.1 hx
  exact ⟨x, this.1, by simpa using this.2, rfl⟩

theorem nonneg_copy (h : Lineup lossy lengths marks copies items) (he : e.Settled marks) {d : Copy}
    (hd : d ∈ copies) : 0 ≤ d.size.worth e := by
  obtain ⟨x, hx, _, rfl⟩ := exists_item h hd
  exact h.nonneg x hx e he

theorem wire_copies (h : Lineup lossy lengths marks copies items) (he : e.Settled marks) (hx : x ∈ items)
    (copied : x.region ≠ .hole) (covers : (x.copy.patch e w offset).Covers place) :
    ((copies.map (Copy.patch e w offset)).foldl Patch.apply memory).wire place =
      w (x.copy.src.worth e + (place - offset - x.copy.start e)) := by
  have mem : x.copy.patch e w offset ∈ copies.map (Copy.patch e w offset) :=
    List.mem_map_of_mem (h.mem_copies hx copied)
  obtain ⟨before, p, after, split, coversP, last⟩ := Patch.exists_last (P := (Patch.Covers · place)) ⟨_, mem, covers⟩
  have hp : p ∈ copies.map (Copy.patch e w offset) := by simp [split]
  obtain ⟨c, hc, rfl⟩ := List.mem_map.1 hp
  obtain ⟨y, hy, _, rfl⟩ := exists_item h hc
  obtain rfl := eq_of_covers h he hx hy (Copy.covers_patch.1 covers) (Copy.covers_patch.1 coversP)
  rw [split, Patch.wire_of_last coversP last]
  simp only [Copy.patch, Wire.drop]
  congr 1
  omega

/-- A byte that is lost in the gap of a merged copy. -/
def Lost (lossy : Bool) (lengths : String → Prop) (copies : List Copy) (e : Scene) (place : Int) : Prop :=
  lossy = true ∧ ∃ c ∈ copies, (∀ n ∈ c.names, ¬ lengths n) ∧ (c.start e ≤ place ∧ place < c.stop e) ∧
    ∀ k ≥ 32, c.size.sample k ≤ 128

/-- A byte in a gap: a pointer writes it, or a later copy, or it is lost. -/
theorem lost_of_gap (h : Arrangement lossy lengths marks copies pointers low high items)
    (plain : ∀ c ∈ copies, c.PlainNames) (small : ∀ c ∈ copies, c.dst.sample 0 + c.size.sample 0 < 2 ^ 63)
    (he : e.Settled marks) (free : ∀ q ∈ pointers, ¬ (q.dst.worth e ≤ place ∧ place < q.dst.worth e + 32))
    (hy : y ∈ items) (copiedY : y.region ≠ .hole) (hz : z ∈ items) (copiedZ : z.region ≠ .hole)
    (joins : y.copy.Joins z.copy) (left : y.copy.stop e ≤ place) (right : place < z.copy.start e)
    (before : ∀ x ∈ items, x.region ≠ .hole → x.copy.start e ≤ place → place < x.copy.stop e →
      y.Passed items x) : Lost lossy lengths copies e place := by
  have filledY := h.start_le hy he
  have filledZ := h.start_le hz he
  have lower := (h.inside y hy e he).1
  have upper := (h.inside z hz e he).2
  rcases h.tiled e he place (by omega) (by omega) with ⟨q, hq, covers⟩ | ⟨x, hx, start, stop⟩
  · exact absurd covers (free q hq)
  · have copiedX := h.hole_of_gap hx hy hz joins he left right start stop
    have passed := before x hx copiedX start stop
    cases lossy with
    | false =>
      have ne : y ≠ z := by
        rintro rfl
        omega
      have := h.free_gap plain small hx copiedX hy copiedY hz copiedZ ne passed joins he left right start
      omega
    | true =>
      have other := h.length_of_gap hx hy hz copiedZ joins he left right start stop
      exact ⟨rfl, x.copy, h.mem_copies hx copiedX, h.named x hx copiedX other, ⟨start, stop⟩,
        h.narrow_of_gap hx hy hz joins he left right start stop⟩

theorem wire_merge (h : Arrangement lossy lengths marks copies pointers low high items)
    (plain : ∀ c ∈ copies, c.PlainNames) (small : ∀ c ∈ copies, c.dst.sample 0 + c.size.sample 0 < 2 ^ 63)
    (he : e.Settled marks) (free : ∀ q ∈ pointers, ¬ (q.patch e offset).Covers place) :
    (((Copy.merge copies).map (Copy.patch e w offset)).foldl Patch.apply memory).wire place =
        ((copies.map (Copy.patch e w offset)).foldl Patch.apply memory).wire place ∨
      Lost lossy lengths copies e (place - offset) := by
  have sizes {parts : List Copy} (sub : ∀ d ∈ parts, d ∈ copies) : ∀ d ∈ parts, 0 ≤ d.size.worth e :=
    fun d hd => nonneg_copy h.toLineup he (sub d hd)
  have names {parts : List Copy} (sub : ∀ d ∈ parts, d ∈ copies) : ∀ d ∈ parts, d.PlainNames :=
    fun d hd => plain d (sub d hd)
  by_cases covered : ∃ c ∈ Copy.merge copies, (c.patch e w offset).Covers place
  · obtain ⟨before, c, after, split, covers, last⟩ := Patch.exists_last covered
    have last' : ∀ q ∈ after.map (Copy.patch e w offset), ¬ q.Covers place := by
      rw [List.forall_mem_map]
      exact last
    obtain ⟨parts, front, back, spans, sorted, behind⟩ := Copy.spans_split split
    have sub : ∀ d ∈ parts, d ∈ copies := fun d hd => Copy.mem_sorted.1 (by simp [sorted, hd])
    rw [split, List.map_append, List.map_cons, Patch.wire_of_last covers last']
    have here := Copy.covers_patch.1 covers
    rcases spans.place (names sub) here.1 here.2 with ⟨d, hd, inside⟩ | ⟨front', d, d', back', rfl, left, right⟩
    · left
      obtain ⟨x, hx, copied, rfl⟩ := exists_item h.toLineup (sub d hd)
      have inside : (x.copy.patch e w offset).Covers place := Copy.covers_patch.2 inside
      rw [wire_copies h.toLineup he hx copied inside, (spans.patch (names sub) (sizes sub) hd inside).2]
      simp only [Copy.patch, Wire.drop]
      congr 1
      omega
    · right
      -- the items behind the copies, in sorted order
      obtain ⟨line, lined, members, passed⟩ := h.exists_sorted plain
      rw [sorted] at lined
      obtain ⟨first, rest, rfl, rfl, tail⟩ := List.map_eq_append_iff.1 lined
      obtain ⟨chain, later, rfl, tail', rfl⟩ := List.map_eq_append_iff.1 tail
      obtain ⟨earlier, rest, rfl, rfl, tail''⟩ := List.map_eq_append_iff.1 tail'
      obtain ⟨y, rest, rfl, rfl, end_⟩ := List.map_eq_cons_iff.1 tail''
      obtain ⟨z, rest, rfl, rfl, rfl⟩ := List.map_eq_cons_iff.1 end_
      obtain ⟨hy, copiedY⟩ := (members y).1 (by simp)
      obtain ⟨hz, copiedZ⟩ := (members z).1 (by simp)
      have joins : y.copy.Joins z.copy :=
        (List.isChain_append_cons_cons.1 (spans.joins (names sub))).2.1
      refine h.lost_of_gap plain small he (fun q hq covers => free q hq ?_) hy copiedY hz copiedZ joins
        left right fun x hx copied start stop => ?_
      · simp only [Patch.Covers, Pointer.patch]
        omega
      · have filledY := h.start_le hy he
        have filledZ := h.start_le hz he
        have listed := (members x).2 ⟨hx, copied⟩
        obtain ⟨_, passed, across⟩ := List.pairwise_append.1 passed
        obtain ⟨passed, _, _⟩ := List.pairwise_append.1 passed
        obtain ⟨_, _, within⟩ := List.pairwise_append.1 passed
        simp only [List.mem_append, List.mem_cons] at listed
        rcases listed with listed | (listed | rfl | rfl | listed) | listed
        · exact across x listed y (by simp)
        · exact within x listed y (by simp)
        · omega
        · omega
        · have ascending := spans.ascending (names sub) (sizes sub)
          rw [List.pairwise_append, List.pairwise_cons, List.pairwise_cons] at ascending
          have := ascending.2.1.2.1 x.copy (List.mem_map_of_mem listed)
          omega
        · obtain ⟨c', hc', parts', spans', hd', sub'⟩ := behind x.copy (List.mem_map_of_mem listed)
          have covers' : (c'.patch e w offset).Covers place :=
            (spans'.patch (names sub') (sizes sub') hd' (Copy.covers_patch.2 ⟨start, stop⟩)).1
          exact absurd covers' (last c' hc')
  · left
    have none_ : ∀ p ∈ (Copy.merge copies).map (Copy.patch e w offset), ¬ p.Covers place := by
      rw [List.forall_mem_map]
      exact fun c hc covers => covered ⟨c, hc, covers⟩
    have none' : ∀ p ∈ copies.map (Copy.patch e w offset), ¬ p.Covers place := by
      rw [List.forall_mem_map]
      intro d hd covers
      obtain ⟨c, hc, parts, spans, hd, sub⟩ := Copy.exists_merged hd
      exact covered ⟨c, hc, (spans.patch (names sub) (sizes sub) hd covers).1⟩
    rw [Patch.wire_of_not_covers none_, Patch.wire_of_not_covers none']

theorem size_merge (h : Lineup lossy lengths marks copies items) (plain : ∀ c ∈ copies, c.PlainNames)
    (he : e.Settled marks) :
    (((Copy.merge copies).map (Copy.patch e w offset)).foldl Patch.apply memory).size =
      ((copies.map (Copy.patch e w offset)).foldl Patch.apply memory).size := by
  have same (bound : Int) :
      (((Copy.merge copies).map (Copy.patch e w offset)).foldl Patch.apply memory).size ≤ bound ↔
        ((copies.map (Copy.patch e w offset)).foldl Patch.apply memory).size ≤ bound := by
    rw [Patch.size_le_iff, Patch.size_le_iff, List.forall_mem_map, List.forall_mem_map]
    have stop (c : Copy) : (c.patch e w offset).start + (c.patch e w offset).length = offset + c.stop e := by
      simp only [Copy.patch, Copy.start, Copy.stop]
      omega
    simp only [stop]
    refine and_congr_right' ⟨fun all d hd => ?_, fun all c hc => ?_⟩
    · obtain ⟨c, hc, parts, spans, hd, sub⟩ := Copy.exists_merged hd
      have := (spans.within (fun d hd => plain d (sub d hd)) (fun d hd => nonneg_copy h he (sub d hd)) d hd).2.1
      have := all c hc
      omega
    · obtain ⟨before, after, split⟩ := List.append_of_mem hc
      obtain ⟨parts, front, back, spans, sorted, _⟩ := Copy.spans_split split
      have sub : ∀ d ∈ parts, d ∈ copies := fun d hd => Copy.mem_sorted.1 (by simp [sorted, hd])
      obtain ⟨last, ends⟩ := spans.ends fun d hd => plain d (sub d hd)
      rw [ends.stop e]
      exact all last (sub last (List.mem_of_getLast? ends.ending))
  exact Int.le_antisymm ((same _).2 (Int.le_refl _)) ((same _).1 (Int.le_refl _))

/-- A level with merged copies leaves what the level leaves, apart from lost bytes. -/
theorem merge_block (h : Arrangement lossy lengths marks copies pointers low high items)
    (plain : ∀ c ∈ copies, c.PlainNames) (small : ∀ c ∈ copies, c.dst.sample 0 + c.size.sample 0 < 2 ^ 63)
    (he : e.Settled marks) :
    ((pointers.map (Pointer.patch e offset)).foldl Patch.apply
        (((Copy.merge copies).map (Copy.patch e w offset)).foldl Patch.apply memory)).size =
      ((pointers.map (Pointer.patch e offset)).foldl Patch.apply
        ((copies.map (Copy.patch e w offset)).foldl Patch.apply memory)).size ∧
    ∀ place, ((pointers.map (Pointer.patch e offset)).foldl Patch.apply
        (((Copy.merge copies).map (Copy.patch e w offset)).foldl Patch.apply memory)).wire place =
      ((pointers.map (Pointer.patch e offset)).foldl Patch.apply
        ((copies.map (Copy.patch e w offset)).foldl Patch.apply memory)).wire place ∨
      Lost lossy lengths copies e (place - offset) := by
  constructor
  · refine Int.le_antisymm (Patch.size_le_iff.2 ?_) (Patch.size_le_iff.2 ?_)
    · rw [size_merge h.toLineup plain he]
      exact Patch.size_le_iff.1 (Int.le_refl _)
    · rw [← size_merge h.toLineup plain he]
      exact Patch.size_le_iff.1 (Int.le_refl _)
  · intro place
    by_cases covered : ∃ p ∈ pointers.map (Pointer.patch e offset), p.Covers place
    · exact .inl (Patch.wire_congr (.inr covered))
    · have free : ∀ q ∈ pointers, ¬ (q.patch e offset).Covers place :=
        fun q hq covers => covered ⟨_, List.mem_map_of_mem hq, covers⟩
      exact (h.wire_merge plain small he free).imp_left fun same => Patch.wire_congr (.inl same)

end Arrangement
end Calldata
