import Mathlib.Data.List.Sort
import Calldata.Proofs.Coverage
import Calldata.Proofs.Simulation

/-!
Merging copies between fixed places. Here the order of destinations is known, so merging is exact: merged
copies stand in order and apart from each other, they leave what the copies leave wherever one of those
writes, and what else they write lies in a short gap that no copy writes to. The order in which copies are
given does not matter, and merging again changes nothing.
-/
namespace Calldata

namespace Copy
variable {c d : Copy} {copies parts : List Copy} {e : Scene}

/-- A copy stays behind one that does not certainly start after it. -/
def Stays (c p : Copy) : Prop := ¬ p.dst.greater c.dst = .holds

instance : DecidableRel Stays := fun c p => inferInstanceAs (Decidable (¬ p.dst.greater c.dst = .holds))

theorem insertByDst_eq (c : Copy) (copies : List Copy) : insertByDst c copies = copies.orderedInsert Stays c := by
  induction copies with
  | nil => rfl
  | cons p rest ih =>
    rw [insertByDst, List.orderedInsert_cons, ih]
    by_cases greater : p.dst.greater c.dst = .holds
    · have passes : ¬ c.Stays p := not_not.2 greater
      rw [if_pos greater, if_neg passes]
    · have stays : c.Stays p := greater
      rw [if_neg greater, if_pos stays]

theorem sorted_eq (copies : List Copy) : sorted copies = (copies.reverse.insertionSort Stays).reverse := by
  have inserted : (fun done c => insertByDst c done) = fun done c => List.orderedInsert Stays c done := by
    funext done c
    exact insertByDst_eq c done
  rw [sorted, inserted, List.insertionSort, List.foldr_reverse]

theorem sorted_of_pairwise (h : copies.Pairwise fun c d => d.Stays c) : sorted copies = copies := by
  rw [sorted_eq, (List.pairwise_reverse.2 h).insertionSort_eq, List.reverse_reverse]

/-- Neighbours that can be merged are merged at once: a merged copy has the start of its first part, and
the copy before it is complete by then. -/
theorem isChain_merge (copies : List Copy) : (merge copies).IsChain fun c d => c.gap d = none := by
  have joined {merged : List Copy} (c : Copy) (h : merged.IsChain fun d c => c.gap d = none) :
      (join merged c).IsChain fun d c => c.gap d = none := by
    cases merged with
    | nil => exact .singleton c
    | cons last rest =>
      rw [join]
      cases near : last.gap c with
      | none => exact .cons_cons near h
      | some g =>
        rw [List.isChain_cons] at h ⊢
        exact h
  have scanned (copies merged : List Copy) (h : merged.IsChain fun d c => c.gap d = none) :
      (copies.foldl join merged).IsChain fun d c => c.gap d = none := by
    induction copies generalizing merged with
    | nil => exact h
    | cons c rest ih => exact ih _ (joined c h)
  exact List.isChain_reverse.2 (scanned (sorted copies) [] .nil)

theorem foldl_join_of_isChain (h : copies.IsChain fun c d => c.gap d = none) :
    copies.foldl join [] = copies.reverse := by
  induction copies using List.reverseRecOn with
  | nil => rfl
  | append_singleton earlier c ih =>
    obtain ⟨chain, _, last⟩ := List.isChain_append.1 h
    rw [List.foldl_append, ih chain, List.foldl_cons, List.foldl_nil, List.reverse_concat]
    cases reversed : earlier.reverse with
    | nil => rfl
    | cons d rest =>
      have ending : earlier.getLast? = some d := by rw [← List.head?_reverse, reversed]; rfl
      rw [join, last d ending c rfl]

theorem merge_of_chain (ordered : copies.Pairwise fun c d => d.Stays c)
    (apart : copies.IsChain fun c d => c.gap d = none) : merge copies = copies := by
  rw [merge, sorted_of_pairwise ordered, foldl_join_of_isChain apart, List.reverse_reverse]

theorem Spans.exists_start (h : c.Spans parts) : ∃ first ∈ parts, c.start e = first.start e := by
  induction h with
  | one c => exact ⟨c, by simp, rfl⟩
  | more _ _ ih =>
    obtain ⟨first, there, same⟩ := ih
    exact ⟨first, by simp [there], same⟩

theorem ordered_merge (plain : ∀ c ∈ copies, c.PlainNames)
    (ordered : (sorted copies).Pairwise fun c d => c.stop e ≤ d.start e) :
    (merge copies).Pairwise fun c d => c.stop e ≤ d.start e := by
  obtain ⟨chains, spans, all⟩ := spans_merge copies
  have known : ∀ chain ∈ chains, ∀ d ∈ chain, d.PlainNames := by
    intro chain there d hd
    exact plain d (mem_sorted.1 (all ▸ List.mem_flatten.2 ⟨chain, there, hd⟩))
  rw [← all, List.pairwise_flatten] at ordered
  obtain ⟨-, across⟩ := ordered
  generalize merge copies = merged at spans ⊢
  clear all
  induction spans with
  | nil => exact .nil
  | @cons c chain rest chains here later ih =>
    obtain ⟨before, across⟩ := List.pairwise_cons.1 across
    obtain ⟨own, known⟩ := List.forall_mem_cons.1 known
    refine List.pairwise_cons.2 ⟨fun d hd => ?_, ih known across⟩
    obtain ⟨i, hi, rfl⟩ := List.getElem_of_mem hd
    have bound : i < chains.length := later.length_eq ▸ hi
    obtain ⟨first, starts, same⟩ := (later.get hi bound).exists_start (e := e)
    obtain ⟨last, ends⟩ := here.ends own
    have := before chains[i] (List.getElem_mem bound) last (List.mem_of_getLast? ends.ending) first starts
    rw [ends.stop e]
    exact same.symm ▸ this

theorem free_of_neighbours {before after : List Copy} {place : Int}
    (ordered : (before ++ c :: d :: after).Pairwise fun c d => c.stop e ≤ d.start e)
    (filled : c.start e ≤ c.stop e) (filled' : d.start e ≤ d.stop e) (left : c.stop e ≤ place)
    (right : place < d.start e) {x : Copy} (hx : x ∈ before ++ c :: d :: after) :
    ¬ (x.start e ≤ place ∧ place < x.stop e) := by
  obtain ⟨_, later, earlier⟩ := List.pairwise_append.1 ordered
  obtain ⟨_, behind⟩ := List.pairwise_cons.1 later
  rcases List.mem_append.1 hx with hx | hx
  · have := earlier x hx c (by simp)
    omega
  · rcases List.mem_cons.1 hx with rfl | hx
    · omega
    · rcases List.mem_cons.1 hx with rfl | hx
      · omega
      · have := (List.pairwise_cons.1 behind).1 x hx
        omega

end Copy

/-- A copy between fixed places. Something is copied, and no end is out of range. -/
structure Strip extends Copy.Extent where
  names : List String
  dst_nonneg : 0 ≤ dst.toInt
  src_nonneg : 0 ≤ src.toInt
  filled : 1 ≤ size.toInt
  dst_end : dst.toInt + size.toInt < 2 ^ 63
  src_end : src.toInt + size.toInt < 2 ^ 63

namespace Strip
variable {p q : Strip} {strips merged line : List Strip} {e : Scene} {w : Wire} {memory : Memory} {place : Int}

def copy (p : Strip) : Copy := ⟨.literal p.dst, .literal p.src, .literal p.size, p.names⟩

def stop (p : Strip) : Int := p.dst.toInt + p.size.toInt

def Covers (p : Strip) (place : Int) : Prop := p.dst.toInt ≤ place ∧ place < p.stop

def Before (p q : Strip) : Prop := p.stop ≤ q.dst.toInt

def Apart (p q : Strip) : Prop := p.Before q ∨ q.Before p

instance : DecidableRel Apart :=
  fun p q => inferInstanceAs (Decidable (p.stop ≤ q.dst.toInt ∨ q.stop ≤ p.dst.toInt))

instance : Std.Symm Apart := ⟨fun _ _ => Or.symm⟩

@[simp] theorem start_copy : p.copy.start e = p.dst.toInt := rfl

@[simp] theorem stop_copy : p.copy.stop e = p.stop := rfl

theorem plainNames_copy (p : Strip) : p.copy.PlainNames :=
  ⟨by simp [copy, Term.PlainNames, Term.occurrences], by simp [copy, Term.PlainNames, Term.occurrences],
    by simp [copy, Term.PlainNames, Term.occurrences]⟩

theorem start_le_stop (p : Strip) : p.copy.start e ≤ p.copy.stop e := by
  have := p.filled
  rw [start_copy, stop_copy, stop]
  omega

theorem eq_of_covers (apart : strips.Pairwise Apart) (hp : p ∈ strips) (hq : q ∈ strips) (here : p.Covers place)
    (there : q.Covers place) : p = q := by
  by_contra ne
  have := apart.forall hp hq ne
  simp only [Apart, Before, Covers, stop] at *
  omega

theorem stays_copy_iff : p.copy.Stays q.copy ↔ q.dst.toInt ≤ p.dst.toInt := by
  have decided : q.copy.dst.greater p.copy.dst = .holds ↔ p.dst.toInt < q.dst.toInt := by
    constructor
    · intro holds
      exact Term.lt_of_greater (fun _ => 0) (fun _ => 0) q.plainNames_copy.1 p.plainNames_copy.1 holds
    · intro less
      exact Term.Tidy.greater (.literal q.dst_nonneg) (.literal p.dst_nonneg) rfl (by rintro _ ⟨⟩) less
  rw [Copy.Stays, decided, Int.not_lt]

section Sorting

theorem pairwise_before (apart : strips.Pairwise Apart) (ascending : strips.Pairwise (·.dst.toInt ≤ ·.dst.toInt)) :
    strips.Pairwise Before := by
  refine (apart.and ascending).imp ?_
  rintro p q ⟨apart, le⟩
  have := q.filled
  simp only [Apart, Before, stop] at *
  omega

theorem eq_of_perm (perm : strips.Perm line) (ordered : strips.Pairwise Before) (ordered' : line.Pairwise Before) :
    strips = line := by
  refine perm.eq_of_pairwise (fun p q _ _ h h' => ?_) ordered ordered'
  have := p.filled
  have := q.filled
  simp only [Before, stop] at h h'
  omega

theorem exists_sorted (apart : strips.Pairwise Apart) :
    ∃ line : List Strip, line.Perm strips ∧ line.Pairwise Before ∧ Copy.sorted (strips.map copy) = line.map copy := by
  let after (p q : Strip) : Prop := q.dst.toInt ≤ p.dst.toInt
  have : Std.Total after := ⟨fun p q => Int.le_total _ _⟩
  have : IsTrans Strip after := ⟨fun p q r pq qr => Int.le_trans qr pq⟩
  let line := (strips.reverse.insertionSort after).reverse
  have perm : line.Perm strips :=
    (List.reverse_perm _).trans ((List.perm_insertionSort after _).trans (List.reverse_perm _))
  have ascending : line.Pairwise (·.dst.toInt ≤ ·.dst.toInt) :=
    List.pairwise_reverse.2 (List.pairwise_insertionSort after _)
  refine ⟨line, perm, pairwise_before ((perm.pairwise_iff Or.symm).2 apart) ascending, ?_⟩
  rw [Copy.sorted_eq, ← List.map_reverse, List.map_reverse (l := strips.reverse.insertionSort after),
    List.map_insertionSort after Copy.Stays copy _ fun p _ q _ => stays_copy_iff.symm]

theorem ordered_sorted (apart : strips.Pairwise Apart) (e : Scene) :
    (Copy.sorted (strips.map copy)).Pairwise fun c d => c.stop e ≤ d.start e := by
  obtain ⟨line, _, ordered, sorted⟩ := exists_sorted apart
  rw [sorted, List.pairwise_map]
  exact ordered

end Sorting

section Merging

theorem literal_add {a b c : Int64} (h : c.toInt = a.toInt + b.toInt) :
    Term.literal a + Term.literal b = .literal c := by
  show Term.sum _ _ = _
  simp only [Term.sum, Term.split, checked_eq_some_iff.2 h]

theorem exists_bridged {g : Int64} (near : p.copy.gap q.copy = some g) :
    ∃ j : Strip, j.copy = p.copy.bridged g q.copy := by
  obtain ⟨dst, src⟩ := Copy.worth_of_gap p.plainNames_copy q.plainNames_copy near (.even 0)
  obtain ⟨_, _, low, _⟩ := Copy.gap_eq_some near
  simp only [start_copy, stop_copy, stop] at dst
  change q.src.toInt = p.src.toInt + p.size.toInt + g.toInt at src
  have := p.dst_nonneg
  have := p.src_nonneg
  have := p.filled
  have := q.filled
  have := q.dst_end
  have := q.src_end
  obtain ⟨m, hm⟩ := exists_checked_of_bounds (n := p.size.toInt + g.toInt) (by omega) (by omega)
  have middle := checked_eq_some_iff.1 hm
  obtain ⟨n, hn⟩ := exists_checked_of_bounds (n := m.toInt + q.size.toInt) (by omega) (by omega)
  have whole := checked_eq_some_iff.1 hn
  have filled : 1 ≤ n.toInt := by omega
  have dst_end : p.dst.toInt + n.toInt < 2 ^ 63 := by omega
  have src_end : p.src.toInt + n.toInt < 2 ^ 63 := by omega
  refine ⟨⟨⟨p.dst, p.src, n⟩, p.names ++ q.names, p.dst_nonneg, p.src_nonneg, filled, dst_end, src_end⟩, ?_⟩
  simp only [copy, Copy.bridged, literal_add middle, literal_add whole]

theorem exists_merged (strips : List Strip) :
    ∃ merged : List Strip, Copy.merge (strips.map copy) = merged.map copy := by
  have each : ∀ c ∈ Copy.merge (strips.map copy), ∃ p : Strip, p.copy = c := by
    refine Copy.forall_mem_merge ?_ ?_
    · intro c hc
      obtain ⟨p, _, rfl⟩ := List.mem_map.1 hc
      exact ⟨p, rfl⟩
    · rintro _ _ g ⟨p, rfl⟩ ⟨q, rfl⟩ near
      exact exists_bridged near
  generalize Copy.merge (strips.map copy) = merged at each
  induction merged with
  | nil => exact ⟨[], rfl⟩
  | cons c rest ih =>
    obtain ⟨⟨p, rfl⟩, others⟩ := List.forall_mem_cons.1 each
    obtain ⟨merged, rfl⟩ := ih others
    exact ⟨p :: merged, rfl⟩

theorem plainNames_of_mem {c : Copy} (h : c ∈ strips.map copy) : c.PlainNames := by
  obtain ⟨p, _, rfl⟩ := List.mem_map.1 h
  exact p.plainNames_copy

theorem exists_spans (result : Copy.merge (strips.map copy) = merged.map copy) (hq : q ∈ merged) :
    ∃ parts front back, q.copy.Spans parts ∧ Copy.sorted (strips.map copy) = front ++ (parts ++ back) ∧
      ∀ d ∈ parts, d ∈ strips.map copy := by
  have there : q.copy ∈ Copy.merge (strips.map copy) := result ▸ List.mem_map_of_mem hq
  obtain ⟨before, after, split⟩ := List.append_of_mem there
  obtain ⟨parts, front, back, spans, cut, _⟩ := Copy.spans_split split
  exact ⟨parts, front, back, spans, cut, fun d hd => Copy.mem_sorted.1 (by simp [cut, hd])⟩

theorem exists_stop (result : Copy.merge (strips.map copy) = merged.map copy) (hq : q ∈ merged) :
    ∃ p ∈ strips, q.stop = p.stop := by
  obtain ⟨parts, _, _, spans, _, sub⟩ := exists_spans result hq
  obtain ⟨last, ends⟩ := spans.ends fun d hd => plainNames_of_mem (sub d hd)
  obtain ⟨p, hp, rfl⟩ := List.mem_map.1 (sub last (List.mem_of_getLast? ends.ending))
  exact ⟨p, hp, ends.stop (.even 0)⟩

theorem carries_of_spans {parts : List Copy} (spans : q.copy.Spans parts)
    (parts_of : ∀ d ∈ parts, d ∈ strips.map copy) (hp : p.copy ∈ parts) : q.Carries p.toExtent := by
  have sizes : ∀ d ∈ parts, 0 ≤ d.size.worth (.even 0) := by
    intro d hd
    obtain ⟨r, _, rfl⟩ := List.mem_map.1 (parts_of d hd)
    exact Int.le_of_lt r.filled
  obtain ⟨low, high, shift⟩ := spans.within (fun d hd => plainNames_of_mem (parts_of d hd)) sizes p.copy hp
  change p.src.toInt - q.src.toInt = p.dst.toInt - q.dst.toInt at shift
  exact ⟨low, high, by omega⟩

theorem exists_carries (result : Copy.merge (strips.map copy) = merged.map copy) (hp : p ∈ strips) :
    ∃ q ∈ merged, q.Carries p.toExtent := by
  obtain ⟨c, hc, parts, spans, mem, sub⟩ := Copy.exists_merged (List.mem_map_of_mem (f := copy) hp)
  obtain ⟨q, hq, rfl⟩ := List.mem_map.1 (result ▸ hc)
  exact ⟨q, hq, carries_of_spans spans sub mem⟩

theorem before_merged (apart : strips.Pairwise Apart) (result : Copy.merge (strips.map copy) = merged.map copy) :
    merged.Pairwise Before := by
  have ordered := Copy.ordered_merge (fun _ => plainNames_of_mem) (ordered_sorted apart (.even 0))
  rwa [result, List.pairwise_map] at ordered

theorem merge_perm {other : List Strip} (apart : strips.Pairwise Apart) (perm : other.Perm strips) :
    Copy.merge (other.map copy) = Copy.merge (strips.map copy) := by
  obtain ⟨line, perm₁, ordered₁, sorted₁⟩ := exists_sorted apart
  obtain ⟨line', perm₂, ordered₂, sorted₂⟩ := exists_sorted ((perm.pairwise_iff Or.symm).2 apart)
  have same : line' = line := eq_of_perm (perm₂.trans (perm.trans perm₁.symm)) ordered₂ ordered₁
  rw [Copy.merge, Copy.merge, sorted₁, sorted₂, same]

theorem merge_merged (apart : strips.Pairwise Apart) (result : Copy.merge (strips.map copy) = merged.map copy) :
    Copy.merge (merged.map copy) = merged.map copy := by
  refine Copy.merge_of_chain ?_ (result ▸ Copy.isChain_merge (strips.map copy))
  rw [List.pairwise_map]
  refine (before_merged apart result).imp fun {p q} before => stays_copy_iff.2 ?_
  have := p.filled
  simp only [Before, stop] at before
  omega

end Merging

section Running

def patch (w : Wire) (p : Strip) : Patch := ⟨p.dst.toInt, p.size.toInt, w.drop p.src.toInt⟩

theorem covers_patch : (p.patch w).Covers place ↔ p.Covers place := Iff.rfl

theorem wire_of_covers (apart : strips.Pairwise Apart) (hp : p ∈ strips) (covers : p.Covers place) :
    ((strips.map (patch w)).foldl Patch.apply memory).wire place = w (p.src.toInt + (place - p.dst.toInt)) := by
  obtain ⟨before, x, after, split, coversX, last⟩ := Patch.exists_last (P := (Patch.Covers · place))
    ⟨p.patch w, List.mem_map_of_mem hp, covers_patch.2 covers⟩
  have hx : x ∈ strips.map (patch w) := by simp [split]
  obtain ⟨q, hq, rfl⟩ := List.mem_map.1 hx
  obtain rfl := eq_of_covers apart hp hq covers (covers_patch.1 coversX)
  rw [split, Patch.wire_of_last coversX last]
  rfl

theorem lt_size_of_covers (hp : p ∈ strips) (covers : p.Covers place) :
    place < ((strips.map (patch w)).foldl Patch.apply memory).size := by
  have inside : p.stop ≤ ((strips.map (patch w)).foldl Patch.apply memory).size :=
    (Patch.size_le_iff.1 (Int.le_refl _)).2 (p.patch w) (List.mem_map_of_mem hp)
  exact Int.lt_of_lt_of_le covers.2 inside

theorem copies_copy_iff {m : Machine} {v : Values} : m.Copies v p.copy ↔ p.stop ≤ m.limit := by
  constructor
  · rintro ⟨dst, src, size, ⟨⟩, ⟨⟩, ⟨⟩, _, _, _, room⟩
    exact room
  · intro room
    exact ⟨p.dst, p.src, p.size, rfl, rfl, rfl, p.dst_nonneg, p.src_nonneg, Int.le_of_lt p.filled, room⟩

/-- Strips are copied if there is room for all of them, and else the run fails. -/
theorem run_strips (strips : List Strip) (m : Machine) (s : RunState) :
    ((∀ p ∈ strips, p.stop ≤ m.limit) → ∃ s', (strips.map copy).foldlM m.copy s = .ok s' ∧
      Memory.ofBytes s'.memory = (strips.map (patch m.wire)).foldl Patch.apply (Memory.ofBytes s.memory)) ∧
    ((¬ ∀ p ∈ strips, p.stop ≤ m.limit) → ∃ e, (strips.map copy).foldlM m.copy s = .error e) := by
  have runs := Machine.foldlM_writes (fun c v => c.write v m.wire) (fun _ _ => Machine.copy_ok)
    (fun _ _ => Machine.copy_error) (strips.map copy) s
  simp only [List.forall_mem_map, copies_copy_iff] at runs
  constructor
  · intro room
    obtain ⟨s', ran, _, left⟩ := runs.1 room
    refine ⟨s', ran, left.trans ?_⟩
    rw [List.foldl_map, List.foldl_map]
    rfl
  · intro full
    obtain ⟨e, failed, _⟩ := runs.2 full
    exact ⟨e, failed⟩

theorem room_merged_iff {limit : Nat} (result : Copy.merge (strips.map copy) = merged.map copy) :
    (∀ q ∈ merged, q.stop ≤ limit) ↔ ∀ p ∈ strips, p.stop ≤ limit := by
  constructor
  · intro room p hp
    obtain ⟨q, hq, carries⟩ := exists_carries result hp
    exact Int.le_trans carries.stop (room q hq)
  · intro room q hq
    obtain ⟨p, hp, same⟩ := exists_stop result hq
    exact same ▸ room p hp

theorem byte_of_run {m : Machine} {s s' : RunState} (apart : strips.Pairwise Apart)
    (left : Memory.ofBytes s'.memory = (strips.map (patch m.wire)).foldl Patch.apply (Memory.ofBytes s.memory))
    (hp : p ∈ strips) {i : Nat} (covers : p.Covers i) :
    s'.memory.data[i]? = some (m.wire (p.src.toInt + (i - p.dst.toInt))) := by
  have byte : (Memory.ofBytes s'.memory).wire i = m.wire (p.src.toInt + (i - p.dst.toInt)) := by
    rw [left, wire_of_covers apart hp covers]
  have inside : (i : Int) < (Memory.ofBytes s'.memory).size := by
    rw [left]
    exact lt_size_of_covers hp covers
  have inside : i < s'.memory.data.size := Int.ofNat_lt.1 inside
  change Wire.ofBytes s'.memory i = _ at byte
  rw [Wire.ofBytes_natCast, Array.getElem?_eq_getElem inside] at byte
  rw [Array.getElem?_eq_getElem inside, ← byte]
  rfl

end Running

section Gaps

/-- A byte of a merged strip belongs to a strip that it carries, or to none at all. Then it lies in a short
gap between two that it carries. -/
theorem covers_cases (apart : strips.Pairwise Apart)
    (result : Copy.merge (strips.map copy) = merged.map copy) (hq : q ∈ merged) (covers : q.Covers place) :
    (∃ p ∈ strips, q.Carries p.toExtent ∧ p.Covers place) ∨
      (∀ p ∈ strips, ¬ p.Covers place) ∧ ∃ p ∈ strips, ∃ p' ∈ strips, q.Carries p.toExtent ∧
        q.Carries p'.toExtent ∧ p.stop ≤ place ∧ place < p'.dst.toInt ∧ p'.dst.toInt - p.stop ≤ 128 := by
  have ordered := ordered_sorted apart (.even 0)
  obtain ⟨parts, front, back, spans, cut, sub⟩ := exists_spans result hq
  have plain : ∀ d ∈ parts, d.PlainNames := fun d hd => plainNames_of_mem (sub d hd)
  rcases spans.place plain covers.1 covers.2 with ⟨d, hd, inside⟩ | ⟨earlier, d, d', later, rfl, left, right⟩
  · obtain ⟨p, hp, rfl⟩ := List.mem_map.1 (sub d hd)
    exact .inl ⟨p, hp, carries_of_spans spans sub hd, inside⟩
  · obtain ⟨p, hp, rfl⟩ := List.mem_map.1 (sub d (by simp))
    obtain ⟨p', hp', rfl⟩ := List.mem_map.1 (sub d' (by simp))
    have joins : p.copy.Joins p'.copy := (List.isChain_append_cons_cons.1 (spans.joins plain)).2.1
    obtain ⟨g, _, narrow, gap⟩ := joins.near
    have gap : p'.dst.toInt = p.stop + g := (gap (.even 0)).1
    refine .inr ⟨fun x hx => ?_, p, hp, p', hp', carries_of_spans spans sub (by simp),
      carries_of_spans spans sub (by simp), left, right, by omega⟩
    have cut : Copy.sorted (strips.map copy) = (front ++ earlier) ++ p.copy :: p'.copy :: (later ++ back) := by
      simp [cut]
    rw [cut] at ordered
    have listed : x.copy ∈ Copy.sorted (strips.map copy) := Copy.mem_sorted.2 (List.mem_map_of_mem hx)
    exact Copy.free_of_neighbours ordered p.start_le_stop p'.start_le_stop left right (cut ▸ listed)

end Gaps

end Strip

/-- Merging strips that stand apart gives strips in order, apart from each other. Copying either of them, over
any memory, leaves the bytes of each strip, and fails if there is no room for them. All else that a merged strip
writes lies between two that it carries, at most 128 bytes from each other, and no strip writes there. Strips in
another order are merged into the same, and merging again changes nothing. -/
theorem merge_strips {strips : List Strip} (apart : strips.Pairwise Strip.Apart) :
    ∃ merged : List Strip, Copy.merge (strips.map Strip.copy) = merged.map Strip.copy ∧
      merged.Pairwise Strip.Before ∧
      (∀ (m : Machine) (s : RunState),
        ((∀ p ∈ strips, p.stop ≤ m.limit) → ∃ s₁ s₂, (strips.map Strip.copy).foldlM m.copy s = .ok s₁ ∧
          (merged.map Strip.copy).foldlM m.copy s = .ok s₂ ∧
          ∀ p ∈ strips, ∀ i : Nat, p.Covers i → s₂.memory.data[i]? = s₁.memory.data[i]? ∧
            s₁.memory.data[i]? = some (m.wire (p.src.toInt + (i - p.dst.toInt)))) ∧
        ((¬ ∀ p ∈ strips, p.stop ≤ m.limit) → ∃ e₁ e₂, (strips.map Strip.copy).foldlM m.copy s = .error e₁ ∧
          (merged.map Strip.copy).foldlM m.copy s = .error e₂)) ∧
      (∀ q ∈ merged, ∀ place, q.Covers place →
        (∃ p ∈ strips, q.Carries p.toExtent ∧ p.Covers place) ∨
          (∀ p ∈ strips, ¬ p.Covers place) ∧ ∃ p ∈ strips, ∃ p' ∈ strips, q.Carries p.toExtent ∧
            q.Carries p'.toExtent ∧ p.stop ≤ place ∧ place < p'.dst.toInt ∧ p'.dst.toInt - p.stop ≤ 128) ∧
      (∀ other : List Strip, other.Perm strips → Copy.merge (other.map Strip.copy) = merged.map Strip.copy) ∧
      Copy.merge (merged.map Strip.copy) = merged.map Strip.copy := by
  obtain ⟨merged, result⟩ := Strip.exists_merged strips
  have ordered := Strip.before_merged apart result
  refine ⟨merged, result, ordered, fun m s => ?_, fun q hq place => Strip.covers_cases apart result hq,
    fun other perm => (Strip.merge_perm apart perm).trans result, Strip.merge_merged apart result⟩
  have fits : (∀ q ∈ merged, q.stop ≤ m.limit) ↔ ∀ p ∈ strips, p.stop ≤ m.limit := Strip.room_merged_iff result
  have run₁ := Strip.run_strips strips m s
  have run₂ := Strip.run_strips merged m s
  rw [fits] at run₂
  constructor
  · intro room
    obtain ⟨s₁, ran₁, left₁⟩ := run₁.1 room
    obtain ⟨s₂, ran₂, left₂⟩ := run₂.1 room
    refine ⟨s₁, s₂, ran₁, ran₂, fun p hp i covers => ?_⟩
    obtain ⟨q, hq, carries⟩ := Strip.exists_carries result hp
    have covers' : q.Covers i := ⟨Int.le_trans carries.start covers.1, Int.lt_of_lt_of_le covers.2 carries.stop⟩
    have byte₁ := Strip.byte_of_run apart left₁ hp covers
    have byte₂ := Strip.byte_of_run (ordered.imp Or.inl) left₂ hq covers'
    have shift := carries.shift
    refine ⟨?_, byte₁⟩
    rw [byte₁, byte₂]
    congr 2
    omega
  · intro full
    obtain ⟨e₁, failed₁⟩ := run₁.2 full
    obtain ⟨e₂, failed₂⟩ := run₂.2 full
    exact ⟨e₁, e₂, failed₁, failed₂⟩

/-- Three parts of one value with the widest gap between two of them, and a byte from elsewhere. -/
def Strip.scattered : List Strip :=
  [⟨⟨288, 324, 64⟩, ["tail"], by decide, by decide, by decide, by decide, by decide⟩,
    ⟨⟨400, 0, 1⟩, ["other"], by decide, by decide, by decide, by decide, by decide⟩,
    ⟨⟨0, 36, 32⟩, ["head"], by decide, by decide, by decide, by decide, by decide⟩,
    ⟨⟨96, 132, 64⟩, ["middle"], by decide, by decide, by decide, by decide, by decide⟩]

theorem merge_strips_scattered :
    let copies := Strip.scattered.map Strip.copy
    Strip.scattered.Pairwise Strip.Apart ∧
      Copy.merge copies = [⟨.literal 0, .literal 36, .literal 352, ["head", "middle", "tail"]⟩,
        ⟨.literal 400, .literal 0, .literal 1, ["other"]⟩] ∧
      Copy.merge copies.reverse = Copy.merge copies ∧ Copy.merge (Copy.merge copies) = Copy.merge copies := by
  intro copies
  have apart : Strip.scattered.Pairwise Strip.Apart := by decide
  obtain ⟨merged, result, _, _, _, reordered, again⟩ := merge_strips apart
  refine ⟨apart, by decide +kernel, ?_, by rw [result, again]⟩
  rw [← List.map_reverse, reordered _ (List.reverse_perm _), result]

end Calldata
