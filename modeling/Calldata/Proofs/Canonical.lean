import Calldata.Proofs.Building
import Calldata.Proofs.Run

/-!
Strict reading and following offset words. The strict decoder trusts no offset word; where its own
reading turns out to be canonical, following the offset words gives the same value. So a strict run
accepts only canonical calldata, and a lenient run leaves the same memory there.
-/
namespace Calldata
open Cell Value

namespace Value

mutual

def Filled : Value → Prop
  | .word _ => True
  | .bytes _ rest => ∀ i, rest i ≠ none
  | .tuple parts => FilledEach parts
  | .list parts => FilledEach parts

def FilledEach : List Value → Prop
  | [] => True
  | v :: rest => v.Filled ∧ FilledEach rest

end

theorem filledEach_iff {parts : List Value} : FilledEach parts ↔ ∀ v ∈ parts, v.Filled := by
  induction parts with
  | nil => simp [FilledEach]
  | cons v rest ih => simp [FilledEach, ih]

theorem none_not_mem_ofWord (n : Nat) : none ∉ ofWord n := by simp [ofWord]

theorem none_not_mem_slots (parts : List Value) (next : Int) : none ∉ slots next parts := by
  induction parts generalizing next with
  | nil => simp [slots]
  | cons v rest ih => cases v <;> simp [slots, none_not_mem_ofWord, ih]

mutual

theorem Filled.none_not_mem_image : {v : Value} → v.Filled → {address : Int} → none ∉ v.image address
  | .word n, _, _ => none_not_mem_ofWord n
  | .bytes content rest, h, _ => by
    have h : ∀ i, rest i ≠ none := h
    simp [image, ofContent, none_not_mem_ofWord, h]
  | .tuple parts, h, _ => by
    simp [image, none_not_mem_slots, none_not_mem_bodies h]
  | .list parts, h, _ => by
    simp [image, none_not_mem_ofWord, none_not_mem_slots, none_not_mem_bodies h]

theorem none_not_mem_bodies : {parts : List Value} → FilledEach parts → {next : Int} →
    none ∉ bodies next parts
  | [], _, _ => by simp [bodies]
  | v :: rest, h, next => by
    rw [bodies, List.mem_append, not_or]
    refine ⟨?_, none_not_mem_bodies h.2⟩
    split
    · simp
    · exact h.1.none_not_mem_image

end

theorem Filled.same_byte {v : Value} (h : v.Filled) {u u' : Wire} {address : Int}
    (hu : u.Matches (v.image address)) (hu' : u'.Matches (v.image address)) {i : Nat} (hi : i < v.size) :
    u i = u' i := by
  have inside : i < (v.image address).length := by rwa [length_image]
  cases cell : (v.image address)[i] with
  | none => exact absurd (cell ▸ List.getElem_mem inside) h.none_not_mem_image
  | some b =>
    have there : (v.image address)[i]? = some (some b) := by rw [List.getElem?_eq_getElem inside, cell]
    rw [hu i b there, hu' i b there]

end Value

namespace Part

theorem filledEach_walk {strict : Bool} {u : Wire} {parts : List Part}
    (filled : ∀ p ∈ parts, ∀ u, (p.decode u).Filled) (head offset : Nat) :
    FilledEach (walk strict u head offset parts) := by
  rw [filledEach_iff]
  intro v hv
  obtain ⟨p, hp, u', rfl⟩ := mem_walk hv
  exact filled p hp u'

/-- A second reading of a part that finds the same wherever the first finds a canonical encoding. -/
structure Confirms (q p : Part) : Prop where
  isDynamic : q.isDynamic = p.isDynamic
  headSize : q.headSize = p.headSize
  decode (u : Wire) : (p.decode u).size < 256 ^ 32 → u.Matches (p.decode u).cells → q.decode u = p.decode u

theorem confirms_walk {u : Wire} {qs ps : List Part} (confirms : List.Forall₂ Confirms qs ps)
    (regular : ∀ p ∈ ps, p.Regular) {head offset : Nat}
    (small : offset + tailSizes (walk true u head offset ps) < 256 ^ 32)
    (low : ∀ v ∈ walk true u head offset ps, v.size < 256 ^ 32)
    (aligned : Aligned u head offset (walk true u head offset ps)) :
    walk false u head offset qs = walk true u head offset ps := by
  induction confirms generalizing head offset with
  | nil => rfl
  | @cons q p qs ps first _ ih =>
    have dynamic := (regular p (by simp)).isDynamic (u.drop (p.start true u head offset))
    have size := (regular p (by simp)).headSize (u.drop (p.start true u head offset))
    have regular := fun p hp => regular p (List.mem_cons_of_mem _ hp)
    rw [walk] at small low aligned
    rw [Aligned, dynamic] at aligned
    rw [tailSizes, dynamic] at small
    have fits := low _ List.mem_cons_self
    have low := fun v hv => low v (List.mem_cons_of_mem _ hv)
    rw [walk, walk, first.headSize, first.isDynamic]
    cases hp : p.isDynamic with
    | true =>
      have start : p.start true u head offset = offset := by simp [Part.start, hp]
      rw [Value.headSize, dynamic, hp] at size
      simp only [hp, start, if_true] at small low aligned fits size ⊢
      obtain ⟨word, body, rest⟩ := aligned
      have found : q.start false u head offset = offset := by
        simp [Part.start, first.isDynamic, hp, Wire.word_of_matches (by omega) word]
      rw [found, first.decode _ fits body]
      rw [size] at rest
      rw [ih regular (by omega) low rest]
    | false =>
      have start : p.start true u head offset = head := by simp [Part.start, hp]
      have found : q.start false u head offset = head := by simp [Part.start, first.isDynamic, hp]
      rw [Value.headSize, dynamic, hp] at size
      simp only [hp, start, Bool.false_eq_true, if_false, Nat.zero_add] at small low aligned fits size ⊢
      obtain ⟨body, rest⟩ := aligned
      rw [found, first.decode _ fits body]
      rw [size] at rest
      rw [ih regular small low rest]

theorem confirms_tuple {u : Wire} {qs ps : List Part} (confirms : List.Forall₂ Confirms qs ps)
    (regular : ∀ p ∈ ps, p.Regular)
    (small : (Value.tuple (tuple true ps u)).size < 256 ^ 32)
    (h : u.Matches (Value.tuple (tuple true ps u)).cells) : tuple false qs u = tuple true ps u := by
  have same : headSizes qs = headSizes ps := by
    clear small h regular
    induction confirms with
    | nil => rfl
    | cons first _ ih => rw [headSizes, headSizes, first.headSize, ih]
  have encoded := extents_le (tuple true ps u)
  rw [Value.size] at small
  rw [extents_eq, tuple, headSizes_walk regular] at encoded
  rw [Value.cells, matches_frame, tuple, headSizes_walk regular] at h
  rw [tuple, tuple, same]
  refine confirms_walk confirms regular ?_ (fun v hv => ?_) h
  · rw [tuple] at small
    omega
  · have := size_le_of_mem hv
    rw [tuple] at small
    omega

end Part

namespace Tree

theorem filled_decode (t : Tree) (strict : Bool) (u : Wire) : (t.decode strict u).Filled := by
  induction t using Tree.induction generalizing u with
  | word => trivial
  | bytes => exact fun i => Option.some_ne_none _
  | fixed n positive t ih | dynamic t ih =>
    exact Part.filledEach_walk (fun p hp u => List.eq_of_mem_replicate hp ▸ ih u) _ _
  | record fields ih =>
    refine Part.filledEach_walk (fun p hp u => ?_) _ _
    rw [parts_eq] at hp
    obtain ⟨f, hf, rfl⟩ := List.mem_map.1 hp
    exact ih f hf u

/-- Where the strict reading is canonical, the offset words lead to the same value. -/
theorem confirms_part (t : Tree) : (t.part false).Confirms (t.part true) := by
  have each {n : Nat} {t : Tree} (ih : (t.part false).Confirms (t.part true)) :
      List.Forall₂ Part.Confirms (List.replicate n (t.part false)) (List.replicate n (t.part true)) := by
    induction n with
    | zero => exact .nil
    | succ n rest => exact .cons ih rest
  induction t using Tree.induction with
  | word | bytes => exact ⟨rfl, rfl, fun u _ _ => rfl⟩
  | fixed n positive t ih =>
    refine ⟨rfl, rfl, fun u small h => ?_⟩
    exact congrArg Value.tuple (Part.confirms_tuple (each ih) (regular_replicate true n t) small h)
  | dynamic t ih =>
    refine ⟨rfl, rfl, fun u small h => ?_⟩
    replace small : (Value.list (Part.tuple true (List.replicate (u.number 0 32) (t.part true))
      (u.drop 32))).size < 256 ^ 32 := small
    replace h : u.Matches (Value.list (Part.tuple true (List.replicate (u.number 0 32) (t.part true))
      (u.drop 32))).cells := h
    rw [Value.size] at small
    rw [Value.cells, Wire.matches_append, length_ofWord] at h
    have body : (u.drop 32).Matches (Value.tuple (Part.tuple true
      (List.replicate (u.number 0 32) (t.part true)) (u.drop 32))).cells := h.2
    have same := Part.confirms_tuple (each ih) (regular_replicate true (u.number 0 32) t)
      (by rw [Value.size]; omega) body
    exact congrArg Value.list same
  | record fields ih =>
    refine ⟨rfl, rfl, fun u small h => ?_⟩
    have confirms : List.Forall₂ Part.Confirms (parts false fields) (parts true fields) := by
      rw [parts_eq, parts_eq, List.forall₂_map_left_iff, List.forall₂_map_right_iff]
      exact List.forall₂_same.2 ih
    exact congrArg Value.tuple (Part.confirms_tuple confirms (regular_parts true fields) small h)

end Tree

namespace Image
variable {i j : Image} {v : Value}

theorem Holds.body? {t : Tree} {strict : Bool} {u : Wire} {address : Nat}
    (h : i.Holds address (t.decode strict u)) (small : address + i.size < UInt64.size) :
    i.body? t address = some (t.decode strict u).bare := by
  refine body?_of_matches (t.holds_decode strict u) ?_ (matches_bare _ h.body)
  rwa [size_bare, ← h.size]

/-- A filled value leaves no choice of memory. -/
theorem Holds.same_bytes (hi : i.Holds 0 v) (hj : j.Holds 0 v) (filled : v.Filled) :
    i.bytes = j.bytes := by
  have size : i.bytes.size = j.bytes.size := by
    have := hi.room
    have := hj.room
    rcases Nat.eq_zero_or_pos v.size with zero | positive
    · omega
    · rw [hi.full positive, hj.full positive]
  have room := hi.room
  refine Memory.ofBytes_inj (Memory.ext (funext fun k => ?_) (congrArg Int.ofNat size))
  show Wire.ofBytes i.bytes k = Wire.ofBytes j.bytes k
  by_cases inside : 0 ≤ k ∧ k < v.size
  · obtain ⟨k, rfl⟩ := Int.eq_ofNat_of_zero_le inside.1
    have same := filled.same_byte hi.body hj.body (i := k) (by omega)
    simpa [Image.wire] using same
  · have outside {b : ByteArray} (hb : b.size ≤ v.size) : Wire.ofBytes b k = 0 := by
      unfold Wire.ofBytes
      split
      · rw [Array.getElem?_eq_none (by rw [ByteArray.size_data]; omega)]
        rfl
      · rfl
    rw [outside (by omega), outside (by omega)]

end Image

namespace Machine
variable {m : Machine} {p q : Plan} {t : Tree} {i : Image}

theorem size_le_of_holds {v : Value} (holds : i.Holds 0 v) : v.size ≤ i.bytes.size := by
  rcases Nat.eq_zero_or_pos v.size with zero | positive
  · omega
  · have := holds.full positive
    omega

theorem run_at_zero {strict : Bool} (sound : p.Sound strict (t.part strict))
    (small : ((t.decode strict m.wire).size : Int) < Term.top ∨ (i.bytes.size : Int) < Term.top)
    (h : m.run p 0 0 = .ok i) : i.Holds 0 (t.decode strict m.wire) ∧ (strict = true →
      m.wire.Matches (t.decode strict m.wire).cells ∧
        i.calldataSize = some (t.decode strict m.wire).extent) := by
  have value : (t.part strict).decode (m.wire.drop (0 : Int64).toInt) = t.decode strict m.wire := by
    rw [Int64.toInt_zero, Wire.drop_zero]
    rfl
  have held := run_holds sound (by simp) (by simp) (by rwa [value]) h
  simpa [Tree.part] using held

theorem run_canonical_at_zero {strict : Bool} (sound : p.Sound strict (t.part strict))
    (canonical : m.wire.Matches (t.decode strict m.wire).cells)
    (room : (t.decode strict m.wire).size ≤ m.limit)
    (small : ((t.decode strict m.wire).size : Int) < Term.top) : ∃ i, m.run p 0 0 = .ok i := by
  have encoded := (t.decode strict m.wire).extent_le_size
  have value : (t.part strict).decode (m.wire.drop (0 : Int64).toInt) = t.decode strict m.wire := by
    rw [Int64.toInt_zero, Wire.drop_zero]
    rfl
  unfold Term.top at small
  refine run_of_canonical sound (by simp) (by simp) ?_ ?_ ?_ ?_
  · rw [value, Int64.toInt_zero, Wire.drop_zero]
    exact canonical
  all_goals
    rw [value, Int64.toInt_zero]
    omega

theorem run_lenient_of_strict (strict : p.Sound true (t.part true))
    (lenient : q.Sound false (t.part false)) (small : (i.bytes.size : Int) < Term.top)
    (h : m.run p 0 0 = .ok i) : ∃ j, m.run q 0 0 = .ok j ∧ j.bytes = i.bytes ∧ j.size = i.size := by
  obtain ⟨holds, canonical⟩ := run_at_zero strict (.inr small) h
  have room := size_le_of_holds holds
  have limit := run_bytes_le h
  have same : t.decode false m.wire = t.decode true m.wire := by
    refine t.confirms_part.decode m.wire ?_ (canonical rfl).1
    show (t.decode true m.wire).size < 256 ^ 32
    unfold Term.top at small
    omega
  have fits : ((t.decode false m.wire).size : Int) < Term.top := by
    rw [same]
    omega
  obtain ⟨j, hj⟩ := run_canonical_at_zero lenient (same ▸ (canonical rfl).1) (by rw [same]; omega) fits
  have held := (run_at_zero lenient (.inl fits) hj).1
  rw [same] at held
  exact ⟨j, hj, held.same_bytes holds (t.filled_decode true m.wire), held.size.trans holds.size.symm⟩

end Machine

end Calldata
