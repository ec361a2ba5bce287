import Calldata.Proofs.Tree
import Mathlib.Data.List.Forall2

/-!
What the decoder finds. A wire matches a list of cells if it has the byte of every cell that is not
open. Where the wire matches the encoding of a value of a tree, the decoder finds that value, with
and without regard to the offset words. Whatever the wire, the strict decoder finds a value of the
tree, and the static parts of its encoding match.
-/
namespace Calldata
open Cell Value

namespace Wire

def Matches (u : Wire) (cells : List Cell) : Prop :=
  ∀ (i : Nat) (b : UInt8), cells[i]? = some (some b) → u i = b

variable {u : Wire}

theorem matches_iff_all {cells : List Cell} :
    u.Matches cells ↔ (cells.zipIdx.all fun c => c.1.all fun b => u c.2 == b) = true := by
  simp only [List.all_eq_true, Option.all_eq_true, beq_iff_eq]
  constructor
  · intro h c hc b hb
    refine h c.2 b ?_
    rw [List.mk_mem_zipIdx_iff_getElem?.1 hc, hb]
  · intro h i b hb
    exact h (some b, i) (List.mk_mem_zipIdx_iff_getElem?.2 hb) b rfl

instance (u : Wire) (cells : List Cell) : Decidable (u.Matches cells) :=
  decidable_of_iff _ matches_iff_all.symm

theorem matches_nil : u.Matches [] := by
  intro i b h
  simp at h

theorem matches_append {a b : List Cell} :
    u.Matches (a ++ b) ↔ u.Matches a ∧ (u.drop a.length).Matches b := by
  constructor
  · intro h
    refine ⟨fun i x hx => h i x ?_, fun i x hx => ?_⟩
    · have inside := (List.getElem?_eq_some_iff.1 hx).1
      rw [List.getElem?_append_left inside, hx]
    · have found := h (a.length + i) x (by rw [List.getElem?_append_right (by omega)]; simpa using hx)
      simpa [drop] using found
  · rintro ⟨first, second⟩ i x hx
    by_cases inside : i < a.length
    · rw [List.getElem?_append_left inside] at hx
      exact first i x hx
    · rw [List.getElem?_append_right (by omega)] at hx
      have found := second (i - a.length) x hx
      rw [drop, ← Int.natCast_add, Nat.add_sub_cancel' (by omega)] at found
      exact found

theorem getElem?_ofWord {n i : Nat} {b : UInt8} :
    (ofWord n)[i]? = some (some b) ↔ i < 32 ∧ b = Bytes.digit n i := by
  by_cases hi : i < 32
  · simp [ofWord, hi, eq_comm]
  · simp [ofWord, hi]

theorem matches_ofWord_number : u.Matches (ofWord (u.number 0 32)) := by
  intro i b h
  obtain ⟨hi, rfl⟩ := getElem?_ofWord.1 h
  rw [Bytes.digit_number u 0 hi, Int.zero_add]

theorem number_of_matches {n : Nat} (small : n < 256 ^ 32) (h : u.Matches (ofWord n)) :
    u.number 0 32 = n :=
  Bytes.number_digit u 0 small fun k hk => by
    rw [Int.zero_add]
    exact h k _ (getElem?_ofWord.2 ⟨hk, rfl⟩)

theorem word_of_matches {n : Nat} {place : Int} (small : n < 256 ^ 32)
    (h : (u.drop place).Matches (ofWord n)) : u.word place = n := by
  have found := number_of_matches small h
  rw [number_drop, Int.add_zero] at found
  rw [word, found]

theorem matches_of_word {n : Nat} {place : Int} (h : u.word place = n) :
    (u.drop place).Matches (ofWord n) := by
  have found : u.number place 32 = n := Int.ofNat.inj h
  have shown := matches_ofWord_number (u := u.drop place)
  rwa [number_drop, Int.add_zero, found] at shown

theorem matches_ofContent {content : List UInt8} {rest : Nat → Cell} :
    u.Matches (ofContent content rest) ↔ u.Matches (ofWord content.length) ∧
      (∀ (i : Nat) (b : UInt8), content[i]? = some b → u (32 + i) = b) ∧
      ∀ i < filling content.length, ∀ b, rest i = some b → u (32 + content.length + i) = b := by
  rw [ofContent, matches_append, matches_append, length_ofWord]
  refine and_congr_right fun _ => and_congr ⟨fun h i b hb => ?_, fun h i b hb => ?_⟩
    ⟨fun h i hi b hb => ?_, fun h i b hb => ?_⟩
  · exact h i b (by simp [hb])
  · rw [List.getElem?_map, Option.map_eq_some_iff] at hb
    obtain ⟨x, hx, e⟩ := hb
    cases e
    exact h i b hx
  · have there := h i b (by simp [hi, hb])
    rwa [drop_drop, List.length_map] at there
  · rw [List.getElem?_map, Option.map_eq_some_iff] at hb
    obtain ⟨k, hk, hb⟩ := hb
    obtain ⟨inside, rfl⟩ := List.getElem?_eq_some_iff.1 hk
    rw [drop_drop, List.length_map]
    exact h i (by simpa using inside) b (by simpa using hb)

end Wire

namespace Value
variable {u : Wire}

/-- Parts stand where the canonical encoding has them: the next head at `head`, the next dynamic
part at `offset`. -/
def Aligned (u : Wire) : Nat → Nat → List Value → Prop
  | _, _, [] => True
  | head, offset, v :: rest =>
    if v.isDynamic then
      (u.drop head).Matches (ofWord offset) ∧ (u.drop offset).Matches v.cells ∧
        Aligned u (head + 32) (offset + v.extent) rest
    else (u.drop head).Matches v.cells ∧ Aligned u (head + v.extent) offset rest

theorem aligned_iff (parts : List Value) (head offset : Nat) :
    Aligned u head offset parts ↔
      (u.drop head).Matches (heads offset parts) ∧ (u.drop offset).Matches (tails parts) := by
  induction parts generalizing head offset with
  | nil => simp [Aligned, heads, tails, Wire.matches_nil]
  | cons v rest ih =>
    rw [Aligned, heads, tails]
    split
    · rw [ih, Wire.matches_append, Wire.matches_append, length_ofWord, length_cells,
        Wire.drop_drop, Wire.drop_drop]
      simp only [Int.natCast_add]
      constructor
      · rintro ⟨a, b, c, d⟩
        exact ⟨⟨a, c⟩, b, d⟩
      · rintro ⟨⟨a, c⟩, b, d⟩
        exact ⟨a, b, c, d⟩
    · rw [ih, Wire.matches_append, length_cells, Wire.drop_drop, List.nil_append]
      simp only [Int.natCast_add, and_assoc]

theorem matches_frame {parts : List Value} :
    u.Matches (heads (headSizes parts) parts ++ tails parts) ↔
      Aligned u 0 (headSizes parts) parts := by
  rw [aligned_iff, Wire.matches_append, length_heads]
  simp

theorem slots_bareEach (parts : List Value) (next : Int) :
    slots next (bareEach parts) = slots next parts := by
  induction parts generalizing next with
  | nil => rfl
  | cons v rest ih =>
    cases v <;> simp [bareEach, bare, slots, ih, bodySize, isWord, size, bodySizes_bareEach]

mutual

theorem matches_bare {u : Wire} : (v : Value) → {address : Int} → u.Matches (v.image address) →
    u.Matches (v.bare.image address)
  | .word _, _ => id
  | .bytes content rest, _ => fun h => by
    obtain ⟨length, body, -⟩ := Wire.matches_ofContent.1 h
    exact Wire.matches_ofContent.2 ⟨length, body, fun _ _ _ open_ => nomatch open_⟩
  | .tuple parts, _ => by
    rw [bare, image, image, Wire.matches_append, Wire.matches_append, slots_bareEach, length_bareEach]
    exact fun h => ⟨h.1, matches_bareEach parts h.2⟩
  | .list parts, _ => by
    rw [bare, image, image, Wire.matches_append, Wire.matches_append, Wire.matches_append,
      Wire.matches_append, slots_bareEach, length_bareEach]
    exact fun h => ⟨h.1, h.2.1, matches_bareEach parts h.2.2⟩

theorem matches_bareEach {u : Wire} : (parts : List Value) → {next : Int} →
    u.Matches (bodies next parts) → u.Matches (bodies next (bareEach parts))
  | [], _ => id
  | v :: rest, next => by
    rw [bareEach, bodies, bodies, Wire.matches_append, Wire.matches_append, isWord_bare, size_bare]
    intro h
    cases hv : v.isWord with
    | true =>
      simp only [hv, if_true] at h ⊢
      exact ⟨h.1, matches_bareEach rest h.2⟩
    | false =>
      simp only [hv, Bool.false_eq_true, if_false, length_image, size_bare] at h ⊢
      exact ⟨matches_bare v h.1, matches_bareEach rest h.2⟩

end

theorem isWord_of_dynamic {v : Value} (dynamic : v.isDynamic = true) : v.isWord = false := by
  cases v with
  | word n => cases dynamic
  | bytes _ _ | tuple _ | list _ => rfl

theorem anyDynamic_false {parts : List Value} (h : anyDynamic parts = false) :
    extents parts = headSizes parts := by
  induction parts with
  | nil => rfl
  | cons v rest ih =>
    simp only [anyDynamic, Bool.or_eq_false_iff] at h
    simp [extents, headSizes, headSize, h.1, ih h.2]

end Value

namespace Part

structure Regular (p : Part) : Prop where
  isWord (u : Wire) : (p.decode u).isWord = p.isWord
  isDynamic (u : Wire) : (p.decode u).isDynamic = p.isDynamic
  headSize (u : Wire) : (p.decode u).headSize = p.headSize

theorem Regular.head_of_dynamic {p : Part} (h : p.Regular) (dynamic : p.isDynamic = true) : p.headSize = 32 := by
  have head := h.headSize fun _ => 0
  rw [Value.headSize, h.isDynamic, dynamic, if_pos rfl] at head
  exact head.symm

variable {strict : Bool} {u : Wire}

theorem length_walk (parts : List Part) (head offset : Nat) :
    (walk strict u head offset parts).length = parts.length := by
  induction parts generalizing head offset with
  | nil => rfl
  | cons p rest ih => simp [walk, ih]

theorem anyDynamic_walk {parts : List Part} (regular : ∀ p ∈ parts, p.Regular) (head offset : Nat) :
    anyDynamic (walk strict u head offset parts) = parts.any Part.isDynamic := by
  induction parts generalizing head offset with
  | nil => rfl
  | cons p rest ih =>
    rw [walk, anyDynamic, (regular p (by simp)).isDynamic, ih fun p hp => regular p (by simp [hp])]
    rfl

theorem headSizes_walk {parts : List Part} (regular : ∀ p ∈ parts, p.Regular) (head offset : Nat) :
    Value.headSizes (walk strict u head offset parts) = headSizes parts := by
  induction parts generalizing head offset with
  | nil => rfl
  | cons p rest ih =>
    rw [walk, Value.headSizes, (regular p (by simp)).headSize,
      ih fun p hp => regular p (by simp [hp])]
    rfl

theorem walk_append (done rest : List Part) (regular : ∀ p ∈ done, p.Regular) (head offset : Nat) :
    walk strict u head offset (done ++ rest) =
      walk strict u head offset done ++
        walk strict u (head + headSizes done)
          (offset + tailSizes (walk strict u head offset done)) rest := by
  induction done generalizing head offset with
  | nil => simp [walk, headSizes, tailSizes]
  | cons p done ih =>
    rw [List.cons_append, walk, walk, ih fun p hp => regular p (by simp [hp])]
    simp only [headSizes, tailSizes, (regular p (by simp)).isDynamic, List.cons_append]
    split <;> simp [Nat.add_assoc]

theorem regular_tuple {parts : List Part} (regular : ∀ p ∈ parts, p.Regular) :
    (Value.tuple (tuple strict parts u)).isDynamic = parts.any Part.isDynamic ∧
      (Value.tuple (tuple strict parts u)).headSize =
        if parts.any Part.isDynamic then 32 else headSizes parts := by
  have dynamic := @anyDynamic_walk strict u parts regular 0 (headSizes parts)
  refine ⟨dynamic, ?_⟩
  rw [Value.headSize, Value.isDynamic, tuple, dynamic]
  split
  · rfl
  · next static =>
    rw [Value.extent, anyDynamic_false (by rw [dynamic]; simpa using static), headSizes_walk regular]

/-- A part has the form of a value, and finds it where its encoding stands. -/
structure Reads (p : Part) (v : Value) : Prop where
  isDynamic : p.isDynamic = v.isDynamic
  headSize : p.headSize = v.headSize
  decode (u : Wire) : v.size < 256 ^ 32 → u.Matches v.cells → (p.decode u).bare = v

/-- A wire with the encodings of values in place is read as those values. -/
theorem walk_of_aligned {parts : List Part} {vs : List Value} (reads : List.Forall₂ Reads parts vs)
    {head offset : Nat} (small : offset + tailSizes vs < 256 ^ 32)
    (low : ∀ v ∈ vs, v.size < 256 ^ 32)
    (aligned : Aligned u head offset vs) : bareEach (walk strict u head offset parts) = vs := by
  induction reads generalizing head offset with
  | nil => rfl
  | @cons p v parts vs first _ ih =>
    have ⟨dynamic, size, decoded⟩ := first
    have fits := low v (by simp)
    have later := fun v hv => low v (List.mem_cons_of_mem _ hv)
    rw [Aligned] at aligned
    rw [tailSizes] at small
    cases hv : v.isDynamic with
    | true =>
      simp only [hv, if_true] at aligned small
      obtain ⟨word, body, rest⟩ := aligned
      have found : p.start strict u head offset = offset := by
        simp [start, dynamic, hv, Wire.word_of_matches (by omega) word]
      have here := decoded _ fits body
      have extent : (p.decode (u.drop offset)).extent = v.extent := by rw [← extent_bare, here]
      simp only [walk, found, dynamic, hv, if_true, size, Value.headSize, bareEach, extent]
      rw [here, ih (by omega) later rest]
    | false =>
      simp only [hv] at aligned small
      obtain ⟨body, rest⟩ := aligned
      have found : p.start strict u head offset = head := by simp [start, dynamic, hv]
      simp only [walk, found, dynamic, hv, size, Value.headSize, bareEach]
      simp only [Bool.false_eq_true, if_false, Nat.zero_add] at small rest ⊢
      rw [decoded _ fits body, ih small later rest]

theorem reads_form {parts : List Part} {vs : List Value} (reads : List.Forall₂ Reads parts vs) :
    anyDynamic vs = parts.any Part.isDynamic ∧ Value.headSizes vs = headSizes parts := by
  induction reads with
  | nil => exact ⟨rfl, rfl⟩
  | cons first _ ih =>
    simp [anyDynamic, Value.headSizes, headSizes, ← first.isDynamic, ← first.headSize, ih]

theorem tuple_of_matches {parts : List Part} {vs : List Value} (reads : List.Forall₂ Reads parts vs)
    (small : 32 * vs.length + bodySizes vs < 256 ^ 32)
    (h : u.Matches (heads (Value.headSizes vs) vs ++ tails vs)) :
    bareEach (tuple strict parts u) = vs := by
  have encoded := extents_le vs
  rw [extents_eq] at encoded
  rw [tuple, ← (reads_form reads).2]
  refine walk_of_aligned reads (by omega) (fun v hv => ?_) (matches_frame.1 h)
  have := size_le_of_mem hv
  omega

end Part

namespace Tree
variable {strict : Bool} {u : Wire}

theorem any_isDynamic_parts (fields : List (String × Tree)) :
    (parts strict fields).any Part.isDynamic = anyDynamic fields := by
  induction fields with
  | nil => rfl
  | cons f rest ih => simp [parts, anyDynamic, ih]

theorem anyDynamic_eq (fields : List (String × Tree)) : anyDynamic fields = fields.any (·.2.isDynamic) := by
  induction fields with
  | nil => rfl
  | cons f rest ih => rw [anyDynamic, ih, List.any_cons]

theorem static_of_mem {fields : List (String × Tree)} (static : anyDynamic fields = false) {f : String × Tree} (hf : f ∈ fields) :
    f.2.isDynamic = false := by
  rw [anyDynamic_eq, List.any_eq_false] at static
  simpa using static f hf

theorem headSizes_parts (fields : List (String × Tree)) :
    Part.headSizes (parts strict fields) = headSizes fields := by
  induction fields with
  | nil => rfl
  | cons f rest ih => simp [parts, headSizes, Part.headSizes, ih]

theorem headSizes_replicate (n : Nat) (p : Part) :
    Part.headSizes (List.replicate n p) = n * p.headSize := by
  induction n with
  | zero => simp [Part.headSizes]
  | succ n ih => simp [List.replicate_succ, Part.headSizes, ih, Nat.succ_mul, Nat.add_comm]

theorem length_tuple_replicate (strict : Bool) (n : Nat) (p : Part) (u : Wire) :
    (Part.tuple strict (List.replicate n p) u).length = n := by
  rw [Part.tuple, Part.length_walk, List.length_replicate]

theorem headSizes_tuple_replicate {p : Part} (regular : p.Regular) (strict : Bool) (n : Nat) (u : Wire) :
    Value.headSizes (Part.tuple strict (List.replicate n p) u) = n * p.headSize := by
  rw [Part.tuple, Part.headSizes_walk fun q hq => List.eq_of_mem_replicate hq ▸ regular, headSizes_replicate]

theorem any_replicate {n : Nat} (positive : 0 < n) (p : Part) :
    (List.replicate n p).any Part.isDynamic = p.isDynamic := by
  cases n with
  | zero => omega
  | succ n => simp [List.replicate_succ]

theorem regular_part (strict : Bool) (t : Tree) : (t.part strict).Regular := by
  induction t using Tree.induction with
  | word => exact ⟨fun _ => rfl, fun _ => rfl, fun _ => rfl⟩
  | bytes => exact ⟨fun _ => rfl, fun _ => rfl, fun _ => rfl⟩
  | dynamic t ih => exact ⟨fun _ => rfl, fun _ => rfl, fun _ => rfl⟩
  | fixed n positive t ih =>
    have each : ∀ p ∈ List.replicate n (t.part strict), p.Regular :=
      fun _ hp => (List.eq_of_mem_replicate hp) ▸ ih
    refine ⟨fun _ => rfl, fun u => ?_, fun u => ?_⟩
    · exact (Part.regular_tuple each).1.trans (any_replicate positive _)
    · refine (Part.regular_tuple each).2.trans ?_
      rw [any_replicate positive, headSizes_replicate]
      rfl
  | record fields ih =>
    have each : ∀ p ∈ parts strict fields, p.Regular := by
      rw [parts_eq]
      intro p hp
      obtain ⟨f, hf, rfl⟩ := List.mem_map.1 hp
      exact ih f hf
    refine ⟨fun _ => rfl, fun u => ?_, fun u => ?_⟩
    · exact (Part.regular_tuple each).1.trans (any_isDynamic_parts fields)
    · refine (Part.regular_tuple each).2.trans ?_
      rw [any_isDynamic_parts, headSizes_parts]
      rfl

theorem regular_parts (strict : Bool) (fields : List (String × Tree)) :
    ∀ p ∈ parts strict fields, p.Regular := by
  rw [parts_eq]
  intro p hp
  obtain ⟨f, _, rfl⟩ := List.mem_map.1 hp
  exact regular_part strict f.2

theorem regular_replicate (strict : Bool) (n : Nat) (t : Tree) :
    ∀ p ∈ List.replicate n (t.part strict), p.Regular :=
  fun _ hp => (List.eq_of_mem_replicate hp) ▸ regular_part strict t

theorem holdsEach_iff {fields : List (String × Tree)} {vs : List Value} :
    HoldsEach fields vs ↔ List.Forall₂ (fun f v => f.2.Holds v) fields vs := by
  induction fields generalizing vs with
  | nil => cases vs <;> simp [HoldsEach]
  | cons f rest ih => cases vs <;> simp [HoldsEach, ih]

theorem forall₂_replicate {α : Type} {n : Nat} {R : α → Value → Prop} {p : α} {vs : List Value}
    (length : vs.length = n) (each : ∀ v ∈ vs, R p v) : List.Forall₂ R (List.replicate n p) vs := by
  subst length
  induction vs with
  | nil => exact .nil
  | cons v rest ih =>
    exact .cons (each v (by simp)) (ih fun v hv => each v (by simp [hv]))

/-- A value of a tree has the form that the tree says, and is found where its encoding stands. -/
theorem reads_of_holds {t : Tree} {v : Value} (holds : t.Holds v) (strict : Bool) :
    (t.part strict).Reads v := by
  induction t using Tree.induction generalizing v with
  | word =>
    cases v <;> try exact holds.elim
    refine ⟨rfl, rfl, fun u _ h => ?_⟩
    exact congrArg Value.word (Wire.number_of_matches holds h)
  | bytes =>
    cases v <;> try exact holds.elim
    rename_i content rest
    cases (show rest = unknown from holds)
    refine ⟨rfl, rfl, fun u small h => ?_⟩
    obtain ⟨length, body, -⟩ := Wire.matches_ofContent.1 h
    rw [size] at small
    show Value.bytes _ _ = _
    rw [Wire.number_of_matches (by omega) length]
    congr 1
    apply List.ext_getElem?
    intro i
    by_cases hi : i < content.length
    · simp [hi, body i content[i] (by simp [hi])]
    · simp [hi]
  | fixed n positive t ih =>
    cases v <;> try exact holds.elim
    obtain ⟨length, each⟩ := holds
    have reads := forall₂_replicate length fun v hv => ih (each v hv)
    have form := Part.reads_form reads
    rw [any_replicate positive, headSizes_replicate] at form
    refine ⟨form.1.symm, ?_, fun u small h => congrArg _ (Part.tuple_of_matches reads small h)⟩
    rw [Value.headSize, Value.isDynamic, form.1]
    split
    · next d => simp only [part, headSize, show t.isDynamic = true from d, if_true]
    · next d =>
      rw [Value.extent, anyDynamic_false (by rw [form.1]; simpa using d), form.2]
      simp only [part, headSize, show t.isDynamic = false by simpa [part] using d]
      rfl
  | dynamic t ih =>
    cases v <;> try exact holds.elim
    rename_i vs
    refine ⟨rfl, rfl, fun u small h => ?_⟩
    rw [cells, Wire.matches_append, length_ofWord] at h
    rw [size] at small
    have reads := forall₂_replicate rfl fun v hv => ih (holds v hv)
    show Value.list _ = _
    rw [Wire.number_of_matches (by omega) h.1]
    exact congrArg _ (Part.tuple_of_matches reads (by omega) h.2)
  | record fields ih =>
    cases v <;> try exact holds.elim
    rename_i vs
    have reads : List.Forall₂ Part.Reads (parts strict fields) vs := by
      rw [parts_eq, List.forall₂_map_left_iff]
      have each : ∀ f ∈ fields, ∀ {v}, f.2.Holds v → (f.2.part strict).Reads v := ih
      exact ((List.forall₂_and_left fields vs).2 ⟨each, holdsEach_iff.1 holds⟩).imp
        fun f v h => h.1 h.2
    have form := Part.reads_form reads
    rw [any_isDynamic_parts, headSizes_parts] at form
    refine ⟨form.1.symm, ?_, fun u small h => congrArg _ (Part.tuple_of_matches reads small h)⟩
    rw [Value.headSize, Value.isDynamic, form.1]
    split
    · next d => simp only [part, headSize, d, if_true]
    · next d =>
      rw [Value.extent, anyDynamic_false (by rw [form.1]; simpa using d), form.2]
      simp only [part, headSize, show anyDynamic fields = false by simpa using d]
      rfl

theorem decode_of_matches {t : Tree} {v : Value} (holds : t.Holds v) (small : v.size < 256 ^ 32)
    (h : u.Matches v.cells) : (t.decode strict u).bare = v :=
  (reads_of_holds holds strict).decode u small h

end Tree

namespace Part
variable {strict : Bool} {u : Wire}

theorem mem_walk {parts : List Part} {head offset : Nat} {v : Value}
    (h : v ∈ walk strict u head offset parts) : ∃ p ∈ parts, ∃ u', v = p.decode u' := by
  induction parts generalizing head offset with
  | nil => cases h
  | cons p rest ih =>
    rcases List.mem_cons.1 h with rfl | h
    · exact ⟨p, by simp, _, rfl⟩
    · obtain ⟨q, hq, u', rfl⟩ := ih h
      exact ⟨q, by simp [hq], u', rfl⟩

theorem aligned_walk {parts : List Part} (regular : ∀ p ∈ parts, p.Regular)
    (static : ∀ p ∈ parts, p.isDynamic = false ∧ ∀ u : Wire, u.Matches (p.decode u).cells)
    (head offset : Nat) : Aligned u head offset (walk strict u head offset parts) := by
  induction parts generalizing head offset with
  | nil => trivial
  | cons p rest ih =>
    obtain ⟨hp, found⟩ := static p (by simp)
    have hv := (regular p (by simp)).isDynamic (u.drop (p.start strict u head offset))
    have size := (regular p (by simp)).headSize (u.drop (p.start strict u head offset))
    have here : p.start strict u head offset = head := by simp [start, hp]
    rw [Value.headSize, hv, hp] at size
    rw [walk, Aligned, hv, hp, here]
    rw [here] at size
    simp only [Bool.false_eq_true, if_false] at size ⊢
    refine ⟨found _, ?_⟩
    rw [size]
    exact ih (fun p hp => regular p (by simp [hp])) (fun p hp => static p (by simp [hp])) _ _

end Part

namespace Tree
variable {u : Wire}

theorem matches_of_static {t : Tree} (strict : Bool) (static : t.isDynamic = false) (u : Wire) :
    u.Matches (t.decode strict u).cells := by
  induction t using Tree.induction generalizing u with
  | word => exact Wire.matches_ofWord_number
  | bytes => cases static
  | dynamic t => cases static
  | fixed n positive t ih =>
    rw [decode_fixed, cells, matches_frame, Part.tuple,
      Part.headSizes_walk (regular_replicate strict n t)]
    refine Part.aligned_walk (regular_replicate strict n t) (fun p hp => ?_) _ _
    cases List.eq_of_mem_replicate hp
    exact ⟨static, ih static⟩
  | record fields ih =>
    rw [decode_record, cells, matches_frame, Part.tuple,
      Part.headSizes_walk (regular_parts strict fields)]
    refine Part.aligned_walk (regular_parts strict fields) (fun p hp => ?_) _ _
    rw [parts_eq] at hp
    obtain ⟨f, hf, rfl⟩ := List.mem_map.1 hp
    have hs : f.2.isDynamic = false := by
      have none_dynamic := @any_isDynamic_parts strict fields
      rw [show anyDynamic fields = false from static, parts_eq] at none_dynamic
      simpa [part] using List.any_eq_false.1 none_dynamic (f.2.part strict) (List.mem_map.2 ⟨f, hf, rfl⟩)
    exact ⟨hs, ih f hf hs⟩

theorem matches_dynamic {t : Tree} (strict : Bool) (static : t.isDynamic = false) (u : Wire) :
    u.Matches ((dynamic t).decode strict u).cells := by
  rw [decode_dynamic, cells, Wire.matches_append, matches_frame, Part.tuple, Part.length_walk,
    List.length_replicate, length_ofWord, Part.headSizes_walk (regular_replicate strict _ t)]
  refine ⟨Wire.matches_ofWord_number, Part.aligned_walk (regular_replicate strict _ t) (fun p hp => ?_) _ _⟩
  cases List.eq_of_mem_replicate hp
  exact ⟨static, matches_of_static strict static⟩

theorem holdsEach_walk {strict : Bool} {fields : List (String × Tree)}
    (each : ∀ f ∈ fields, ∀ u, f.2.Holds (f.2.decode strict u).bare) (head offset : Nat) :
    HoldsEach fields (bareEach (Part.walk strict u head offset (parts strict fields))) := by
  induction fields generalizing head offset with
  | nil => trivial
  | cons f rest ih =>
    exact ⟨each f (by simp) _, ih (fun f hf => each f (by simp [hf])) _ _⟩

/-- What the decoder finds is a value of the tree. -/
theorem holds_decode (t : Tree) (strict : Bool) (u : Wire) : t.Holds (t.decode strict u).bare := by
  induction t using Tree.induction generalizing u with
  | word => exact u.number_lt 0 32
  | bytes => rfl
  | fixed n positive t ih =>
    refine ⟨by rw [length_bareEach, length_tuple_replicate], fun v hv => ?_⟩
    obtain ⟨w, hw, rfl⟩ := mem_bareEach.1 hv
    obtain ⟨p, hp, u', rfl⟩ := Part.mem_walk hw
    cases List.eq_of_mem_replicate hp
    exact ih u'
  | dynamic t ih =>
    intro v hv
    obtain ⟨w, hw, rfl⟩ := mem_bareEach.1 hv
    obtain ⟨p, hp, u', rfl⟩ := Part.mem_walk hw
    cases List.eq_of_mem_replicate hp
    exact ih u'
  | record fields ih => exact holdsEach_walk ih _ _

end Tree
end Calldata
