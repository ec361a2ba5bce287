import Calldata.Proofs.Decode
import Calldata.Proofs.WordReading

/-!
Reading an image back. A tree says which words of a body are values and which are addresses of
other bodies. From an image that holds the body of a value of the tree, following the addresses
gives that value.
-/
namespace Calldata
open Cell Value

namespace Image

def part? (i : Image) (isWord : Bool) (body : Nat → Option Value) (address : Nat) : Option Value :=
  if isWord then body address else (i.wordValue address).bind body

def parts? : List (Nat → Option Value) → Nat → Option (List Value)
  | [], _ => some []
  | part :: rest, address => do return (← part address) :: (← parts? rest (address + 32))

mutual

/-- The value of a tree whose body is at an address. -/
def body? (i : Image) : Tree → Nat → Option Value
  | .word, address => some (.word (Bytes.bigEndian (i.word address)))
  | .bytes, address => do
    let length ← i.wordValue address
    return .bytes (i.slice (address + 32) length).data.toList unknown
  | .fixed n _ t, address =>
    (parts? (List.replicate n (i.part? t.isWord (i.body? t))) address).map .tuple
  | .dynamic t, address => do
    let length ← i.wordValue address
    return .list (← parts? (List.replicate length (i.part? t.isWord (i.body? t))) (address + 32))
  | .record fields, address => (parts? (i.readers fields) address).map .tuple

def readers (i : Image) : List (String × Tree) → List (Nat → Option Value)
  | [] => []
  | (_, t) :: rest => i.part? t.isWord (i.body? t) :: i.readers rest

end

theorem readers_eq (i : Image) (fields : List (String × Tree)) :
    i.readers fields = fields.map fun f => i.part? f.2.isWord (i.body? f.2) := by
  induction fields with
  | nil => rfl
  | cons f rest ih => simp [readers, ih]

theorem body?_congr {i j : Image} (same : i.bytes = j.bytes) (t : Tree) (address : Nat) :
    i.body? t address = j.body? t address := by
  have slices (address length : Nat) : i.slice address length = j.slice address length := by
    rw [slice, slice, same]
  have values (address : Nat) : i.wordValue address = j.wordValue address := by
    unfold wordValue word
    rw [slices]
  have parts (isWord : Bool) {f g : Nat → Option Value} (each : ∀ address, f address = g address) :
      i.part? isWord f = j.part? isWord g := by
    funext address
    simp only [part?, values, funext each]
  induction t using Tree.induction generalizing address with
  | word => simp only [body?, word, slices]
  | bytes => simp only [body?, values, slices]
  | fixed n positive t ih => simp only [body?, parts _ ih]
  | dynamic t ih => simp only [body?, values, parts _ ih]
  | record fields ih =>
    have readers : i.readers fields = j.readers fields := by
      rw [readers_eq, readers_eq]
      exact List.map_congr_left fun f hf => parts _ (ih f hf)
    simp only [body?, readers]

def wire (i : Image) : Wire := Wire.ofBytes i.bytes

theorem bigEndian_word (i : Image) (address : Nat) :
    Bytes.bigEndian (i.word address) = i.wire.number address 32 :=
  Bytes.bigEndian_window _ _ _

theorem wordValue_eq (i : Image) (address : Nat) :
    i.wordValue address =
      if i.wire.number address 32 < UInt64.size then some (i.wire.number address 32) else none :=
  wordValue_eq_number i address

theorem wordValue_of_matches {i : Image} {address n : Nat} (small : n < UInt64.size)
    (h : (i.wire.drop address).Matches (ofWord n)) : i.wordValue address = some n := by
  have found := Wire.number_of_matches (by simp [UInt64.size] at small; omega) h
  rw [Wire.number_drop, Int.add_zero] at found
  rw [wordValue_eq, found, if_pos small]

/-- `part` reads the value `v` from a word at an address, with the body of `v` at another. -/
def Shows (i : Image) (part : Nat → Option Value) (v : Value) : Prop :=
  ∀ address next : Nat, next + v.bodySize < UInt64.size →
    (i.wire.drop address).Matches (slots next [v]) →
    (v.isWord = false → (i.wire.drop next).Matches (v.image next)) → part address = some v

theorem parts?_of_matches {i : Image} {readers : List (Nat → Option Value)} {vs : List Value}
    (shows_ : List.Forall₂ i.Shows readers vs) {address next : Nat}
    (small : next + bodySizes vs < UInt64.size)
    (words : (i.wire.drop address).Matches (slots next vs))
    (held : (i.wire.drop next).Matches (bodies next vs)) : parts? readers address = some vs := by
  induction shows_ generalizing address next with
  | nil => rfl
  | @cons part v readers vs first _ ih =>
    have taken : ((if v.isWord then [] else v.image next).length : Int) = v.bodySize := by
      rw [bodySize]
      cases v.isWord <;> simp [length_image]
    rw [slots_cons, Wire.matches_append, Wire.drop_drop, length_slots] at words
    rw [bodies_cons, Wire.matches_append, Wire.drop_drop, taken] at held
    rw [bodySizes_cons] at small
    have here : part address = some v :=
      first address next (by omega) words.1 fun hv => by simpa [hv] using held.1
    have later : parts? readers (address + 32) = some vs := by
      refine @ih (address + 32) (next + v.bodySize) (by omega) ?_ ?_
      · simpa using words.2
      · simpa using held.2
    simp [parts?, here, later]

theorem shows_part {i : Image} {t : Tree} {v : Value} (holds : t.Holds v)
    (read : ∀ address : Nat, address + v.size < UInt64.size →
      (i.wire.drop address).Matches (v.image address) → i.body? t address = some v) :
    i.Shows (i.part? t.isWord (i.body? t)) v := by
  intro address next small word body
  unfold part?
  cases v with
  | word n =>
    cases t <;> try exact holds.elim
    simp only [Tree.isWord, if_true, body?, bigEndian_word]
    rw [slots, slots, List.append_nil] at word
    have found := Wire.number_of_matches holds word
    rw [Wire.number_drop, Int.add_zero] at found
    rw [found]
  | bytes content rest | tuple parts | list parts =>
    have plain : t.isWord = false := by cases t <;> first | rfl | exact holds.elim
    rw [plain]
    simp only [Bool.false_eq_true, if_false]
    rw [slots_body rfl, Int.toNat_natCast] at word
    rw [wordValue_of_matches (by omega) word, Option.bind_some]
    exact read next small (body rfl)

/-- An image that holds the body of a value is read as that value. -/
theorem body?_of_matches {i : Image} {t : Tree} {v : Value} (holds : t.Holds v) {address : Nat}
    (small : address + v.size < UInt64.size) (h : (i.wire.drop address).Matches (v.image address)) :
    i.body? t address = some v := by
  induction t using Tree.induction generalizing v address with
  | word =>
    cases v <;> try exact holds.elim
    have found := Wire.number_of_matches holds h
    rw [Wire.number_drop, Int.add_zero] at found
    rw [body?, bigEndian_word, found]
  | bytes =>
    cases v <;> try exact holds.elim
    rename_i content rest
    cases (show rest = unknown from holds)
    rw [image, Wire.matches_ofContent] at h
    rw [Value.size] at small
    simp only [body?, wordValue_of_matches (by omega) h.1, Option.bind_eq_bind, Option.bind_some,
      Option.pure_def]
    congr 2
    have length := Bytes.size_window i.bytes (address + 32) content.length
    rw [← ByteArray.size_data] at length
    apply List.ext_getElem?
    intro k
    by_cases hk : k < content.length
    · have byte := Bytes.byte_window i.bytes (address + 32) content.length k hk
      have found := h.2.1 k content[k] (by simp [hk])
      rw [Wire.drop, wire, ← Int.add_assoc, show (address : Int) + 32 + k = (address + 32 + k : Nat) by
        omega, Wire.ofBytes_natCast, ← byte] at found
      simp only [slice, Array.getElem?_toList, List.getElem?_eq_getElem hk]
      rw [← found, Array.getElem?_eq_getElem (by omega)]
      simp
    · simp [slice, length, hk]
  | fixed n positive t ih =>
    cases v <;> try exact holds.elim
    obtain ⟨length, each⟩ := holds
    rename_i vs
    have readers := Tree.forall₂_replicate length fun v hv =>
      shows_part (each v hv) fun _ => ih (each v hv)
    rw [image, Wire.matches_append, Wire.drop_drop, length_slots] at h
    rw [Value.size] at small
    have found := @parts?_of_matches i _ vs readers address (address + 32 * vs.length) (by omega)
      (by simpa using h.1) (by simpa using h.2)
    simp [body?, found]
  | dynamic t ih =>
    cases v <;> try exact holds.elim
    rename_i vs
    have readers := Tree.forall₂_replicate rfl fun v hv =>
      shows_part (holds v hv) fun _ => ih (holds v hv)
    rw [image, Wire.matches_append, Wire.matches_append, Wire.drop_drop, Wire.drop_drop,
      length_slots, length_ofWord] at h
    rw [Value.size] at small
    have found := @parts?_of_matches i _ vs readers (address + 32) (address + (32 + 32 * vs.length))
      (by omega) (by simpa using h.2.1) (by simpa [Int.add_assoc] using h.2.2)
    simp [body?, wordValue_of_matches (by omega) h.1, found]
  | record fields ih =>
    cases v <;> try exact holds.elim
    rename_i vs
    have readers : List.Forall₂ i.Shows (i.readers fields) vs := by
      rw [readers_eq, List.forall₂_map_left_iff]
      have each : ∀ f ∈ fields, ∀ {v}, f.2.Holds v →
          i.Shows (i.part? f.2.isWord (i.body? f.2)) v :=
        fun f hf _ hv => shows_part hv fun _ => ih f hf hv
      exact ((List.forall₂_and_left fields vs).2 ⟨each, Tree.holdsEach_iff.1 holds⟩).imp
        fun f v h => h.1 h.2
    rw [image, Wire.matches_append, Wire.drop_drop, length_slots] at h
    rw [Value.size] at small
    have found := @parts?_of_matches i _ vs readers address (address + 32 * vs.length) (by omega)
      (by simpa using h.1) (by simpa using h.2)
    simp [body?, found]

end Image
end Calldata
