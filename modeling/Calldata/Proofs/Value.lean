import Calldata.Proofs.Wire

/-!
Decoded values with their two representations: the canonical encoding in calldata, heads before
tails, and the image in memory, words and pointers before bodies. Both are lists of cells. A cell
holds a byte, or is open where any byte will do: in an encoding the filling after a byte string is
open.
-/
namespace Calldata

/-- A byte, or none where it may be any. -/
abbrev Cell := Option UInt8

inductive Value where
  | word (n : Nat)
  /-- A decoded value knows what came after the content; a bare one leaves it open. -/
  | bytes (content : List UInt8) (rest : Nat → Cell)
  /-- A record or an array of known length. -/
  | tuple (parts : List Value)
  /-- An array that carries its length. -/
  | list (parts : List Value)

namespace Cell

def ofWord (n : Nat) : List Cell := (List.range 32).map fun place => some (Bytes.digit n place)

def filling (n : Nat) : Nat := (n + 31) / 32 * 32 - n

def ofContent (content : List UInt8) (rest : Nat → Cell) : List Cell :=
  ofWord content.length ++ (content.map some ++ (List.range (filling content.length)).map rest)

def unknown : Nat → Cell := fun _ => none

end Cell

namespace Value
open Cell

def isWord : Value → Bool
  | .word _ => true
  | _ => false

mutual

def isDynamic : Value → Bool
  | .word _ => false
  | .bytes _ _ => true
  | .tuple parts => anyDynamic parts
  | .list _ => true

def anyDynamic : List Value → Bool
  | [] => false
  | v :: rest => v.isDynamic || anyDynamic rest

end

mutual

def extent : Value → Nat
  | .word _ => 32
  | .bytes content _ => 32 + (content.length + 31) / 32 * 32
  | .tuple parts => extents parts
  | .list parts => 32 + extents parts

def extents : List Value → Nat
  | [] => 0
  | v :: rest => (if v.isDynamic then 32 else 0) + v.extent + extents rest

end

def headSize (v : Value) : Nat := if v.isDynamic then 32 else v.extent

def headSizes : List Value → Nat
  | [] => 0
  | v :: rest => v.headSize + headSizes rest

mutual

/-- The canonical encoding. -/
def cells : Value → List Cell
  | .word n => ofWord n
  | .bytes content _ => ofContent content unknown
  | .tuple parts => heads (headSizes parts) parts ++ tails parts
  | .list parts => ofWord parts.length ++ (heads (headSizes parts) parts ++ tails parts)

/-- Static parts in place, for dynamic ones where they start; the next dynamic part starts at
`offset`. -/
def heads (offset : Nat) : List Value → List Cell
  | [] => []
  | v :: rest =>
    if v.isDynamic then ofWord offset ++ heads (offset + v.extent) rest
    else v.cells ++ heads offset rest

def tails : List Value → List Cell
  | [] => []
  | v :: rest => (if v.isDynamic then v.cells else []) ++ tails rest

end

/-- The canonical encoding with zeros as filling. -/
def encode (v : Value) : List UInt8 := v.cells.map (·.getD 0)

mutual

def size : Value → Nat
  | .word _ => 32
  | .bytes content _ => 32 + (content.length + 31) / 32 * 32
  | .tuple parts => 32 * parts.length + bodySizes parts
  | .list parts => 32 + (32 * parts.length + bodySizes parts)

def bodySizes : List Value → Nat
  | [] => 0
  | v :: rest => (if v.isWord then 0 else v.size) + bodySizes rest

end

def bodySize (v : Value) : Nat := if v.isWord then 0 else v.size

/-- One word per part: the part itself, or the address of its body. The next body goes to `next`. -/
def slots (next : Int) : List Value → List Cell
  | [] => []
  | .word n :: rest => ofWord n ++ slots next rest
  | v :: rest => ofWord next.toNat ++ slots (next + v.bodySize) rest

mutual

def image (address : Int) : Value → List Cell
  | .word n => ofWord n
  | .bytes content rest => ofContent content rest
  | .tuple parts =>
    slots (address + 32 * parts.length) parts ++ bodies (address + 32 * parts.length) parts
  | .list parts =>
    ofWord parts.length ++ (slots (address + (32 + 32 * parts.length)) parts ++
      bodies (address + (32 + 32 * parts.length)) parts)

def bodies (next : Int) : List Value → List Cell
  | [] => []
  | v :: rest =>
    (if v.isWord then [] else v.image next) ++
      bodies (next + if v.isWord then 0 else v.size) rest

end

theorem length_ofWord (n : Nat) : (ofWord n).length = 32 := by simp [ofWord]

theorem length_ofContent (content : List UInt8) (rest : Nat → Cell) :
    (ofContent content rest).length = 32 + (content.length + 31) / 32 * 32 := by
  simp [ofContent, length_ofWord, filling]
  omega

def tailSizes : List Value → Nat
  | [] => 0
  | v :: rest => (if v.isDynamic then v.extent else 0) + tailSizes rest

theorem extents_eq (parts : List Value) : extents parts = headSizes parts + tailSizes parts := by
  induction parts with
  | nil => rfl
  | cons v rest ih =>
    simp only [extents, headSizes, tailSizes, headSize, ih]
    split <;> omega

mutual

theorem length_cells : (v : Value) → v.cells.length = v.extent
  | .word n => length_ofWord n
  | .bytes content _ => length_ofContent content _
  | .tuple parts => by
    rw [cells, List.length_append, length_heads, length_tails, extent, extents_eq]
  | .list parts => by
    rw [cells, List.length_append, List.length_append, length_heads, length_tails, length_ofWord,
      extent, extents_eq]

theorem length_heads : (parts : List Value) → {offset : Nat} →
    (heads offset parts).length = headSizes parts
  | [], _ => rfl
  | v :: rest, offset => by
    rw [heads, headSizes, headSize]
    split
    · rw [List.length_append, length_ofWord, length_heads rest]
    · rw [List.length_append, length_cells v, length_heads rest]

theorem length_tails : (parts : List Value) → (tails parts).length = tailSizes parts
  | [] => rfl
  | v :: rest => by
    rw [tails, tailSizes, List.length_append, length_tails rest]
    split
    · rw [length_cells v]
    · rfl

end

theorem length_encode (v : Value) : v.encode.length = v.extent := by
  rw [encode, List.length_map, length_cells]

theorem length_slots (parts : List Value) (next : Int) :
    (slots next parts).length = 32 * parts.length := by
  induction parts generalizing next with
  | nil => rfl
  | cons v rest ih =>
    cases v <;> simp [slots, length_ofWord, ih] <;> omega

mutual

theorem length_image : (v : Value) → {address : Int} → (v.image address).length = v.size
  | .word n, _ => length_ofWord n
  | .bytes content rest, _ => length_ofContent content rest
  | .tuple parts, _ => by
    rw [image, List.length_append, length_slots, length_bodies, size]
  | .list parts, _ => by
    rw [image, List.length_append, List.length_append, length_slots, length_bodies, length_ofWord,
      size]

theorem length_bodies : (parts : List Value) → {next : Int} →
    (bodies next parts).length = bodySizes parts
  | [], _ => rfl
  | v :: rest, next => by
    rw [bodies, bodySizes, List.length_append, length_bodies rest]
    split
    · rfl
    · rw [length_image v]

end

mutual

/-- Memory takes a word for a word, and for everything else a pointer and at least its encoding. -/
theorem extent_le_size : (v : Value) → v.extent ≤ v.size
  | .word _ => Nat.le_refl _
  | .bytes _ _ => Nat.le_refl _
  | .tuple parts => extents_le parts
  | .list parts => Nat.add_le_add_left (extents_le parts) 32

theorem extents_le : (parts : List Value) → extents parts ≤ 32 * parts.length + bodySizes parts
  | [] => Nat.le_refl _
  | v :: rest => by
    have first := extent_le_size v
    have later := extents_le rest
    cases v with
    | word n =>
      simp [extents, bodySizes, isWord, isDynamic, extent] at later ⊢
      omega
    | bytes _ _ | tuple _ | list _ =>
      simp only [extents, bodySizes, isWord, List.length_cons] at later ⊢
      split <;> simp <;> omega

end

theorem size_le_of_mem {v : Value} {parts : List Value} (h : v ∈ parts) :
    v.size ≤ 32 * parts.length + bodySizes parts := by
  induction parts with
  | nil => cases h
  | cons w rest ih =>
    rw [bodySizes, List.length_cons]
    rcases List.mem_cons.1 h with rfl | h
    · cases v <;> simp [isWord, size] <;> omega
    · have := ih h
      omega

theorem bodySizes_append (l l' : List Value) : bodySizes (l ++ l') = bodySizes l + bodySizes l' := by
  induction l with
  | nil => simp [bodySizes]
  | cons v rest ih => simp [bodySizes, ih]; omega

theorem slots_append (l l' : List Value) (next : Int) :
    slots next (l ++ l') = slots next l ++ slots (next + bodySizes l) l' := by
  induction l generalizing next with
  | nil => simp [slots, bodySizes]
  | cons v rest ih =>
    cases v <;> simp [slots, bodySizes, ih, isWord, bodySize, Int.add_assoc]

theorem bodies_append (l l' : List Value) (next : Int) :
    bodies next (l ++ l') = bodies next l ++ bodies (next + bodySizes l) l' := by
  induction l generalizing next with
  | nil => simp [bodies, bodySizes]
  | cons v rest ih =>
    cases v <;> simp [bodies, bodySizes, ih, isWord, Int.add_assoc]

theorem slots_cons (v : Value) (rest : List Value) (next : Int) :
    slots next (v :: rest) = slots next [v] ++ slots (next + v.bodySize) rest := by
  cases v <;> simp [slots, bodySize, isWord]

theorem slots_body {v : Value} (h : v.isWord = false) (next : Int) :
    slots next [v] = ofWord next.toNat := by
  cases v with
  | word n => cases h
  | bytes _ _ | tuple _ | list _ => simp [slots]

theorem bodies_cons (v : Value) (rest : List Value) (next : Int) :
    bodies next (v :: rest) =
      (if v.isWord then [] else v.image next) ++ bodies (next + v.bodySize) rest := by
  rw [bodies, bodySize]

theorem bodySizes_cons (v : Value) (rest : List Value) :
    bodySizes (v :: rest) = v.bodySize + bodySizes rest := rfl

mutual

/-- The value alone, with nothing said about fillings. -/
def bare : Value → Value
  | .word n => .word n
  | .bytes content _ => .bytes content unknown
  | .tuple parts => .tuple (bareEach parts)
  | .list parts => .list (bareEach parts)

def bareEach : List Value → List Value
  | [] => []
  | v :: rest => v.bare :: bareEach rest

end

theorem bareEach_eq (parts : List Value) : bareEach parts = parts.map bare := by
  induction parts with
  | nil => rfl
  | cons v rest ih => rw [bareEach, ih, List.map_cons]

theorem mem_bareEach {v : Value} {parts : List Value} :
    v ∈ bareEach parts ↔ ∃ w ∈ parts, w.bare = v := by
  rw [bareEach_eq, List.mem_map]

@[simp] theorem length_bareEach (parts : List Value) : (bareEach parts).length = parts.length := by
  rw [bareEach_eq, List.length_map]

@[simp] theorem isWord_bare (v : Value) : v.bare.isWord = v.isWord := by
  cases v <;> rfl

mutual

@[simp] theorem isDynamic_bare : (v : Value) → v.bare.isDynamic = v.isDynamic
  | .word _ => rfl
  | .bytes _ _ => rfl
  | .tuple parts => anyDynamic_bareEach parts
  | .list _ => rfl

theorem anyDynamic_bareEach : (parts : List Value) → anyDynamic (bareEach parts) = anyDynamic parts
  | [] => rfl
  | v :: rest => by
    rw [bareEach, anyDynamic, anyDynamic, isDynamic_bare v, anyDynamic_bareEach rest]

end

mutual

@[simp] theorem extent_bare : (v : Value) → v.bare.extent = v.extent
  | .word _ => rfl
  | .bytes _ _ => rfl
  | .tuple parts => extents_bareEach parts
  | .list parts => congrArg (32 + ·) (extents_bareEach parts)

theorem extents_bareEach : (parts : List Value) → extents (bareEach parts) = extents parts
  | [] => rfl
  | v :: rest => by
    rw [bareEach, extents, extents, isDynamic_bare, extent_bare v, extents_bareEach rest]

end

@[simp] theorem headSize_bare (v : Value) : v.bare.headSize = v.headSize := by
  rw [headSize, headSize, isDynamic_bare, extent_bare]

theorem headSizes_bareEach (parts : List Value) : headSizes (bareEach parts) = headSizes parts := by
  induction parts with
  | nil => rfl
  | cons v rest ih => rw [bareEach, headSizes, headSizes, headSize_bare, ih]

mutual

@[simp] theorem size_bare : (v : Value) → v.bare.size = v.size
  | .word _ => rfl
  | .bytes _ _ => rfl
  | .tuple parts => by rw [bare, size, size, length_bareEach, bodySizes_bareEach parts]
  | .list parts => by rw [bare, size, size, length_bareEach, bodySizes_bareEach parts]

theorem bodySizes_bareEach : (parts : List Value) → bodySizes (bareEach parts) = bodySizes parts
  | [] => rfl
  | v :: rest => by
    rw [bareEach, bodySizes, bodySizes, isWord_bare, size_bare v, bodySizes_bareEach rest]

end

mutual

@[simp] theorem cells_bare : (v : Value) → v.bare.cells = v.cells
  | .word _ => rfl
  | .bytes _ _ => rfl
  | .tuple parts => by
    rw [bare, cells, cells, headSizes_bareEach, heads_bareEach parts, tails_bareEach parts]
  | .list parts => by
    rw [bare, cells, cells, headSizes_bareEach, heads_bareEach parts, tails_bareEach parts,
      length_bareEach]

theorem heads_bareEach : (parts : List Value) → {offset : Nat} →
    heads offset (bareEach parts) = heads offset parts
  | [], _ => rfl
  | v :: rest, offset => by
    rw [bareEach, heads, heads, isDynamic_bare, extent_bare, cells_bare v, heads_bareEach rest,
      heads_bareEach rest]

theorem tails_bareEach : (parts : List Value) → tails (bareEach parts) = tails parts
  | [] => rfl
  | v :: rest => by
    rw [bareEach, tails, tails, isDynamic_bare, cells_bare v, tails_bareEach rest]

end

end Value
end Calldata
