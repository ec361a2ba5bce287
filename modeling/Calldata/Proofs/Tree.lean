import Calldata.Proofs.Value

/-!
Type trees and the plain recursive decoder. A tuple is read part by part: a static part in place, a
dynamic one where its offset word says or, in strict mode, right behind the dynamic parts before
it. An array with a length is a tuple behind a length word.
-/
namespace Calldata

inductive Tree where
  | word
  | bytes
  | fixed (length : Nat) (positive : 0 < length) (element : Tree)
  | dynamic (element : Tree)
  | record (fields : List (String × Tree))

namespace Tree

mutual

theorem induction {motive : Tree → Prop} (word : motive .word) (bytes : motive .bytes)
    (fixed : ∀ n positive t, motive t → motive (.fixed n positive t))
    (dynamic : ∀ t, motive t → motive (.dynamic t))
    (record : ∀ fields, (∀ f ∈ fields, motive f.2) → motive (.record fields)) : (t : Tree) → motive t
  | .word => word
  | .bytes => bytes
  | .fixed n positive t => fixed n positive t (induction word bytes fixed dynamic record t)
  | .dynamic t => dynamic t (induction word bytes fixed dynamic record t)
  | .record fields => record fields (inductionFields word bytes fixed dynamic record fields)

theorem inductionFields {motive : Tree → Prop} (word : motive .word) (bytes : motive .bytes)
    (fixed : ∀ n positive t, motive t → motive (.fixed n positive t))
    (dynamic : ∀ t, motive t → motive (.dynamic t))
    (record : ∀ fields, (∀ f ∈ fields, motive f.2) → motive (.record fields)) :
    (fields : List (String × Tree)) → ∀ f ∈ fields, motive f.2
  | [] => by simp
  | (_, t) :: rest => by
    simp only [List.mem_cons, forall_eq_or_imp]
    exact ⟨induction word bytes fixed dynamic record t,
      inductionFields word bytes fixed dynamic record rest⟩

end

def isWord : Tree → Bool
  | .word => true
  | _ => false

mutual

def isDynamic : Tree → Bool
  | .word => false
  | .bytes => true
  | .fixed _ _ t => t.isDynamic
  | .dynamic _ => true
  | .record fields => anyDynamic fields

def anyDynamic : List (String × Tree) → Bool
  | [] => false
  | (_, t) :: rest => t.isDynamic || anyDynamic rest

end

mutual

def headSize : Tree → Nat
  | .word => 32
  | .bytes => 32
  | .fixed n _ t => if t.isDynamic then 32 else n * t.headSize
  | .dynamic _ => 32
  | .record fields => if anyDynamic fields then 32 else headSizes fields

def headSizes : List (String × Tree) → Nat
  | [] => 0
  | (_, t) :: rest => t.headSize + headSizes rest

end

end Tree

/-- A part of a tuple as the decoder sees it. -/
structure Part where
  isWord : Bool
  isDynamic : Bool
  headSize : Nat
  decode : Wire → Value

namespace Part

/-- Where a part starts that has its head at `head`; a canonical encoding has the next dynamic
part at `offset`. -/
def start (strict : Bool) (p : Part) (u : Wire) (head offset : Nat) : Int :=
  if p.isDynamic then if strict then offset else u.word head else head

def walk (strict : Bool) (u : Wire) : Nat → Nat → List Part → List Value
  | _, _, [] => []
  | head, offset, p :: rest =>
    let v := p.decode (u.drop (p.start strict u head offset))
    v :: walk strict u (head + p.headSize) (if p.isDynamic then offset + v.extent else offset) rest

def headSizes : List Part → Nat
  | [] => 0
  | p :: rest => p.headSize + headSizes rest

def tuple (strict : Bool) (parts : List Part) (u : Wire) : List Value :=
  walk strict u 0 (headSizes parts) parts

end Part

namespace Tree

mutual

/-- The value of a tree at the start of a wire. -/
def decode (strict : Bool) : Tree → Wire → Value
  | .word, u => .word (u.number 0 32)
  | .bytes, u => .bytes ((List.range (u.number 0 32)).map fun i : Nat => u (32 + i))
      fun i => some (u (32 + u.number 0 32 + i))
  | .fixed n _ t, u => .tuple (Part.tuple strict
      (List.replicate n ⟨t.isWord, t.isDynamic, t.headSize, decode strict t⟩) u)
  | .dynamic t, u => .list (Part.tuple strict
      (List.replicate (u.number 0 32) ⟨t.isWord, t.isDynamic, t.headSize, decode strict t⟩) (u.drop 32))
  | .record fields, u => .tuple (Part.tuple strict (parts strict fields) u)

def parts (strict : Bool) : List (String × Tree) → List Part
  | [] => []
  | (_, t) :: rest => ⟨t.isWord, t.isDynamic, t.headSize, decode strict t⟩ :: parts strict rest

end

def part (strict : Bool) (t : Tree) : Part := ⟨t.isWord, t.isDynamic, t.headSize, t.decode strict⟩

theorem decode_fixed (strict : Bool) (n : Nat) (positive : 0 < n) (t : Tree) (u : Wire) :
    (fixed n positive t).decode strict u =
      .tuple (Part.tuple strict (List.replicate n (t.part strict)) u) := rfl

theorem decode_dynamic (strict : Bool) (t : Tree) (u : Wire) :
    (dynamic t).decode strict u =
      .list (Part.tuple strict (List.replicate (u.number 0 32) (t.part strict)) (u.drop 32)) := rfl

theorem decode_record (strict : Bool) (fields : List (String × Tree)) (u : Wire) :
    (record fields).decode strict u = .tuple (Part.tuple strict (parts strict fields) u) := rfl

theorem parts_eq (strict : Bool) (fields : List (String × Tree)) :
    parts strict fields = fields.map fun f => f.2.part strict := by
  induction fields with
  | nil => rfl
  | cons f rest ih => simp [parts, ih, part]

mutual

/-- A bare value of a tree. -/
def Holds : Tree → Value → Prop
  | .word, .word n => n < 256 ^ 32
  | .bytes, .bytes _ rest => rest = Cell.unknown
  | .fixed n _ t, .tuple vs => vs.length = n ∧ ∀ v ∈ vs, Holds t v
  | .dynamic t, .list vs => ∀ v ∈ vs, Holds t v
  | .record fields, .tuple vs => HoldsEach fields vs
  | _, _ => False

def HoldsEach : List (String × Tree) → List Value → Prop
  | [], [] => True
  | (_, t) :: rest, v :: vs => Holds t v ∧ HoldsEach rest vs
  | _, _ => False

end

end Tree
end Calldata
