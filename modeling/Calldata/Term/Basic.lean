import Calldata.Checked

/-!
Offset and size terms. A term is a literal, a named value (a loop index, a cursor, a base), a
32-byte word read from calldata, or an operator applied to two terms. A term is a plain tree: the
constructors below fold nothing. `Term.eval` gives its value in an environment and is undefined
exactly where a name or a word is missing or where an operation leaves the 64-bit range.
-/
namespace Calldata

inductive Op where
  | add
  | sub
  | mul
  | div
  | shl
  | shr
  | and
  | or
  | xor
  deriving DecidableEq, Repr

namespace Op

def symbol : Op → String
  | .add => "+"
  | .sub => "-"
  | .mul => "*"
  | .div => "/"
  | .shl => "<<"
  | .shr => ">>"
  | .and => "&"
  | .or => "|"
  | .xor => "^"

/-- The value of an operator on two words. Division truncates and refuses a zero divisor; a left
shift is a product by a power of two and takes amounts below 63; a right shift keeps the sign and
takes amounts below 64; the other three work on the bits of the two words. -/
def apply : Op → Int64 → Int64 → Option Int64
  | .add, l, r => checked (l.toInt + r.toInt)
  | .sub, l, r => checked (l.toInt - r.toInt)
  | .mul, l, r => checked (l.toInt * r.toInt)
  | .div, l, r => if r = 0 then none else checked (l.toInt.tdiv r.toInt)
  | .shl, l, r =>
    if 0 ≤ r.toInt ∧ r.toInt < 63 then checked (l.toInt <<< r.toInt.toNat) else none
  | .shr, l, r =>
    if 0 ≤ r.toInt ∧ r.toInt < 64 then checked (l.toInt >>> r.toInt.toNat) else none
  | .and, l, r => some (l &&& r)
  | .or, l, r => some (l ||| r)
  | .xor, l, r => some (l ^^^ r)

end Op

inductive Term where
  | literal (value : Int64)
  | var (name : String)
  | load (address : Term)
  | binary (op : Op) (left right : Term)
  deriving DecidableEq, Repr

/-- What a term is evaluated against: the values of names, and the words of calldata. -/
structure Env where
  var : String → Option Int64
  load : Int64 → Option Int64

/-- No name is bound and no word can be read. -/
def Env.empty : Env := ⟨fun _ => none, fun _ => none⟩

namespace Term

instance : Inhabited Term := ⟨.literal 0⟩

def eval (env : Env) : Term → Option Int64
  | .literal value => some value
  | .var name => env.var name
  | .load address => do env.load (← address.eval env)
  | .binary op left right => do
    let l ← left.eval env
    let r ← right.eval env
    op.apply l r

/-- The value of a term that depends on no name and no word. -/
def constantValue (t : Term) : Option Int64 := t.eval Env.empty

/-- Built from literals and operators alone, whether or not the operators have a value there. -/
def isConstant : Term → Bool
  | .literal _ => true
  | .var _ => false
  | .load _ => false
  | .binary _ left right => left.isConstant && right.isConstant

def asLiteral : Term → Option Int64
  | .literal value => some value
  | _ => none

def isZero (t : Term) : Bool := t.asLiteral == some 0

/-- Every occurrence of a name, from left to right. -/
def occurrences : Term → List String
  | .literal _ => []
  | .var name => [name]
  | .load address => address.occurrences
  | .binary _ left right => left.occurrences ++ right.occurrences

/-- The distinct names, in order of first appearance. -/
def vars (t : Term) : List String := t.occurrences.eraseDups

def text : Term → String
  | .literal value => toString value.toInt
  | .var name => name
  | .load address => "calldataload(" ++ address.text ++ ")"
  | .binary op left right => "(" ++ left.text ++ " " ++ op.symbol ++ " " ++ right.text ++ ")"

end Term

end Calldata
