/-!
JSON values. Members of an object keep the order and the repetitions of the text they were read
from; whoever reads an object decides what a repeated key means. Only integers have a numeric
value here: a number with a fraction or an exponent is kept as it was written.
-/
namespace Calldata

inductive Json where
  | null
  | bool (value : Bool)
  | integer (value : Int)
  | decimal (text : String)
  | string (value : String)
  | array (items : List Json)
  | object (members : List (String × Json))
  deriving Repr

namespace Json

instance : Inhabited Json := ⟨.null⟩

/-- The values written under a key, in order. -/
def valuesOf (key : String) (members : List (String × Json)) : List Json :=
  members.filterMap fun m => if m.1 = key then some m.2 else none

/-- The first member of that name; nothing for a value that is not an object. -/
def get? (j : Json) (key : String) : Option Json :=
  match j with
  | .object members => (valuesOf key members).head?
  | _ => none

def string? : Json → Option String
  | .string s => some s
  | _ => none

def bool? : Json → Option Bool
  | .bool b => some b
  | _ => none

def integer? : Json → Option Int
  | .integer n => some n
  | _ => none

/-- An integer from 0 up to, and not including, a bound. -/
def natBelow? (bound : Nat) (j : Json) : Option Nat := do
  let n ← j.integer?
  if 0 ≤ n ∧ n.toNat < bound then some n.toNat else none

def array? : Json → Option (List Json)
  | .array items => some items
  | _ => none

end Json
end Calldata
