import Calldata.Term.Basic
import Calldata.Polynomial.Basic

/-!
The polynomial of a term, and the comparisons it decides. Atoms are names, loads written with the
polynomial of their address, and operators without a polynomial meaning written with the
polynomials of their operands. Two terms are compared through the difference of their
polynomials: when that is a constant the answer is definite, otherwise it is open.
-/
namespace Calldata
namespace Polynomial

/-- An operator that is not a ring operation: a value when both operands are constants, otherwise
an atom of its own. -/
def ofOperator (op : Op) (left right : Polynomial) : Option Polynomial :=
  match left.asConstant, right.asConstant with
  | some l, some r => (op.apply l r).map constant
  | _, _ => some (atom ("(" ++ left.text ++ " " ++ op.symbol ++ " " ++ right.text ++ ")"))

/-- A left shift by a constant from 0 to 62 is a product by a power of two. -/
def shiftLeft (left right : Polynomial) : Option Polynomial :=
  match right.asConstant.bind (Op.shl.apply 1) with
  | some factor => left.mul (constant factor)
  | none => ofOperator .shl left right

/-- Undefined when a coefficient leaves the 64-bit range. -/
def ofTerm : Term → Option Polynomial
  | .literal value => some (constant value)
  | .var name => some (atom name)
  | .load address => do return atom ("calldataload(" ++ (← ofTerm address).text ++ ")")
  | .binary op left right => do
    let l ← ofTerm left
    let r ← ofTerm right
    match op with
    | .add => l.add r
    | .sub => l.sub r
    | .mul => l.mul r
    | .shl => l.shiftLeft r
    | _ => ofOperator op l r

end Polynomial

inductive Certainty where
  | holds
  | fails
  | unknown
  deriving DecidableEq, Repr

def Certainty.ofBool (b : Bool) : Certainty := if b then .holds else .fails

namespace Term

/-- The constant `a - b`, when the polynomials of the two terms differ by one. -/
def distance (a b : Term) : Option Int64 := do
  let p ← Polynomial.ofTerm a
  let q ← Polynomial.ofTerm b
  (← p.sub q).asConstant

def decideBy (holds : Int64 → Bool) (a b : Term) : Certainty :=
  match distance a b with
  | some d => .ofBool (holds d)
  | none => .unknown

def greater : Term → Term → Certainty := decideBy fun d => decide (0 < d)
def atLeast : Term → Term → Certainty := decideBy fun d => decide (0 ≤ d)
def less : Term → Term → Certainty := decideBy fun d => decide (d < 0)
def same : Term → Term → Certainty := decideBy fun d => decide (d = 0)

end Term
end Calldata
