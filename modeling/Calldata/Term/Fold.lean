import Calldata.Term.Basic

/-!
Folding constructors. They build `l op r` and carry out at once what literals allow: literals are
gathered at the right end of a sum, equal operands of a difference cancel, and units and zeros
disappear. Where gathering the literals would leave the 64-bit range the plain node is built, so no
constructor fails.
-/
namespace Calldata
namespace Term

/-- A term apart from the literal at its right end. A literal has no such part. -/
def split : Term → Option Term × Int64
  | .literal value => (none, value)
  | .binary .add left (.literal c) => (some left, c)
  | .binary .sub left (.literal c) =>
    if c = Int64.minValue then (some (.binary .sub left (.literal c)), 0) else (some left, -c)
  | t => (some t, 0)

/-- `term + c`, written as a difference for a negative `c` that has an opposite. -/
def plus (term : Term) (c : Int64) : Term :=
  if c = 0 then term
  else if c < 0 ∧ c ≠ Int64.minValue then .binary .sub term (.literal (-c))
  else .binary .add term (.literal c)

def sum (left right : Term) : Term :=
  match checked (left.split.2.toInt + right.split.2.toInt) with
  | none => .binary .add left right
  | some c =>
    match left.split.1, right.split.1 with
    | none, none => .literal c
    | some l, none => l.plus c
    | none, some r => r.plus c
    | some l, some r => (binary .add l r).plus c

def difference (left right : Term) : Term :=
  if left = right then .literal 0
  else
    match checked (left.split.2.toInt - right.split.2.toInt) with
    | none => .binary .sub left right
    | some c =>
      match left.split.1, right.split.1 with
      | none, none => .literal c
      | some l, none => l.plus c
      | some l, some r => if l = r then .literal c else (binary .sub l r).plus c
      | none, some r => .binary .sub (.literal c) r

/-- A literal factor goes to the right. -/
def product (left right : Term) : Term :=
  match left.asLiteral, right.asLiteral with
  | some l, some r =>
    match checked (l.toInt * r.toInt) with
    | some c => .literal c
    | none => .binary .mul left right
  | some l, none =>
    if l = 0 then .literal 0 else if l = 1 then right else .binary .mul right left
  | none, some r =>
    if r = 0 then .literal 0 else if r = 1 then left else .binary .mul left right
  | none, none => .binary .mul left right

/-- The operators other than `+`, `-` and `*` when their two literals, if both are, have no
value: what a single literal operand decides. -/
def absorb (op : Op) (left right : Term) : Term :=
  match op with
  | .div =>
    if right.asLiteral = some 1 then left
    else if left.asLiteral = some 0 then .literal 0 else .binary op left right
  | .shl | .shr =>
    if right.asLiteral = some 0 then left
    else if left.asLiteral = some 0 then .literal 0 else .binary op left right
  | .and =>
    if left.asLiteral = some 0 ∨ right.asLiteral = some 0 then .literal 0
    else .binary op left right
  | .or | .xor =>
    if right.asLiteral = some 0 then left
    else if left.asLiteral = some 0 then right else .binary op left right
  | .add | .sub | .mul => .binary op left right

/-- `left op right` with everything folded that can be. -/
def fold (op : Op) (left right : Term) : Term :=
  match op with
  | .add => sum left right
  | .sub => difference left right
  | .mul => product left right
  | _ =>
    match left.asLiteral, right.asLiteral with
    | some l, some r => ((op.apply l r).map literal).getD (absorb op left right)
    | _, _ => absorb op left right

instance : Add Term := ⟨sum⟩
instance : Sub Term := ⟨difference⟩
instance : Mul Term := ⟨product⟩
instance : Coe Int64 Term := ⟨literal⟩

/-- The literal of a byte count; counts past the 64-bit range stop at its end. -/
def ofNat (n : Nat) : Term := .literal (saturated n)

def shiftLeft (t : Term) (amount : Int64) : Term := fold .shl t (.literal amount)
def shiftRight (t : Term) (amount : Int64) : Term := fold .shr t (.literal amount)

/-- The least multiple of 32 that is not below the value of `t`. -/
def roundUp (t : Term) : Term := ((t + literal 31).shiftRight 5).shiftLeft 5

/-- Changes the address of every load, innermost first, and folds the terms around it again. -/
def mapLoads (f : Term → Term) : Term → Term
  | .literal value => .literal value
  | .var name => .var name
  | .load address => .load (f (address.mapLoads f))
  | .binary op left right => fold op (left.mapLoads f) (right.mapLoads f)

end Term
end Calldata
