import Calldata.Json.Basic
import Calldata.Term.Basic

/-!
The JSON form of a term: an object with one member, named for the kind of node.
-/
namespace Calldata

def Op.name : Op → String
  | .add => "add"
  | .sub => "sub"
  | .mul => "mul"
  | .div => "div"
  | .shl => "shl"
  | .shr => "shr"
  | .and => "and"
  | .or => "or"
  | .xor => "xor"

def Term.toJson : Term → Json
  | .literal value => .object [("literal", .integer value.toInt)]
  | .var name => .object [("var", .string name)]
  | .load address => .object [("load", address.toJson)]
  | .binary op left right =>
    .object [("binary",
      .object [("op", .string op.name), ("left", left.toJson), ("right", right.toJson)])]

end Calldata
