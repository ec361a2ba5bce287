/-!
Unsigned decimal numbers in text.
-/
namespace Calldata
namespace Text

/-- The number that digits spell. -/
def digitsValue (cs : List Char) : Nat := cs.foldl (fun n c => 10 * n + (c.toNat - '0'.toNat)) 0

/-- One or more ASCII digits that spell a number below the bound. -/
def digits? (bound : Nat) (cs : List Char) : Option Nat :=
  if !cs.isEmpty && cs.all Char.isDigit && digitsValue cs < bound then some (digitsValue cs) else none

/-- The same with a plus sign in front, or none. -/
def unsigned? (bound : Nat) (cs : List Char) : Option Nat :=
  match cs with
  | '+' :: rest => digits? bound rest
  | _ => digits? bound cs

end Text
end Calldata
