import Calldata.Text.Blank
import Calldata.Text.Decimal
import Calldata.Ty.Basic

/-!
Type strings of contract interfaces: a base such as `uint64`, `bytes32` or `tuple`, then array
suffixes, the innermost first. White space around the whole is ignored.
-/
namespace Calldata
namespace Interface

inductive TypeStringDefect where
  | unknownBase
  | unterminatedSuffix
  | lengthNotANumber
  | trailingCharacters
  deriving DecidableEq, Repr

def TypeStringDefect.message : TypeStringDefect → String
  | .unknownBase => "unknown elementary type"
  | .unterminatedSuffix => "unterminated array suffix"
  | .lengthNotANumber => "array length is not a number"
  | .trailingCharacters => "trailing characters after array suffix"

/-- Everything before the first opening bracket, and the rest. -/
def splitBase (cs : List Char) : List Char × List Char := (cs.takeWhile (· ≠ '['), cs.dropWhile (· ≠ '['))

/-- A width in bits; without digits it is 256. -/
def sized? (kind : ElementaryKind) (digits : List Char) : Option Ty :=
  if digits.isEmpty then some (.ofWidth kind 256)
  else (Text.digits? UInt16.size digits).map fun n => .ofWidth kind (UInt16.ofNat n)

/-- The rest of a text that starts with the given word. -/
def after? : List Char → List Char → Option (List Char)
  | [], cs => some cs
  | _ :: _, [] => none
  | w :: word, c :: cs => if w = c then after? word cs else none

/-- A base other than `tuple`. -/
def base? (base : List Char) : Option Ty :=
  if base = "bool".toList then some .bool
  else if base = "address".toList then some .address
  else if base = "string".toList then some .string
  else if base = "bytes".toList then some .bytes
  else if base = "function".toList then some .function
  else
    match after? "uint".toList base, after? "int".toList base, after? "bytes".toList base with
    | some digits, _, _ => sized? .uint digits
    | none, some digits, _ => sized? .int digits
    | none, none, some size => do Ty.fixedBytes (UInt16.ofNat (← Text.unsigned? UInt16.size size))
    | none, none, none => none

/-- The lengths of the suffixes of a text that is empty or starts with a bracket. Each suffix takes
two characters at least. -/
def suffixesWithin : Nat → List Char → Except TypeStringDefect (List (Option UInt64))
  | _, [] => .ok []
  | 0, _ :: _ => .error .unterminatedSuffix
  | fuel + 1, _ :: cs =>
    match cs.dropWhile (· ≠ ']') with
    | [] => .error .unterminatedSuffix
    | _ :: rest => do
      let inner := cs.takeWhile (· ≠ ']')
      let length ←
        if inner.isEmpty then .ok none
        else
          match Text.unsigned? UInt64.size inner with
          | some n => .ok (some (UInt64.ofNat n))
          | none => .error .lengthNotANumber
      match rest with
      | [] => return [length]
      | '[' :: _ => return length :: (← suffixesWithin fuel rest)
      | _ => .error .trailingCharacters

def suffixes (cs : List Char) : Except TypeStringDefect (List (Option UInt64)) :=
  suffixesWithin cs.length cs

/-- A base with its suffixes around it. -/
def arrays (base : Ty) (lengths : List (Option UInt64)) : Ty := lengths.foldl Ty.array base

end Interface
end Calldata
