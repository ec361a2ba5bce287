import Calldata.Json.Basic
import Calldata.Text.Decimal

/-!
Reading JSON text. The text is first cut into tokens, then the tokens drive a machine whose only
memory is the stack of brackets still open, so a limit on nesting is a limit on that stack.
Nothing is repaired: a raw control character in a string, half of a surrogate pair, a leading zero
or anything after the value makes the text unreadable.
-/
namespace Calldata
namespace Json

inductive Token where
  | openArray
  | closeArray
  | openObject
  | closeObject
  | comma
  | colon
  | scalar (value : Json)

namespace Token

def isBlank (c : Char) : Bool := c == ' ' || c == '\t' || c == '\n' || c == '\r'

def isNumberChar (c : Char) : Bool :=
  c.isDigit || c == '-' || c == '+' || c == '.' || c == 'e' || c == 'E'

def hexDigit? (c : Char) : Option Nat :=
  if c.isDigit then some (c.toNat - '0'.toNat)
  else if 'a' ≤ c ∧ c ≤ 'f' then some (c.toNat - 'a'.toNat + 10)
  else if 'A' ≤ c ∧ c ≤ 'F' then some (c.toNat - 'A'.toNat + 10)
  else none

def hexUnit? (a b c d : Char) : Option Nat := do
  let a ← hexDigit? a
  let b ← hexDigit? b
  let c ← hexDigit? c
  let d ← hexDigit? d
  return ((a * 16 + b) * 16 + c) * 16 + d

/-- What may follow the whole part of a number: a fraction, then an exponent. -/
def isFractionAndExponent (cs : List Char) : Bool :=
  let afterFraction :=
    match cs with
    | '.' :: rest => if (rest.takeWhile Char.isDigit).isEmpty then none else some (rest.dropWhile Char.isDigit)
    | _ => some cs
  match afterFraction with
  | none => false
  | some [] => true
  | some (e :: rest) =>
    let digits :=
      match rest with
      | '+' :: r => r
      | '-' :: r => r
      | r => r
    (e == 'e' || e == 'E') && !digits.isEmpty && digits.all Char.isDigit

/-- A number from its characters. Minus zero is not an integer. -/
def number? (cs : List Char) : Option Json :=
  let negative := cs.head? == some '-'
  let body := if negative then cs.tail else cs
  let whole := body.takeWhile Char.isDigit
  let rest := body.dropWhile Char.isDigit
  if whole.isEmpty || (whole.head? == some '0' && whole.length != 1) then none
  else if rest.isEmpty then
    let n := Text.digitsValue whole
    if negative then some (if n = 0 then .decimal (String.ofList cs) else .integer (-(n : Int)))
    else some (.integer n)
  else if isFractionAndExponent rest then some (.decimal (String.ofList cs))
  else none

/-- The characters up to the closing quote with escapes resolved, and what follows the quote. -/
def stringBody (done : List Char) : List Char → Option (String × List Char)
  | '"' :: rest => some (String.ofList done.reverse, rest)
  | '\\' :: '"' :: rest => stringBody ('"' :: done) rest
  | '\\' :: '\\' :: rest => stringBody ('\\' :: done) rest
  | '\\' :: '/' :: rest => stringBody ('/' :: done) rest
  | '\\' :: 'b' :: rest => stringBody ('\x08' :: done) rest
  | '\\' :: 'f' :: rest => stringBody ('\x0c' :: done) rest
  | '\\' :: 'n' :: rest => stringBody ('\n' :: done) rest
  | '\\' :: 'r' :: rest => stringBody ('\r' :: done) rest
  | '\\' :: 't' :: rest => stringBody ('\t' :: done) rest
  | '\\' :: 'u' :: a :: b :: c :: d :: rest =>
    match hexUnit? a b c d with
    | none => none
    | some high =>
      if 0xD800 ≤ high ∧ high < 0xDC00 then
        match rest with
        | '\\' :: 'u' :: a :: b :: c :: d :: rest =>
          match hexUnit? a b c d with
          | none => none
          | some low =>
            if 0xDC00 ≤ low ∧ low < 0xE000 then
              stringBody
                (Char.ofNat (0x10000 + (high - 0xD800) * 0x400 + (low - 0xDC00)) :: done) rest
            else none
        | _ => none
      else if 0xDC00 ≤ high ∧ high < 0xE000 then none
      else stringBody (Char.ofNat high :: done) rest
  | c :: rest => if c == '\\' || c.toNat < 0x20 then none else stringBody (c :: done) rest
  | [] => none

/-- The token at the start of a text that is not blank there, and the text after it. -/
def next? : List Char → Option (Token × List Char)
  | '[' :: rest => some (openArray, rest)
  | ']' :: rest => some (closeArray, rest)
  | '\x7b' :: rest => some (openObject, rest)
  | '\x7d' :: rest => some (closeObject, rest)
  | ',' :: rest => some (comma, rest)
  | ':' :: rest => some (colon, rest)
  | '"' :: rest => (stringBody [] rest).map fun (s, rest) => (scalar (.string s), rest)
  | 't' :: 'r' :: 'u' :: 'e' :: rest => some (scalar (.bool true), rest)
  | 'f' :: 'a' :: 'l' :: 's' :: 'e' :: rest => some (scalar (.bool false), rest)
  | 'n' :: 'u' :: 'l' :: 'l' :: rest => some (scalar .null, rest)
  | cs => (number? (cs.takeWhile isNumberChar)).map fun n =>
      (scalar n, cs.dropWhile isNumberChar)

/-- Each token takes at least one character, so a text has no more tokens than characters. -/
def listFuel : Nat → List Char → Option (List Token)
  | fuel, cs =>
    match cs.dropWhile isBlank with
    | [] => some []
    | c :: rest =>
      match fuel with
      | 0 => none
      | fuel + 1 => do
        let (token, rest) ← next? (c :: rest)
        return token :: (← listFuel fuel rest)

def list? (cs : List Char) : Option (List Token) := listFuel cs.length cs

end Token

/-- An open bracket with what stands in it so far, last first. -/
inductive Frame where
  | items (done : List Json)
  | members (done : List (String × Json))
  | entry (done : List (String × Json)) (key : String)

/-- What the next token may be. -/
inductive Expected where
  | value
  | itemOrClose
  | key
  | keyOrClose
  | colon (key : String)
  | commaOrClose

inductive Machine where
  | reading (frames : List Frame) (expected : Expected)
  | finished (value : Json)

namespace Machine

/-- Puts a complete value where the innermost open bracket waits for it. -/
def place (value : Json) : List Frame → Option Machine
  | [] => some (.finished value)
  | .items done :: frames => some (.reading (.items (value :: done) :: frames) .commaOrClose)
  | .entry done key :: frames =>
    some (.reading (.members ((key, value) :: done) :: frames) .commaOrClose)
  | .members _ :: _ => none

def begin (depth : Nat) (frames : List Frame) : Token → Option Machine
  | .scalar value => place value frames
  | .openArray =>
    if frames.length < depth then some (.reading (.items [] :: frames) .itemOrClose) else none
  | .openObject =>
    if frames.length < depth then some (.reading (.members [] :: frames) .keyOrClose) else none
  | _ => none

def close : List Frame → Token → Option Machine
  | .items done :: frames, .closeArray => place (.array done.reverse) frames
  | .members done :: frames, .closeObject => place (.object done.reverse) frames
  | _, _ => none

def step (depth : Nat) : Machine → Token → Option Machine
  | .finished _, _ => none
  | .reading frames .value, token => begin depth frames token
  | .reading frames .itemOrClose, .closeArray => close frames .closeArray
  | .reading frames .itemOrClose, token => begin depth frames token
  | .reading frames .keyOrClose, .closeObject => close frames .closeObject
  | .reading frames .keyOrClose, .scalar (.string key) => some (.reading frames (.colon key))
  | .reading _ .keyOrClose, _ => none
  | .reading frames .key, .scalar (.string key) => some (.reading frames (.colon key))
  | .reading _ .key, _ => none
  | .reading (.members done :: frames) (.colon key), .colon =>
    some (.reading (.entry done key :: frames) .value)
  | .reading _ (.colon _), _ => none
  | .reading (.items done :: frames) .commaOrClose, .comma =>
    some (.reading (.items done :: frames) .value)
  | .reading (.members done :: frames) .commaOrClose, .comma =>
    some (.reading (.members done :: frames) .key)
  | .reading frames .commaOrClose, token => close frames token

end Machine

/-- The value a text stands for, if its brackets nest at most `depth` deep. -/
def parse? (depth : Nat) (text : String) : Option Json := do
  let tokens ← Token.list? text.toList
  match ← tokens.foldlM (Machine.step depth) (.reading [] .value) with
  | .finished value => some value
  | .reading _ _ => none

end Json
end Calldata
