import Calldata.Json.Basic

/-!
Writing JSON text, on one line or with one member per line. Only the quote, the backslash and the
control characters below 32 are escaped.
-/
namespace Calldata
namespace Json

def escape (c : Char) : String :=
  if c = '"' then "\\\""
  else if c = '\\' then "\\\\"
  else if c = '\x08' then "\\b"
  else if c = '\t' then "\\t"
  else if c = '\n' then "\\n"
  else if c = '\x0c' then "\\f"
  else if c = '\r' then "\\r"
  else if c.toNat < 0x10 then "\\u000" ++ String.ofList (Nat.toDigits 16 c.toNat)
  else if c.toNat < 0x20 then "\\u00" ++ String.ofList (Nat.toDigits 16 c.toNat)
  else c.toString

def quote (s : String) : String := (s.foldl (fun acc c => acc ++ escape c) "\"").push '"'

mutual

def text : Json → String
  | .null => "null"
  | .bool value => if value then "true" else "false"
  | .integer value => toString value
  | .decimal text => text
  | .string value => quote value
  | .array items => "[" ++ ",".intercalate (itemTexts items) ++ "]"
  | .object members => "\x7b" ++ ",".intercalate (memberTexts members) ++ "\x7d"

def itemTexts : List Json → List String
  | [] => []
  | item :: rest => item.text :: itemTexts rest

def memberTexts : List (String × Json) → List String
  | [] => []
  | (key, value) :: rest => (quote key ++ ":" ++ value.text) :: memberTexts rest

end

/-- Bracketed lines, each one step further in than the bracket that closes them. -/
def block (indent open_ close : String) (lines : List String) : String :=
  if lines.isEmpty then open_ ++ close
  else open_ ++ "\n" ++ ",\n".intercalate (lines.map fun line => indent ++ "  " ++ line) ++ "\n" ++ indent ++ close

mutual

/-- `indent` is the white space in front of the line on which the value starts. -/
def prettyAt (indent : String) : Json → String
  | .array items => block indent "[" "]" (prettyItems (indent ++ "  ") items)
  | .object members => block indent "\x7b" "\x7d" (prettyMembers (indent ++ "  ") members)
  | value => value.text

def prettyItems (indent : String) : List Json → List String
  | [] => []
  | item :: rest => item.prettyAt indent :: prettyItems indent rest

def prettyMembers (indent : String) : List (String × Json) → List String
  | [] => []
  | (key, value) :: rest => (quote key ++ ": " ++ value.prettyAt indent) :: prettyMembers indent rest

end

def pretty (j : Json) : String := j.prettyAt ""

end Json
end Calldata
