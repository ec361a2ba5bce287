/-!
Names inside messages. A quoted name stands in double quotes with the quote, the backslash and
control characters escaped, so that a list of names can be read back.
-/
namespace Calldata
namespace Text

def escapeQuoted (c : Char) : String :=
  if c = '"' then "\\\""
  else if c = '\\' then "\\\\"
  else if c = '\n' then "\\n"
  else if c = '\r' then "\\r"
  else if c = '\t' then "\\t"
  else if c = '\x00' then "\\0"
  else if c.toNat < 0x20 || (0x7f ≤ c.toNat && c.toNat < 0xa0) then
    "\\u\x7b" ++ String.ofList (Nat.toDigits 16 c.toNat) ++ "\x7d"
  else c.toString

def quoted (s : String) : String := (s.foldl (fun acc c => acc ++ escapeQuoted c) "\"").push '"'

def quotedList (names : List String) : String := "[" ++ ", ".intercalate (names.map quoted) ++ "]"

end Text
end Calldata
