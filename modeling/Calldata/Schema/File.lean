import Calldata.Interface.OfDatum
import Calldata.Json.Reader
import Calldata.Ty.OfDatum
import Calldata.Yaml.Reader

/-!
Definition files. The name of the file decides the notation: JSON, where a list is a contract
interface and anything else a schema, or YAML for every other name.
-/
namespace Calldata

inductive SchemaError where
  | malformedInterface
  | unreadableType (error : Interface.ParamError)
  | malformedJson
  | malformedYaml
  deriving DecidableEq, Repr

def SchemaError.message : SchemaError → String
  | .malformedInterface => "malformed JSON ABI: the text is not a list of interface entries"
  | .unreadableType error => error.message
  | .malformedJson => "the text is not a schema in JSON"
  | .malformedYaml => "the text is not a schema in YAML"

namespace Schema

/-- Brackets in JSON files may nest this deep. -/
def jsonDepth : Nat := 127

/-- Lists and tables in YAML files may nest this deep. -/
def yamlDepth : Nat := 128

/-- The part of a path that names the file, unless it leads to a parent. -/
def fileName? (path : String) : Option String := do
  let name ← ((path.splitOn "/").filter fun part => part ≠ "" ∧ part ≠ ".").getLast?
  if name = ".." then none else some name

/-- What follows the last dot of a file's name; a dot in front does not count. -/
def extension? (path : String) : Option String := do
  let name ← fileName? path
  let reversed := name.toList.reverse
  match reversed.dropWhile (· ≠ '.') with
  | [] | ['.'] => none
  | _ => some (String.ofList (reversed.takeWhile (· ≠ '.')).reverse)

def isJson (path : String) : Bool := ((extension? path).map fun e => e.toLower == "json").getD false

def ofInterface (text : String) : Except SchemaError Schema :=
  match (Json.parse? jsonDepth text).bind fun j => Interface.ofDatum? j.toDatum with
  | none => .error .malformedInterface
  | some entries =>
    match Interface.functions entries with
    | .ok functions => .ok ⟨none, [], functions⟩
    | .error e => .error (.unreadableType e)

def ofYaml? (text : String) : Option Schema := do
  let d ← Yaml.parse? text
  if d.depth ≤ yamlDepth then ofDatum? d else none

def parse (path text : String) : Except SchemaError Schema :=
  if isJson path then
    if (Text.trimLeft text.toList).head? = some '[' then ofInterface text
    else
      match (Json.parse? jsonDepth text).bind fun j => ofDatum? j.toDatum with
      | some schema => .ok schema
      | none => .error .malformedJson
  else
    match ofYaml? text with
    | some schema => .ok schema
    | none => .error .malformedYaml

end Schema
end Calldata
