import Calldata.Datum
import Calldata.Interface.Basic

/-!
Reading contract interfaces from data. Whatever an entry or a parameter leaves out is empty, except
that an entry without a kind is a function and a parameter must have a type.
-/
namespace Calldata
namespace Interface

def textOr? (default_ : String) : Option Datum → Option String
  | none => some default_
  | some d => d.text?

/-- Parameters nest no deeper than the data they are read from. -/
def paramWithin : Nat → Datum → Option Param
  | 0, _ => none
  | fuel + 1, d => do
    match ← d.fields? ["name", "type", "components"] with
    | [name, some type, components] =>
      return ⟨← textOr? "" name, ← type.text?, ← Datum.listOr? (paramWithin fuel) components⟩
    | _ => none

def Param.ofDatum? (d : Datum) : Option Param := paramWithin d.depth d

def Entry.ofDatum? (d : Datum) : Option Entry := do
  match ← d.fields? ["type", "name", "inputs"] with
  | [kind, name, inputs] =>
    return ⟨← textOr? "function" kind, ← textOr? "" name, ← Datum.listOr? Param.ofDatum? inputs⟩
  | _ => none

def ofDatum? (d : Datum) : Option (List Entry) := do (← d.list?).mapM Entry.ofDatum?

end Interface
end Calldata
