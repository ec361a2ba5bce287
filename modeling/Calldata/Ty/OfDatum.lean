import Calldata.Datum
import Calldata.Ty.Basic

/-!
Reading descriptions, definitions and whole files from data. A description is a table with exactly
one member, whose key says which kind it is.
-/
namespace Calldata

def ElementaryKind.ofDatum? (d : Datum) : Option ElementaryKind := do
  let name ← d.text?
  ElementaryKind.all.find? (·.name == name)

def Elementary.ofDatum? (d : Datum) : Option Elementary := do
  match ← d.fields? ["kind", "bits"] with
  | [some kind, bits] =>
    let kind ← ElementaryKind.ofDatum? kind
    let bits ← Datum.optional? (Datum.countBelow? UInt16.size) bits
    return ⟨kind, bits.map UInt16.ofNat⟩
  | _ => none

namespace Ty

/-- A field of a record, given how its type is read. -/
def fieldOf? (read : Datum → Option Ty) (d : Datum) : Option Field := do
  match ← d.fields? ["name", "field-type"] with
  | [some name, some type] => return ⟨← name.text?, ← read type⟩
  | _ => none

/-- Descriptions nest no deeper than the data they are read from. -/
def ofDatumWithin : Nat → Datum → Option Ty
  | 0, _ => none
  | fuel + 1, d =>
    match d with
    | .table [(key, body)] =>
      match key with
      | "elementary" => (Elementary.ofDatum? body).map elementary
      | "enum" => do
        match ← body.fields? ["variants"] with
        | [some variants] => return enumeration (← (← variants.list?).mapM Datum.text?)
        | _ => none
      | "array" => do
        match ← body.fields? ["element-type", "length"] with
        | [some element, length] =>
          let element ← ofDatumWithin fuel element
          let length ← Datum.optional? (Datum.countBelow? UInt64.size) length
          return array element (length.map UInt64.ofNat)
        | _ => none
      | "struct" => do
        match ← body.fields? ["fields"] with
        | [some fields] => return record (← (← fields.list?).mapM (fieldOf? (ofDatumWithin fuel)))
        | _ => none
      | "function" => (body.fields? []).map fun _ => function
      | "type-ref" => do
        match ← body.fields? ["name"] with
        | [some name] => return reference (← name.text?)
        | _ => none
      | _ => none
    | _ => none

def ofDatum? (d : Datum) : Option Ty := ofDatumWithin d.depth d

end Ty

def Field.ofDatum? (d : Datum) : Option Field := Ty.fieldOf? Ty.ofDatum? d

def Definition.ofDatum? (d : Datum) : Option Definition := do
  match ← d.fields? ["name", "kind"] with
  | [some name, some body] => return ⟨← name.text?, ← Ty.ofDatum? body⟩
  | _ => none

def Signature.ofDatum? (d : Datum) : Option Signature := do
  match ← d.fields? ["name", "params"] with
  | [some name, params] => return ⟨← name.text?, ← Datum.listOr? Field.ofDatum? params⟩
  | _ => none

def Schema.ofDatum? (d : Datum) : Option Schema := do
  match ← d.fields? ["package", "types", "functions"] with
  | [package, types, functions] =>
    return {
      package := ← Datum.optional? Datum.text? package
      types := ← Datum.listOr? Definition.ofDatum? types
      functions := ← Datum.listOr? Signature.ofDatum? functions }
  | _ => none

end Calldata
