import Calldata.Arena.Class
import Calldata.Json.Printer
import Calldata.Layout.Json
import Calldata.Layout.Table

/-!
Reports on the layouts of roots, as text and as JSON. A root without a layout has a report that says
so.
-/
namespace Calldata

structure FieldReport where
  name : String
  typeName : String
  calldataHeadOffset : Nat
  memoryHeadOffset : Nat
  dynamic : Bool

/-- What there is to report on a root that has a layout. -/
structure LayoutReport where
  layout : Layout
  referenceDepth : Nat
  sequential : Bool
  /-- The members of a record. -/
  fields : List FieldReport

structure Report where
  name : String
  typeName : String
  body : Except LayoutError LayoutReport

namespace Report

def typeNameOf (a : Arena) (id : NodeId) : String := ((a.get? id).map Node.name).getD ""

def fieldsOf (a : Arena) (layouts : LayoutTable) (id : NodeId) : List FieldReport :=
  match (a.get? id).map Node.kind with
  | some (.record fields) => fields.filterMap fun (name, member) =>
      (layouts.get? member).map fun l =>
        ⟨name, typeNameOf a member, l.calldataHeadOffset, l.memoryHeadOffset, l.dynamic⟩
  | _ => []

def bodyOf (a : Arena) (id : NodeId) : Except LayoutError LayoutReport := do
  let layouts ← LayoutTable.ofTree a id
  match layouts.get? id, a.referenceDepth? id, a.isFlat? id with
  | some layout, some referenceDepth, some sequential =>
    return ⟨layout, referenceDepth, sequential, fieldsOf a layouts id⟩
  | _, _, _ => .error (.noNode id)

def ofRoot (a : Arena) (name : String) (id : NodeId) : Report := ⟨name, typeNameOf a id, bodyOf a id⟩

def failed (r : Report) : Bool :=
  match r.body with
  | .ok _ => false
  | .error _ => true

end Report

def FieldReport.line (f : FieldReport) : String :=
  let name := f.name
  let type := f.typeName
  let calldata := f.calldataHeadOffset
  let memory := f.memoryHeadOffset
  s!"     - {name}: {type} (calldata +{calldata}, memory +{memory}" ++
    (if f.dynamic then ", dynamic)" else ")")

def LayoutReport.lines (r : LayoutReport) : List String :=
  let l := r.layout
  let bool (b : Bool) : String := if b then "true" else "false"
  let side (label : String) (head tail members : Nat) : String :=
    s!"   {label}: head {head} bytes, tail {tail} bytes (member heads {members})"
  ["   Shape: " ++ l.shape.label,
    "   Dynamic: " ++ bool l.dynamic,
    side "Calldata" l.calldataHeadSize l.calldataTailSize l.memberHeadSizeCalldata,
    side "Memory" l.memoryHeadSize l.memoryTailSize l.memberHeadSizeMemory,
    "   Minimum calldata: " ++ toString l.minimumBytes ++ " bytes",
    "   Copyable: head " ++ bool l.canCopyHead ++ ", tail " ++ bool l.canCopyTail ++
      ", sequential " ++ bool r.sequential,
    "   Depth: references " ++ toString r.referenceDepth ++ ", dynamic children " ++
      toString l.dynamicDepth] ++
  (if r.fields.isEmpty then [] else "   Fields:" :: r.fields.map FieldReport.line)

def Report.lines (r : Report) : List String :=
  ["", "[*] Type: " ++ r.name ++ " (" ++ r.typeName ++ ")"] ++
    match r.body with
    | .ok body => body.lines
    | .error e => ["   [✗] " ++ e.message]

def FieldReport.toJson (f : FieldReport) : Json := .object [
  ("name", .string f.name), ("type_name", .string f.typeName),
  ("calldata_head_offset", .integer f.calldataHeadOffset),
  ("memory_head_offset", .integer f.memoryHeadOffset), ("dynamic", .bool f.dynamic)]

def LayoutReport.members (r : LayoutReport) : List (String × Json) :=
  [("layout", r.layout.toJson), ("reference_depth", .integer r.referenceDepth),
    ("sequentially_copyable", .bool r.sequential),
    ("dynamic_children_depth", .integer r.layout.dynamicDepth)] ++
  (if r.fields.isEmpty then [] else [("fields", .array (r.fields.map FieldReport.toJson))])

def Report.toJson (r : Report) : Json :=
  .object ([("name", .string r.name), ("type_name", .string r.typeName)] ++
    match r.body with
    | .ok body => body.members
    | .error e => [("reference_depth", .integer 0), ("sequentially_copyable", .bool false),
        ("dynamic_children_depth", .integer 0), ("error", .string e.message)])

end Calldata
