import Calldata.Arena.Basic
import Calldata.Layout.Basic

/-!
Layout tables: one layout per node of an arena, or of one tree in it. Nodes are laid out in
ascending order, each from the layouts of its children; then every parent tells its children where
they stand.
-/
namespace Calldata

inductive LayoutGap where
  | functionType
  | memberWithoutLayout (member : NodeId)
  deriving DecidableEq, Repr

def LayoutGap.message : LayoutGap → String
  | .functionType => "function types have no calldata representation"
  | .memberWithoutLayout member => s!"member #{member} has no layout"

inductive LayoutError where
  | unsupported (type : String) (gap : LayoutGap)
  /-- The node asked for does not exist. -/
  | noNode (id : NodeId)
  deriving DecidableEq, Repr

def LayoutError.message : LayoutError → String
  | .unsupported type gap => s!"type '{type}' is not supported: " ++ gap.message
  | .noNode id => s!"there is no type #{id}"

structure LayoutTable where
  slots : Array (Option Layout)
  deriving DecidableEq, Repr

namespace LayoutTable

/-- Room for as many nodes as the arena has. -/
def blank (size : Nat) : LayoutTable := ⟨Array.replicate size none⟩

def get? (t : LayoutTable) (id : NodeId) : Option Layout := (t.slots[id]?).join

def set (t : LayoutTable) (id : NodeId) (l : Layout) : LayoutTable :=
  ⟨t.slots.setIfInBounds id (some l)⟩

/-- The nodes that have a layout, ascending. -/
def entries (t : LayoutTable) : List (NodeId × Layout) :=
  (List.range t.slots.size).filterMap fun id => (t.get? id).map (id, ·)

def member (t : LayoutTable) (parent : String) (id : NodeId) : Except LayoutError Layout :=
  match t.get? id with
  | some l => .ok l
  | none => .error (.unsupported parent (.memberWithoutLayout id))

/-- The layout of a node whose children are already in the table. -/
def layoutOf (a : Arena) (t : LayoutTable) (id : NodeId) : Except LayoutError Layout :=
  match a.get? id with
  | none => .error (.noNode id)
  | some node =>
    match node.kind with
    | .elementary e => .ok (if e.isDynamic then .bytes else .value)
    | .enumeration _ _ => .ok .value
    | .function => .error (.unsupported node.name .functionType)
    | .array element (some length) =>
      (t.member node.name element).map (Layout.ofFixedArray length.toNat)
    | .array element none => (t.member node.name element).map Layout.ofDynamicArray
    | .record fields =>
      (fields.mapM fun f => t.member node.name f.2).map Layout.ofRecord

def place (t : LayoutTable) (id calldataOffset memoryOffset : Nat) (first : Bool) : LayoutTable :=
  match t.get? id with
  | none => t
  | some l => t.set id { l with
      calldataHeadOffset := calldataOffset
      memoryHeadOffset := memoryOffset
      isFirstDynamic := first }

/-- Places fields one after the other, the next one at the given offsets; `open_` says that no
dynamic field has been placed yet. Offsets are sums that are not kept below 2^64, so they are counts
only where the heads of all fields before are together smaller than that. -/
def placeFields (calldataOffset memoryOffset : Nat) (open_ : Bool) :
    List NodeId → LayoutTable → LayoutTable
  | [], t => t
  | id :: rest, t =>
    let l := t.get? id
    let dynamic := (l.map Layout.dynamic).getD false
    let head := (l.map Layout.calldataHeadSize).getD 0
    placeFields (calldataOffset + head) (memoryOffset + wordSize) (open_ && !dynamic) rest
      (t.place id calldataOffset memoryOffset (open_ && dynamic))

def placeChildren (a : Arena) (t : LayoutTable) (id : NodeId) : LayoutTable :=
  match (a.get? id).map Node.kind with
  | some (.record fields) => placeFields 0 0 true (fields.map Prod.snd) t
  | some (.array element _) => placeFields 0 0 true [element] t
  | _ => t

/-- Lays out the listed nodes, in that order. -/
def ofIds (a : Arena) (ids : List NodeId) : Except LayoutError LayoutTable := do
  let t ← ids.foldlM (fun t id => do return t.set id (← layoutOf a t id)) (blank a.size)
  return ids.foldl (placeChildren a) t

def ofArena (a : Arena) : Except LayoutError LayoutTable := ofIds a (List.range a.size)

/-- Only the tree below `root`. -/
def ofTree (a : Arena) (root : NodeId) : Except LayoutError LayoutTable := ofIds a (a.subtree root)

end LayoutTable
end Calldata
