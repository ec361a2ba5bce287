import Calldata.Arena.Basic

/-!
What kind of thing a node is in memory: a single word, or a pointer to a body, and how many
pointers lie between it and its deepest value. Every answer is missing where a node is missing.
-/
namespace Calldata

def NodeKind.isValue : NodeKind → Bool
  | .elementary e => !e.isDynamic
  | .enumeration _ _ => true
  | _ => false

def NodeKind.isReference : NodeKind → Bool
  | .elementary e => e.isDynamic
  | .array _ _ => true
  | .record _ => true
  | _ => false

namespace Arena

def isValue? (a : Arena) (id : NodeId) : Option Bool := (a.get? id).map fun n => n.kind.isValue

def isReference? (a : Arena) (id : NodeId) : Option Bool :=
  (a.get? id).map fun n => n.kind.isReference

def depthWithin (a : Arena) : Nat → NodeId → Option Nat
  | 0, _ => none
  | fuel + 1, id => do
    let node ← a.get? id
    if node.kind.isReference then
      return 1 + (← node.kind.children.mapM (a.depthWithin fuel)).foldl max 0
    else return 0

/-- The number of pointers on the longest way from the node to a value. -/
def referenceDepth? (a : Arena) (id : NodeId) : Option Nat := a.depthWithin (a.size + 1) id

/-- Whether the body in memory is the body in calldata, without a pointer to write in it. -/
def isFlat? (a : Arena) (id : NodeId) : Option Bool := (a.referenceDepth? id).map (· ≤ 1)

end Arena
end Calldata
