import Calldata.Ty.Basic

/-!
Resolved types. An arena is a growing array of nodes that refer to their children by index. Every
use of a type has nodes of its own, and a resolver puts children before their parents, so ascending
indices visit a tree from its leaves to its root. Nodes can also be added freely, so nothing below
relies on that: a child may be missing, and walks are bounded by the number of nodes.
-/
namespace Calldata

abbrev NodeId := Nat

inductive NodeKind where
  | elementary (type : Elementary)
  | enumeration (variants : List String) (bits : Nat)
  | array (element : NodeId) (length : Option UInt64)
  | record (fields : List (String × NodeId))
  | function
  deriving DecidableEq, Repr

structure Node where
  /-- Canonical elementary name, name of a definition, `T[3]`, `tuple`. -/
  name : String
  kind : NodeKind
  deriving DecidableEq, Repr

def NodeKind.children : NodeKind → List NodeId
  | .array element _ => [element]
  | .record fields => fields.map Prod.snd
  | _ => []

structure Arena where
  nodes : Array Node
  deriving DecidableEq, Repr

namespace Arena

def empty : Arena := ⟨#[]⟩

def size (a : Arena) : Nat := a.nodes.size

def get? (a : Arena) (id : NodeId) : Option Node := a.nodes[id]?

/-- The index a pushed node gets. -/
def next (a : Arena) : NodeId := a.nodes.size

def push (a : Arena) (node : Node) : Arena := ⟨a.nodes.push node⟩

/-- Direct children in declaration order; a missing node has none. -/
def children (a : Arena) (id : NodeId) : List NodeId :=
  match a.get? id with
  | some node => node.kind.children
  | none => []

/-- A node and everything below it, once for every way it is reached. A path without a repeated
node has at most one more entry than the arena has nodes. -/
def occurrences (a : Arena) : Nat → NodeId → List NodeId
  | 0, id => [id]
  | fuel + 1, id => id :: (a.children id).flatMap (a.occurrences fuel)

def insertId (id : NodeId) : List NodeId → List NodeId
  | [] => [id]
  | other :: rest => if id ≤ other then id :: other :: rest else other :: insertId id rest

/-- The nodes of the tree below `root`, in ascending order. -/
def subtree (a : Arena) (root : NodeId) : List NodeId :=
  (a.occurrences a.size root).foldr insertId []

end Arena
end Calldata
