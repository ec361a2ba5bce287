import Calldata.Ty.Basic

/-!
The reference graph of a list of definitions, and the order in which they can be resolved: every
definition after the ones it refers to, and otherwise as declared. A walk that comes back to a name
it is still working on has found a cycle. Names without a definition are passed over.
-/
namespace Calldata

/-- Each defined name with the names its definition refers to, ascending and without repetition. -/
structure Graph where
  edges : List (String × List String)

namespace Graph

def insertName (name : String) : List String → List String
  | [] => [name]
  | other :: rest =>
    if name = other then other :: rest
    else if name < other then name :: other :: rest
    else other :: insertName name rest

def ascending (names : List String) : List String := names.foldr insertName []

/-- A name defined again keeps its place and takes the new references. -/
def setEdges (name : String) (referenced : List String) :
    List (String × List String) → List (String × List String)
  | [] => [(name, referenced)]
  | (other, old) :: rest =>
    if name = other then (name, referenced) :: rest
    else (other, old) :: setEdges name referenced rest

def ofDefinitions (definitions : List Definition) : Graph :=
  ⟨definitions.foldl (fun edges d => setEdges d.name (ascending d.body.references) edges) []⟩

/-- A closed path: its first name is repeated at the end. -/
structure Cycle where
  path : List String

def Cycle.message (c : Cycle) : String :=
  "circular dependency detected: " ++ " -> ".intercalate c.path

/-- Extends an order by a name and everything it needs. `path` holds the names being worked on,
outermost first; they are distinct and defined, so `edges.length` levels are enough. -/
def visit (g : Graph) : Nat → List String → String → List String → Except Cycle (List String)
  | 0, _, _, order => .ok order
  | fuel + 1, path, name, order =>
    if name ∈ order then .ok order
    else if name ∈ path then .error ⟨path.dropWhile (· ≠ name) ++ [name]⟩
    else
      match g.edges.lookup name with
      | none => .ok order
      | some referenced => do
        let order ← referenced.foldlM (fun order r => g.visit fuel (path ++ [name]) r order) order
        return order ++ [name]

def dependencyOrder (g : Graph) : Except Cycle (List String) :=
  g.edges.foldlM (fun order e => g.visit (g.edges.length + 1) [] e.1 order) []

end Graph
end Calldata
