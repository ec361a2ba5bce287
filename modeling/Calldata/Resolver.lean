import Calldata.Arena.Basic
import Calldata.Graph
import Calldata.Text.Quoted

/-!
Resolution of named definitions and parameter lists into an arena. A reference is replaced by the
definition it names, anew at every use. A failed resolution leaves in the arena whatever it had
already added, and changes nothing else.
-/
namespace Calldata

/-- What makes a description illegal. -/
inductive Defect where
  | variantCount (count : Nat)
  | repeatedVariant (variant : String)
  | emptyArray
  | width (kind : ElementaryKind) (bits : Nat)
  deriving DecidableEq, Repr

def Defect.message : Defect → String
  | .variantCount count => s!"enum must have 1..=256 variants, found {count}"
  | .repeatedVariant variant => s!"enum variant '{variant}' is declared more than once"
  | .emptyArray => "fixed-length arrays must have at least one element"
  | .width kind bits =>
    let label := kind.label
    s!"elementary {label} cannot be {bits} bits wide"

inductive ResolveError where
  | unknownType (owner referenced : String)
  | circular (cycle : List String)
  | duplicateField (owner field : String)
  | duplicateType (name : String)
  | invalid (owner : String) (defect : Defect)
  deriving DecidableEq, Repr

def ResolveError.message : ResolveError → String
  | .unknownType owner referenced => s!"type '{owner}' references unknown type '{referenced}'"
  | .circular cycle => "circular dependency detected: " ++ Text.quotedList cycle
  | .duplicateField owner field => s!"type '{owner}' declares field '{field}' more than once"
  | .duplicateType name => s!"type '{name}' is defined more than once"
  | .invalid owner defect => s!"type '{owner}' is invalid: " ++ defect.message

/-- The first name that an earlier one equals. -/
def firstRepeated (seen : List String) : List String → Option String
  | [] => none
  | name :: rest => if name ∈ seen then some name else firstRepeated (name :: seen) rest

/-- A step that reads and extends the arena, and may fail after it has extended it. -/
abbrev Interning := ExceptT ResolveError (StateM Arena)

namespace Interning

def push (name : String) (kind : NodeKind) : Interning NodeId := do
  let arena ← get
  set (arena.push ⟨name, kind⟩)
  return arena.next

def nameOf (id : NodeId) : Interning String := do
  return (((← get).get? id).map Node.name).getD ""

def arraySuffix : Option UInt64 → String
  | some length => "[" ++ toString length.toNat ++ "]"
  | none => "[]"

mutual

/-- Adds the nodes of a description. `owner` is the definition that error messages blame, `shown`
the name the node takes if its own form does not give it one, and `expand` what a reference
stands for. -/
def internWith (expand : String → String → Interning NodeId) (owner : String)
    (shown : Option String) : Ty → Interning NodeId
  | .elementary e =>
    if e.isValid then push e.canonicalName (.elementary e)
    else throw (.invalid owner (.width e.kind e.width.toNat))
  | .enumeration variants =>
    if variants.length = 0 ∨ 256 < variants.length then
      throw (.invalid owner (.variantCount variants.length))
    else
      match firstRepeated [] variants with
      | some variant => throw (.invalid owner (.repeatedVariant variant))
      | none => push (shown.getD "enum") (.enumeration variants (enumBits variants.length))
  | .array element length =>
    if length = some 0 then throw (.invalid owner .emptyArray)
    else do
      let id ← internWith expand owner none element
      let name ← nameOf id
      push (shown.getD (name ++ arraySuffix length)) (.array id length)
  | .record fields => do
    let fields ← internFields expand owner [] fields
    push (shown.getD "tuple") (.record fields)
  | .function => push (shown.getD "function") .function
  | .reference name => expand owner name

/-- Fields in order, each refused if its name was `seen` before. -/
def internFields (expand : String → String → Interning NodeId) (owner : String)
    (seen : List String) : List Field → Interning (List (String × NodeId))
  | [] => return []
  | ⟨name, type⟩ :: rest =>
    if name ∈ seen then throw (.duplicateField owner name)
    else do
      let id ← internWith expand owner none type
      return (name, id) :: (← internFields expand owner (name :: seen) rest)

end

/-- What a reference from `owner` to `target` stands for: the nodes of the target's body, unless
it is one of the definitions being expanded. These are distinct and defined, so there are never
more of them than definitions. -/
def expand (definitions : List Definition) : Nat → List String → String → String → Interning NodeId
  | 0, visiting, _, target => throw (.circular (visiting ++ [target]))
  | fuel + 1, visiting, owner, target =>
    if target ∈ visiting then throw (.circular (visiting ++ [target]))
    else
      match definitions.find? (·.name == target) with
      | none => throw (.unknownType owner target)
      | some d =>
        internWith (expand definitions fuel (visiting ++ [target])) target (some target) d.body

end Interning

structure Resolver where
  /-- In order of declaration, with distinct names. -/
  definitions : List Definition
  arena : Arena
  roots : List (String × NodeId)
  /-- Names in the order in which they were resolved. -/
  order : List String

namespace Resolver

def empty : Resolver := ⟨[], .empty, [], []⟩

def add (r : Resolver) (d : Definition) : Except ResolveError Resolver :=
  if r.definitions.any (·.name == d.name) then .error (.duplicateType d.name)
  else .ok { r with definitions := r.definitions ++ [d] }

def root? (r : Resolver) (name : String) : Option NodeId := r.roots.lookup name

/-- Adds the nodes of a body under a name; `visiting` are the definitions it is part of. -/
def intern (r : Resolver) (visiting : List String) (name : String) (body : Ty) :
    Except ResolveError NodeId × Resolver :=
  let (result, arena) := (Interning.internWith
    (Interning.expand r.definitions (r.definitions.length + 1) visiting) name (some name) body).run.run
      r.arena
  (result, { r with arena })

/-- Resolves definitions in the given order, passing over those that already have a root. -/
def resolveList : List String → Resolver → Except ResolveError Unit × Resolver
  | [], r => (.ok (), r)
  | name :: rest, r =>
    match r.root? name, r.definitions.find? (·.name == name) with
    | none, some d =>
      match r.intern [name] name d.body with
      | (.error e, r) => (.error e, r)
      | (.ok id, r) =>
        resolveList rest { r with roots := r.roots ++ [(name, id)], order := r.order ++ [name] }
    | _, _ => resolveList rest r

/-- Resolves every definition, in dependency order. -/
def resolveAll (r : Resolver) : Except ResolveError Unit × Resolver :=
  match (Graph.ofDefinitions r.definitions).dependencyOrder with
  | .error cycle => (.error (.circular cycle.path), r)
  | .ok order => resolveList order r

/-- Resolves a parameter list as a record of that name. It is not a root. -/
def resolveParams (r : Resolver) (name : String) (params : List Field) :
    Except ResolveError NodeId × Resolver :=
  r.intern [] name (.record params)

/-- The definitions that have been resolved, in order of declaration. -/
def namedRoots (r : Resolver) : List (String × NodeId) :=
  r.definitions.filterMap fun d => (r.root? d.name).map (d.name, ·)

end Resolver
end Calldata
