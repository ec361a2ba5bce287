import Calldata.Resolver

/-!
Everything that can be decoded: the definitions of a schema and the parameter lists of its
functions, resolved in one arena and known by name.
-/
namespace Calldata

inductive CatalogError where
  | definition (error : ResolveError)
  | resolution (error : ResolveError)
  | parameters (function : String) (error : ResolveError)
  deriving DecidableEq, Repr

structure Catalog where
  arena : Arena
  /-- Definitions, then functions, each in order of declaration. -/
  roots : List (String × NodeId)

namespace Catalog

/-- The parameter lists of functions, one after the other. -/
def parameterRoots (r : Resolver) : List Signature → Except CatalogError (List (String × NodeId) × Resolver)
  | [] => .ok ([], r)
  | f :: rest =>
    match r.resolveParams f.name f.params with
    | (.error e, _) => .error (.parameters f.name e)
    | (.ok id, r) => do
      let (roots, r) ← parameterRoots r rest
      return ((f.name, id) :: roots, r)

def ofSchema (s : Schema) : Except CatalogError Catalog :=
  match s.types.foldlM Resolver.add Resolver.empty with
  | .error e => .error (.definition e)
  | .ok r =>
    match r.resolveAll with
    | (.error e, _) => .error (.resolution e)
    | (.ok _, r) => do
      let (functions, final) ← parameterRoots r s.functions
      return ⟨final.arena, r.namedRoots ++ functions⟩

/-- The first root of every name asked for, or all roots if none is; a name without a root is
handed back. -/
def select (c : Catalog) (names : List String) : Except String (List (String × NodeId)) :=
  if names.isEmpty then .ok c.roots
  else names.mapM fun name =>
    match c.roots.find? (·.1 == name) with
    | some root => .ok root
    | none => .error name

end Catalog
end Calldata
