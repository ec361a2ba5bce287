import Calldata.Command.Basic

/-!
Loading definition files. A file named twice, by whatever path, is read once.
-/
namespace Calldata

structure Loaded where
  /-- The identities of the files read, last first. -/
  files : List String
  schema : Schema

namespace Loaded

def nothing : Loaded := ⟨[], ⟨none, [], []⟩⟩

def add (verbose : Bool) (l : Loaded) (s : Source) : Printing Loaded := do
  let path := s.path
  let identity ← Printing.ofExcept (.cannotOpen path) s.identity
  if identity ∈ l.files then
    Printing.linesIf verbose [s!"    [~] Skipping already loaded file: {path}"]
    return l
  else
    Printing.linesIf verbose [s!"[~] Loading type file: {path}"]
    let text ← Printing.ofExcept (.cannotRead path) s.text
    let schema ← Printing.ofExcept (.cannotParse path) (Schema.parse path text)
    let types := schema.types.length
    let functions := schema.functions.length
    Printing.linesIf verbose ((schema.package.map fun package => s!"    Package: {package}").toList ++
      [s!"    Types: {types}, functions: {functions}"])
    return ⟨identity :: l.files,
      ⟨none, l.schema.types ++ schema.types, l.schema.functions ++ schema.functions⟩⟩

end Loaded

/-- Loads all files and resolves what they define. -/
def Catalog.load (verbose : Bool) (sources : List Source) : Printing Catalog := do
  let loaded ← sources.foldlM (Loaded.add verbose) Loaded.nothing
  let files := loaded.files.length
  let types := loaded.schema.types.length
  let functions := loaded.schema.functions.length
  Printing.linesIf verbose (
    ["", s!"[~] Loaded {files} file(s): {types} type definition(s), {functions} function(s)"] ++
    loaded.schema.types.map (fun d => "  - " ++ d.name) ++
    ["", "[~] Performing type resolution..."])
  let catalog ← Printing.ofExcept .catalog (Catalog.ofSchema loaded.schema)
  let roots := catalog.roots.length
  Printing.linesIf verbose [s!"[✓] Type resolution successful ({roots} root(s))"]
  return catalog

/-- Loads all files and picks the roots asked for. -/
def Catalog.loadSelected (verbose : Bool) (sources : List Source) (names : List String) :
    Printing (Catalog × List (String × NodeId)) := do
  let catalog ← Catalog.load verbose sources
  return (catalog, ← Printing.ofExcept .unknownRoot (catalog.select names))

end Calldata
