import Calldata.Catalog
import Calldata.Decoder.Build
import Calldata.Decoder.Render
import Calldata.Files
import Calldata.Schema.File

/-!
Commands, how they fail, and what they print. A command that fails has printed whatever it printed
before.
-/
namespace Calldata

/-- A report on layouts. -/
structure AnalyzeRequest where
  files : List String
  types : List String
  json : Bool
  verbose : Bool

/-- Making decoders. Without an output file they are printed. -/
structure CodegenRequest where
  files : List String
  types : List String
  options : Options
  format : OutputFormat
  output : Option String
  verbose : Bool

inductive Command where
  | analyze (request : AnalyzeRequest)
  | codegen (request : CodegenRequest)

inductive CommandError where
  | cannotOpen (path : String) (error : FileError)
  | cannotRead (path : String) (error : FileError)
  | cannotParse (path : String) (error : SchemaError)
  | catalog (error : CatalogError)
  | unknownRoot (name : String)
  | cannotSynthesize (name : String) (error : DecoderError)
  | cannotWrite (path : String) (error : FileError)

namespace CommandError

/-- What was being done, and the cause apart from it, if there is one. -/
def parts : CommandError → String × Option String
  | .cannotOpen path e => (s!"cannot open '{path}'", some e.message)
  | .cannotRead path e => (s!"cannot read '{path}'", some e.message)
  | .cannotParse path e => (s!"cannot parse '{path}'", some e.message)
  | .catalog (.definition e) => (e.message, none)
  | .catalog (.resolution e) => ("Type resolution failed", some e.message)
  | .catalog (.parameters function e) =>
    (s!"cannot resolve parameters of '{function}'", some e.message)
  | .unknownRoot name => (s!"unknown type or function '{name}'", none)
  | .cannotSynthesize name e => (s!"cannot synthesize a decoder for '{name}'", some e.message)
  | .cannotWrite path e => (s!"cannot write '{path}'", some e.message)

/-- The error as it is printed at the end; every line of the cause is indented. -/
def report (e : CommandError) : String :=
  "Error: " ++ e.parts.1 ++ "\n" ++
    match e.parts.2 with
    | none => ""
    | some cause => "\nCaused by:\n    " ++ "\n    ".intercalate (cause.splitOn "\n") ++ "\n"

end CommandError

structure Printed where
  out : ByteArray
  err : String

def Printed.nothing : Printed := ⟨.empty, ""⟩

/-- A step that prints and may fail. -/
abbrev Printing := ExceptT CommandError (StateM Printed)

namespace Printing

def bytes (b : ByteArray) : Printing Unit := modify fun p => { p with out := p.out ++ b }

def text (s : String) : Printing Unit := bytes s.toUTF8

def line (s : String) : Printing Unit := text (s ++ "\n")

def warning (s : String) : Printing Unit := modify fun p => { p with err := p.err ++ s ++ "\n" }

def linesIf (verbose : Bool) (lines : List String) : Printing Unit :=
  if verbose then lines.forM line else pure ()

/-- A result or the error it stands for. -/
def ofExcept (wrap : ε → CommandError) : Except ε α → Printing α
  | .ok a => pure a
  | .error e => throw (wrap e)

end Printing
end Calldata
