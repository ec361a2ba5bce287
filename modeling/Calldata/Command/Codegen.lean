import Calldata.Command.Load

/-!
The command that makes decoders. A root that cannot be decoded is an error if it was asked for by
name and is passed over with a warning otherwise. What is printed along the way would mix with the
decoders, so nothing is unless they go to a file.
-/
namespace Calldata
namespace CodegenRequest

def isVerbose (r : CodegenRequest) : Bool := r.verbose && r.output.isSome

def header (r : CodegenRequest) : List String :=
  let bool (b : Bool) : String := if b then "true" else "false"
  ["ABI Decoder - Decoder Synthesis Tool", "====================================", "",
    "[~] Configuration:",
    "  Strict offsets: " ++ bool r.options.strict,
    "  Merge copies: " ++ bool r.options.merge,
    "  Format: " ++ r.format.label,
    "  Input files: " ++ toString r.files.length] ++
  r.files.map ("    - " ++ ·) ++ [""]

/-- The decoders of roots; `strictly` says that they were asked for by name. -/
def decoders (arena : Arena) (options : Options) (strictly : Bool) :
    List (String × NodeId) → Printing (List Decoder)
  | [] => return []
  | (name, id) :: rest =>
    match Decoder.ofRoot arena options name id with
    | .ok decoder => do return decoder :: (← decoders arena options strictly rest)
    | .error e =>
      if strictly then throw (.cannotSynthesize name e)
      else do
        Printing.warning (s!"[!] Skipping '{name}': " ++ e.message)
        decoders arena options strictly rest

/-- Makes the decoders, up to where they are written. -/
def prepare (r : CodegenRequest) (sources : List Source) : Printing DecoderSet := do
  Printing.linesIf r.isVerbose r.header
  let (catalog, selected) ← Catalog.loadSelected r.isVerbose sources r.types
  return .ofList (← decoders catalog.arena r.options (!r.types.isEmpty) selected)

/-- Ends the command when the output file has been written, or could not be. -/
def finish (r : CodegenRequest) (set : DecoderSet) (path : String) (written : Except FileError Unit) :
    Printing Unit := do
  Printing.ofExcept (.cannotWrite path) written
  let count := set.decoders.length
  Printing.linesIf r.isVerbose [s!"[✓] Wrote {count} decoder(s) to {path}"]

end CodegenRequest
end Calldata
