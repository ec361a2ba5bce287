import Calldata.Command.Analyze
import Calldata.Command.Codegen

/-!
Running a command in a file tree.
-/
namespace Calldata

structure Outcome where
  printed : Printed
  error : Option CommandError

namespace Outcome

def ofPrinting (printed : Printed) (p : Printing Unit) : Outcome :=
  match p.run.run printed with
  | (.ok _, printed) => ⟨printed, none⟩
  | (.error e, printed) => ⟨printed, some e⟩

def exitCode (o : Outcome) : Nat := if o.error.isSome then 1 else 0

/-- All that goes to the error stream, the error itself included. -/
def errors (o : Outcome) : String := o.printed.err ++ ((o.error.map CommandError.report).getD "")

end Outcome

namespace Command

def files : Command → List String
  | .analyze r => r.files
  | .codegen r => r.files

/-- The part of a command that only reads, and what is left to write. -/
def start (sources : List Source) : Command → Outcome × Option (String × DecoderSet × CodegenRequest)
  | .analyze r => (.ofPrinting .nothing (r.run sources), none)
  | .codegen r =>
    match (r.prepare sources).run.run .nothing with
    | (.error e, printed) => (⟨printed, some e⟩, none)
    | (.ok set, printed) =>
      match r.output with
      | none => (.ofPrinting printed (Printing.bytes (set.render r.format)), none)
      | some path => (⟨printed, none⟩, some (path, set, r))

/-- What a command does to a file tree. -/
def run (t : FileTree) (c : Command) : Outcome × FileTree :=
  match c.start (c.files.map t.source) with
  | (outcome, none) => (outcome, t)
  | (outcome, some (path, set, r)) =>
    match t.write path (set.render r.format) with
    | .ok t => (.ofPrinting outcome.printed (r.finish set path (.ok ())), t)
    | .error e => (.ofPrinting outcome.printed (r.finish set path (.error e)), t)

end Command
end Calldata
