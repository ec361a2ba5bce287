import Calldata.Command.Arguments
import Calldata.Command.Run

/-!
The command line program: reads the files that a command names, writes its output and prints.
-/
namespace Calldata

/-- Some calls give the number of an error with its sign changed. -/
def FileError.ofSystem : IO.Error → FileError
  | .inappropriateType _ code _ => if code = 20 ∨ code = -20 then .notDirectory else .isDirectory
  | _ => .notFound

def FileError.attempt (action : IO α) : IO (Except FileError α) := do
  try return .ok (← action) catch e => return .error (.ofSystem e)

/-- A path that leads nowhere fails in the way that reading it does. -/
def Source.ofDisk (path : String) : IO Source := do
  let content ← FileError.attempt (IO.FS.readBinFile path)
  match ← FileError.attempt (IO.FS.realPath path), content with
  | .ok place, _ => return ⟨path, .ok place.toString, content⟩
  | .error e, .ok _ => return ⟨path, .error e, content⟩
  | .error _, .error e => return ⟨path, .error e, content⟩

def Command.runOnDisk (c : Command) : IO Outcome := do
  match c.start (← c.files.mapM Source.ofDisk) with
  | (outcome, none) => return outcome
  | (outcome, some (path, set, r)) =>
    let written ← FileError.attempt (IO.FS.writeBinFile path (set.render r.format))
    return .ofPrinting outcome.printed (r.finish set path written)

end Calldata

def main (arguments : List String) : IO UInt32 := do
  match Calldata.Command.ofArguments? arguments with
  | none =>
    (← IO.getStderr).putStrLn "Usage: abi-decoder [-v] <analyze|codegen> -f <FILE> [OPTIONS]"
    return 2
  | some c =>
    let outcome ← c.runOnDisk
    let out ← IO.getStdout
    out.write outcome.printed.out
    out.flush
    (← IO.getStderr).putStr outcome.errors
    return UInt32.ofNat outcome.exitCode
