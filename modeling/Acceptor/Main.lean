/-
The program: arguments, the environment and a file in, output and an exit code out.
-/
import Acceptor.CommandLine.Report

namespace Acceptor

open CommandLine

/-- The cause of a fault of the system. -/
def readErrorOf : IO.Error → ReadError
  | .noFileOrDirectory .. => .missing
  | .permissionDenied _ code details | .inappropriateType _ code details
  | .invalidArgument _ code details | .resourceExhausted _ code details
  | .noSuchThing _ code details => .system details code.toNat
  | .otherError code details | .hardwareFault code details => .system details code.toNat
  | e => .system (toString e) 0

/-- The text of a file, or why it cannot be read. -/
def readFile (file : String) : IO (Except ReadError String) := do
  try
    match String.fromUTF8? (← IO.FS.readBinFile file) with
    | some text => return .ok text
    | none => return .error .notText
  catch e =>
    return .error (readErrorOf e)

end Acceptor

open Acceptor CommandLine in
/-- Runs the program. -/
def main (arguments : List String) : IO UInt32 := do
  let environment ← IO.getEnv "AUTOMAT_LEGACY_EPSILON"
  let contents ← match parse arguments environment with
    | .ok i => match i.command.file? with
      | some file => readFile file
      | none => pure (.error .missing)
    | .error _ => pure (.error .missing)
  let result := outcome arguments environment fun _ => contents
  IO.print result.stdout
  IO.eprint result.stderr
  return result.exitCode.toUInt32
