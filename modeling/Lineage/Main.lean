import Lineage.CommandLine.Invocation

/-!
# The program

Reads the words of the command line, looks at the file they name and prints what the command
comes to.
-/

namespace Lineage

/-- What a path leads to in the file system. -/
def fileStateAt (path : String) : IO FileState := do
  match ← (IO.FS.readBinFile path).toBaseIO with
  | .ok bytes => return .file bytes
  | .error (.noFileOrDirectory ..) => return .missing
  | .error _ => return .folder

/-- What is said of an error that ended the run. -/
def CommandLine.Failure.message : CommandLine.Failure → String
  | config faults => "\n".intercalate (faults.map fun f => s!"{f.location}: {f.complaint.message}")
  | load error => error.message
  | graph error => error.message.escaped
  | notEncodable => "The output stream cannot take the output"
  | badPath => "The path holds a null character"

end Lineage

/-- Runs a command. -/
def main (args : List String) : IO UInt32 := do
  let env : Lineage.CommandLine.Environment := {
    root := ← IO.getEnv Lineage.CommandLine.Environment.rootVariable
    base := ← IO.getEnv Lineage.CommandLine.Environment.baseVariable }
  let outcome ← match Lineage.CommandLine.plan args env with
    | .finish outcome => pure outcome
    | .look path next => next <$> Lineage.fileStateAt path
  IO.print outcome.stdout
  IO.eprint outcome.stderr
  if let some failure := outcome.failure then IO.eprintln failure.message
  return outcome.exitCode.toUInt32
