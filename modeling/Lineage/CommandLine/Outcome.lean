import Lineage.Graph.Basic
import Lineage.Load.Error
import Lineage.Output.Encoding
import Lineage.Text.ControlSequence

/-!
# Outcomes

What a run of a command leaves behind: an exit code, what was printed, and what was written to the
error stream. Exit code 0 means success, 1 a finding about the types, and 2 that the command could
not do its work.

What a command has to say is written without control sequences, on either stream. The notes of a
verbose run are written as they are. What the output stream can take hangs on where the program
runs; the error stream takes everything, because it spells out what it has no bytes for.
-/

namespace Lineage.CommandLine

/-- An error that ends a run without a message of its own. -/
inductive Failure where
  /-- The configured names are refused. -/
  | config (faults : List DataFault)
  | load (error : LoadError)
  | graph (error : GraphError)
  /-- What should be printed holds a code point that the output stream cannot take. -/
  | notEncodable
  /-- The path holds a null character, which no path can. -/
  | badPath
deriving DecidableEq, Repr

/-- What a run leaves behind. -/
structure Outcome where
  exitCode : Nat := 0
  stdout : String := ""
  stderr : String := ""
  /-- The error that ended the run, if one did. -/
  failure : Option Failure := none
deriving DecidableEq, Repr, Inhabited

/-- The text of lines that all end. -/
def lined (lines : List String) : String :=
  String.join (lines.map (· ++ "\n"))

/-- The text of lines on the error stream, which spells surrogates out. -/
def errorLines (lines : List Text) : String :=
  lined (lines.map (·.escaped))

namespace Outcome

/-- The outcome of a run that an error ended. -/
def failed (f : Failure) : Outcome :=
  { exitCode := 1, failure := some f }

/-- The outcome of a command that prints a text on a stream with the given encoding. -/
def printed (e : Encoding) (t : Text) (exitCode : Nat := 0) : Outcome :=
  match e.write? t.withoutSequences with
  | some s => { exitCode, stdout := lined [s] }
  | none => failed .notEncodable

/-- The outcome of a command that complains; mostly because it could not do its work. -/
def refused (lines : List Text) (exitCode : Nat := 2) : Outcome :=
  { exitCode, stderr := errorLines (lines.map (·.withoutSequences)) }

/-- The outcome with notes written to the error stream before all else. -/
def after (notes : List Text) (o : Outcome) : Outcome :=
  { o with stderr := errorLines notes ++ o.stderr }

/-- The outcome of a load that went wrong. Bytes that are no text and scalars without a value end
the run; everything else is reported. -/
def ofLoadError (e : LoadError) : Outcome :=
  match e with
  | .invalid faults =>
    refused ((s!"Schema validation error: {e.message}" : Text)
      :: faults.map fun f => (s!"  - {f.location}: {f.complaint.message}" : Text))
  | .notText | .pathTooLong | .badValue _ => failed (.load e)
  | _ => refused [s!"Error loading file: {e.message}"]

end Outcome

end Lineage.CommandLine
