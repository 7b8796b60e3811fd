import Lineage.CommandLine.Notes
import Lineage.CommandLine.Outcome
import Lineage.Load.Model
import Lineage.Output.Graph
import Lineage.Output.Report

/-!
# Commands

A command works on the model of one file: it reports on the model, prints its graph, or prints the
linearization of one type. What a command does is a function of its settings, the path and what
the path leads to.
-/

namespace Lineage.CommandLine

/-- What holds for every command. -/
structure Settings where
  config : Config := {}
  /-- Whether notes on the work are written. -/
  verbose : Bool := false
  /-- How data documents are read. -/
  reader : Load.Reader := {}
  /-- What the output stream makes of code points. -/
  encoding : Encoding := .utf8
deriving Inhabited

/-- A command with its options. -/
inductive Command where
  /-- Report on the model; a strict report fails on warnings too. -/
  | validate (format : Format) (strict : Bool)
  /-- Print every type of the graph. -/
  | showGraph (format : Format)
  /-- Print the linearization of a type. -/
  | linearize (name : Text) (format : Format)
deriving DecidableEq, Repr

/-- Whether a report lets a validation succeed. -/
def passes (strict : Bool) (r : Report) : Bool :=
  r.isValid && !(strict && r.hasWarnings)

namespace Settings

/-- Puts notes in front of an outcome, where they are wanted. -/
def noted (s : Settings) (notes : Unit → List Text) (o : Outcome) : Outcome :=
  if s.verbose then o.after (notes ()) else o

/-- Reports on a model. -/
def validate (s : Settings) (format : Format) (strict : Bool) (m : Model) : Outcome :=
  match Check.validate m s.config with
  | .error e => .failed (.graph e)
  | .ok (_, r) =>
    s.noted (fun _ => Notes.ofValidation m s.config)
      (.printed s.encoding (r.render format) (if passes strict r then 0 else 1))

/-- The graph of a model; role cycles are reported instead of being built. -/
def withGraph (s : Settings) (m : Model) (use : Graph → Outcome) : Outcome :=
  match Check.buildIfSafe m s.config with
  | none => .refused ((Check.roleCycles m).errors.map fun i => "Error: " ++ i.message)
  | some (.error e) => .failed (.graph e)
  | some (.ok g) => s.noted (fun _ => Notes.ofBuild m s.config g) (use g)

/-- Prints every type of the graph of a model. -/
def showGraph (s : Settings) (format : Format) (m : Model) : Outcome :=
  s.withGraph m fun g =>
    s.noted (fun _ => Notes.ofFaults g) (.printed s.encoding (g.render format).2)

/-- Prints the linearization of a type of the graph of a model. -/
def linearize (s : Settings) (name : Text) (format : Format) (m : Model) : Outcome :=
  s.withGraph m fun g =>
    match g.find? name with
    | none => .refused ["Unknown type: " ++ name]
    | some i =>
      match (g.linearize i).2 with
      | .ok l => .printed s.encoding (Graph.renderChain name (g.nodes.names l) format)
      | .error f =>
        s.noted (fun _ => [Notes.ofFault g i f])
          (.refused ["Inconsistent hierarchy: " ++ (g.report i f).message] 1)

end Settings

namespace Command

/-- Runs a command on a model. -/
def runOn (s : Settings) (m : Model) : Command → Outcome
  | .validate format strict => s.validate format strict m
  | .showGraph format => s.showGraph format m
  | .linearize name format => s.linearize name format m

/-- Runs a command on the file that a path leads to. -/
def run (s : Settings) (c : Command) (path : String) (state : FileState) : Outcome :=
  match Load.modelOfFile (Path.ofString path) state s.reader with
  | .ok m => c.runOn s m
  | .error e => .ofLoadError e

end Command

end Lineage.CommandLine
