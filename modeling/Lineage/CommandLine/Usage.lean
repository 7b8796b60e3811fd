import Lineage.Text.Quoted
import Lineage.Text.Similar

/-!
# Usage errors

What can be wrong with the words of a command line, and how it is said. Most complaints are headed
by the usage of the command that they belong to.
-/

namespace Lineage.CommandLine

/-- A command as its usage shows it: the words that call it and what may follow them. -/
structure Synopsis where
  call : String
  follows : String
deriving DecidableEq, Repr

/-- What can be wrong with the words of a command line. -/
inductive Misuse where
  /-- An option lacks its value. -/
  | needsValue (option : String)
  /-- A value is given to an option that takes none. -/
  | takesNoValue (option : String)
  | unknownOption (option : String) (similar : List String)
  | missingCommand
  | unknownCommand (name : String) (similar : List String)
  | missingArgument (argument : String)
  /-- The value of an option is not one of its choices. -/
  | noChoice (option given : String) (choices : List String)
  /-- There is nothing at the path. -/
  | noPath (argument path : String)
  /-- There are more words than arguments. -/
  | extra (words : List String)
deriving DecidableEq, Repr

namespace Misuse

/-- A question for the words that may have been meant, behind a sentence. -/
def suggestion (similar : List String) : String :=
  match similar with
  | [] => ""
  | [w] => s!" Did you mean {Text.quoted w}?"
  | ws =>
    let listed := ", ".intercalate (ws.map fun (w : String) => Text.quoted w)
    s!" (Did you mean one of: {listed}?)"

/-- The sentence that describes the misuse. -/
def message : Misuse → String
  | needsValue option => s!"Option {Text.quoted option} requires an argument."
  | takesNoValue option => s!"Option {Text.quoted option} does not take a value."
  | unknownOption option similar => s!"No such option {Text.quoted option}.{suggestion similar}"
  | missingCommand => "Missing command."
  | unknownCommand name similar => s!"No such command {Text.quoted name}.{suggestion similar}"
  | missingArgument argument => s!"Missing argument '{argument}'."
  | noChoice option given choices =>
    let listed := ", ".intercalate (choices.map fun (c : String) => Text.quoted c)
    s!"Invalid value for '{option}': {Text.quoted given} is not one of {listed}."
  | noPath argument path =>
    s!"Invalid value for '{argument}': Path {Text.quoted path} does not exist."
  | extra words =>
    let listed := " ".intercalate words
    if words.length == 1 then s!"Got unexpected extra argument ({listed})"
    else s!"Got unexpected extra arguments ({listed})"

/-- Whether the usage of the command is shown first; the form of a single option is complained
about without it. -/
def showsUsage : Misuse → Bool
  | needsValue _ | takesNoValue _ => false
  | _ => true

end Misuse

/-- The usage line of a command. -/
def Synopsis.line (s : Synopsis) : String :=
  s!"Usage: {s.call} [OPTIONS] {s.follows}"

/-- The lines in which a misuse is complained about, given the command that it belongs to. -/
def Misuse.lines (m : Misuse) (s : Synopsis) : List String :=
  let head := if m.showsUsage then [s.line, s!"Try '{s.call} --help' for help.", ""] else []
  head ++ [s!"Error: {m.message}"]

end Lineage.CommandLine
