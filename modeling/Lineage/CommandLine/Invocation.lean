import Lineage.CommandLine.Command
import Lineage.CommandLine.Words

/-!
# Invocations

The words of a command line name one command, with options for all commands before its name and
its own options and arguments behind it. They are judged in this order: the options before the
name, the name, the settings, the options behind it, the arguments one after the other, and what
is left over. Only then is the command run.
-/

namespace Lineage.CommandLine

/-- What a run finds where it is started. -/
structure Environment where
  /-- The name of the root, if there is one in the environment. -/
  root : Option String := none
  /-- The name of the base, if there is one in the environment. -/
  base : Option String := none
  /-- How data documents are read. -/
  reader : Load.Reader := {}
  /-- What the output stream makes of code points. -/
  encoding : Encoding := .utf8
deriving Inhabited

namespace Environment

/-- The variable that names the root. -/
def rootVariable : String :=
  "TYPEGRAPH_ROOT"

/-- The variable that names the base. -/
def baseVariable : String :=
  "TYPEGRAPH_BASE"

end Environment

/-- What an invocation comes to: it is over, or it goes on with what a path leads to. -/
inductive Plan where
  | finish (outcome : Outcome)
  | look (path : String) (next : FileState → Outcome)

namespace Plan

/-- The outcome of a plan, given what each path leads to. -/
def outcome (files : String → FileState) : Plan → Outcome
  | finish o => o
  | look path next => next (files path)

end Plan

/-! ## The words that are known -/

/-- The option that asks for help. -/
def helpSwitch : Switch :=
  { long := "--help", takesValue := false }

/-- The options before the name of a command. -/
def generalSwitches : List Switch := [
  { long := "--version", takesValue := false },
  { long := "--root", takesValue := true },
  { long := "--base", takesValue := true },
  { long := "--verbose", letter := some 'v', takesValue := false },
  helpSwitch]

/-- The names of the commands. -/
inductive CommandName where
  | validate
  | showGraph
  | linearize
deriving DecidableEq, Repr

namespace CommandName

/-- The word that calls a command. -/
def word : CommandName → String
  | validate => "validate"
  | showGraph => "show"
  | linearize => "mro"

/-- Every command. -/
def all : List CommandName :=
  [validate, showGraph, linearize]

/-- The command that a word calls. -/
def ofWord? (w : String) : Option CommandName :=
  all.find? (·.word == w)

/-- The options of a command. -/
def switches (n : CommandName) : List Switch :=
  { long := "--format", takesValue := true }
    :: (if n = validate then [{ long := "--strict", takesValue := false }] else [])
    ++ [helpSwitch]

end CommandName

/-- The argument that holds the path. -/
def fileArgument : String :=
  "DECLARATION_FILE"

/-- The argument that names a type. -/
def nameArgument : String :=
  "TYPE_NAME"

/-- The usage of the program. -/
def programSynopsis : Synopsis :=
  { call := "main", follows := "COMMAND [ARGS]..." }

/-- The usage of a command. -/
def CommandName.synopsis (n : CommandName) : Synopsis :=
  { call := s!"{programSynopsis.call} {n.word}"
    follows := if n = linearize then s!"{fileArgument} {nameArgument}" else fileArgument }

/-! ## Judging the words -/

/-- The outcome of a misuse of what a synopsis shows. -/
def Misuse.outcome (m : Misuse) (s : Synopsis) : Outcome :=
  .refused ((m.lines s).map Text.ofString)

/-- The text that is printed on request instead of running a command: of help and version, the
one asked for first. -/
def requested? (w : Words) (s : Synopsis) : Option Outcome :=
  w.options.reverse.findSome? fun (option, _) =>
    if option == "--help" then some { stdout := lined [s.line] }
    else if option == "--version" then some { stdout := lined [s!"{s.call}, version 0.1.0"] }
    else none

/-- The format that the words ask for, if it is one. -/
def formatOf (w : Words) : Except Misuse Format :=
  match w.value? "--format" with
  | none => .ok .text
  | some given =>
    if given == Format.text.word || given == Format.json.word then .ok (.ofWord given)
    else .error (.noChoice "--format" given [Format.text.word, Format.json.word])

/-- The command that the words spell, given those behind the path. -/
def commandOf (n : CommandName) (w : Words) (format : Format) (others : List String) :
    Except Misuse Command :=
  let complete (c : Command) (rest : List String) : Except Misuse Command :=
    if rest.isEmpty then .ok c else .error (.extra rest)
  match n, others with
  | .validate, rest => complete (.validate format (w.has "--strict")) rest
  | .showGraph, rest => complete (.showGraph format) rest
  | .linearize, name :: rest => complete (.linearize name format) rest
  | .linearize, [] => .error (.missingArgument nameArgument)

/-- What becomes of a command once it is known what its path leads to. -/
def runAt (s : Settings) (n : CommandName) (w : Words) (format : Format) (path : String)
    (others : List String) (state : FileState) : Outcome :=
  match state with
  | .missing | .tooLong => (Misuse.noPath fileArgument path).outcome n.synopsis
  | _ =>
    match commandOf n w format others with
    | .error m => m.outcome n.synopsis
    | .ok c => c.run s path state

/-- Judges the words behind the name of a command. -/
def planCommand (s : Settings) (n : CommandName) (args : List String) : Plan :=
  match readWords n.switches true args with
  | .error m => .finish (m.outcome n.synopsis)
  | .ok w =>
    match requested? w n.synopsis with
    | some o => .finish o
    | none =>
      match formatOf w, w.others with
      | .error m, _ => .finish (m.outcome n.synopsis)
      | .ok _, [] => .finish ((Misuse.missingArgument fileArgument).outcome n.synopsis)
      | .ok format, path :: others =>
        if path.contains '\x00' then .finish (.failed .badPath)
        else .look path (runAt s n w format path others)

/-- What an unknown command comes to. A word that looks like an option is complained about as
one. -/
def planUnknown (name : String) (rest : List String) : Plan :=
  let unknown : Misuse := .unknownCommand name (similarTo name (CommandName.all.map (·.word)))
  match readWords generalSwitches false (name :: rest) with
  | .error m => .finish (m.outcome programSynopsis)
  | .ok w => .finish ((requested? w programSynopsis).getD (unknown.outcome programSynopsis))

/-- A name given by an option, else by the environment unless it is empty there, else as usual. -/
def chooseName (option environment : Option String) (default : Text) : Data :=
  .text (((option.or (environment.filter (!·.isEmpty))).map Text.ofString).getD default)

/-- The configuration that options and environment ask for. -/
def configOf (w : Words) (env : Environment) : Checked Config :=
  let default : Config := {}
  Config.ofNames (chooseName (w.value? "--root") env.root default.root)
    (chooseName (w.value? "--base") env.base default.base)

/-- Judges the words of a command line. -/
def plan (args : List String) (env : Environment := {}) : Plan :=
  if args.isEmpty then .finish { exitCode := 2, stderr := lined [programSynopsis.line] }
  else
    match readWords generalSwitches false args with
    | .error m => .finish (m.outcome programSynopsis)
    | .ok w =>
      match requested? w programSynopsis, w.others with
      | some o, _ => .finish o
      | none, [] => .finish (Misuse.missingCommand.outcome programSynopsis)
      | none, name :: rest =>
        match CommandName.ofWord? name with
        | none => planUnknown name rest
        | some n =>
          match configOf w env with
          | .error faults => .finish (.failed (.config faults))
          | .ok config =>
            let verbose := w.has "--verbose"
            planCommand { config, verbose, reader := env.reader, encoding := env.encoding } n rest

end Lineage.CommandLine
