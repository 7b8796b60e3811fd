import Lineage.Json.Basic

/-!
# Reports

A check reports issues. An issue has a code, a sentence, a severity, perhaps the type it is about,
and details by name. A report without errors is valid, whatever else it holds.
-/

namespace Lineage

/-- How bad an issue is. -/
inductive Severity where
  | error
  | warning
  | info
deriving DecidableEq, Repr, Inhabited

namespace Severity

/-- The word for a severity. -/
def word : Severity → String
  | error => "error"
  | warning => "warning"
  | info => "info"

/-- The word for a severity in capital letters. -/
def capitals : Severity → String
  | error => "ERROR"
  | warning => "WARNING"
  | info => "INFO"

/-- The severity that a word names. -/
def ofWord? (w : String) : Option Severity :=
  [error, warning, info].find? (·.word == w)

end Severity

/-- A single issue. -/
structure Issue where
  code : Text
  message : Text
  severity : Severity
  /-- The type that the issue is about. -/
  subject : Option Text := none
  details : List (Text × Json) := []
deriving Inhabited

namespace Issue

/-- The subject in brackets, between two texts, where there is one that is not empty. -/
def located (before after : Text) (i : Issue) : Text :=
  match i.subject with
  | some s => if s.isEmpty then "" else before ++ "[" ++ s ++ "]" ++ after
  | none => ""

/-- The issue on one line. -/
def describe (i : Issue) : Text :=
  i.severity.capitals ++ ": " ++ i.code ++ i.located " " "" ++ " - " ++ i.message

end Issue

/-- The issues found, in order. -/
structure Report where
  issues : List Issue := []
deriving Inhabited

namespace Report

/-- The issues of one severity. -/
def ofSeverity (r : Report) (s : Severity) : List Issue :=
  r.issues.filter (·.severity == s)

/-- The errors. -/
def errors (r : Report) : List Issue :=
  r.ofSeverity .error

/-- The warnings. -/
def warnings (r : Report) : List Issue :=
  r.ofSeverity .warning

/-- Whether there is an error. -/
def hasErrors (r : Report) : Bool :=
  !r.errors.isEmpty

/-- Whether there is a warning. -/
def hasWarnings (r : Report) : Bool :=
  !r.warnings.isEmpty

/-- Whether there is no error. -/
def isValid (r : Report) : Bool :=
  !r.hasErrors

/-- Adds an issue at the end. -/
def add (r : Report) (i : Issue) : Report :=
  ⟨r.issues ++ [i]⟩

/-- Adds all issues of another report at the end. -/
def merge (r other : Report) : Report :=
  ⟨r.issues ++ other.issues⟩

end Report

end Lineage
