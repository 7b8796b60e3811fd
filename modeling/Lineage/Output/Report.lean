import Lineage.Json.Indented
import Lineage.Output.Format
import Lineage.Report.Basic

/-!
# Written reports

As text a report lists the errors, then the warnings, then a verdict; issues that are neither do
not show. As JSON it lists all issues in order.
-/

namespace Lineage

namespace Severity

/-- The symbol before an issue. -/
def symbol : Severity → String
  | error => "✘"
  | warning => "⚠"
  | info => "ℹ"

end Severity

namespace Issue

/-- The issue as a line of a report. -/
def line (i : Issue) : Text :=
  i.severity.symbol ++ " " ++ i.code ++ ": " ++ i.located "" " " ++ i.message

/-- The issue as JSON. -/
def toJson (i : Issue) : Json :=
  .record [
    ("code", .text i.code),
    ("message", .text i.message),
    ("severity", .text i.severity.word),
    ("type", Json.text? i.subject),
    ("details", .record i.details)]

end Issue

namespace Report

/-- A section of the text: its title and its issues. -/
def sectionLines (title : String) (issues : List Issue) : List Text :=
  (title : Text) :: if issues.isEmpty then ["  (none)"] else issues.map fun i => "  " ++ i.line

/-- The last line of the text. -/
def verdict (r : Report) : String :=
  let errors := r.errors.length
  let warnings := r.warnings.length
  if r.hasErrors then s!"Validation failed: {errors} error(s), {warnings} warning(s)"
  else if r.hasWarnings then s!"Validation passed with {warnings} warning(s)"
  else "Validation passed"

/-- The report as text. -/
def toText (r : Report) : Text :=
  Text.intercalate "\n" <|
    sectionLines "ERRORS:" r.errors ++ ("" : Text) :: sectionLines "WARNINGS:" r.warnings
      ++ [("" : Text), r.verdict]

/-- The report as JSON. -/
def toJson (r : Report) : Json :=
  .record [
    ("valid", .bool r.isValid),
    ("error_count", .int r.errors.length),
    ("warning_count", .int r.warnings.length),
    ("issues", .list (r.issues.map (·.toJson)))]

/-- The report in a format. -/
def render (r : Report) : Format → Text
  | .text => r.toText
  | .json => r.toJson.render

end Report

end Lineage
