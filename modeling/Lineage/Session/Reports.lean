import Lineage.Output.Report

/-!
# Sessions on reports

Reports are kept under names; a name stands for the empty report until an issue is added to it.
-/

namespace Lineage

/-- Reports by name. -/
structure Reports where
  entries : List (String × Report) := []
deriving Inhabited

namespace Reports

/-- The report of a name. -/
def get (rs : Reports) (name : String) : Report :=
  (rs.entries.lookup name).getD {}

/-- Replaces the report of a name. -/
def set (rs : Reports) (name : String) (r : Report) : Reports :=
  ⟨(name, r) :: rs.entries⟩

/-- The names that stand for the parts of a new issue and for the report it goes to. Where details
are given by name beside those parts, none of them can have such a name. -/
def takenNames : List Text :=
  ["self", "code", "message", "type_name"]

/-- A request to the report of a name. -/
inductive Request where
  /-- Add an issue. -/
  | add (issue : Issue)
  /-- Add an issue that is given by its parts and, by name, its details. -/
  | addParts (issue : Issue)
  /-- Add the issues of another report. -/
  | merge (other : String)
  | render (format : Format)
  /-- Only look at the numbers of issues. -/
  | count
deriving Inhabited

/-- The answer to a request. -/
inductive Reply where
  /-- The numbers of errors, of warnings and of all issues. -/
  | counts (errors warnings issues : Nat)
  | text (t : Text)
  /-- The request is refused. -/
  | refused
deriving Inhabited

/-- The numbers of issues in a report. -/
def counts (r : Report) : Reply :=
  .counts r.errors.length r.warnings.length r.issues.length

/-- Performs a request to the report of a name. -/
def perform (rs : Reports) (name : String) : Request → Reports × Reply
  | .add issue =>
    let r := (rs.get name).add issue
    (rs.set name r, counts r)
  | .addParts issue =>
    if issue.details.any fun (key, _) => takenNames.contains key then (rs, .refused)
    else
      let r := (rs.get name).add issue
      (rs.set name r, counts r)
  | .merge other =>
    let r := (rs.get name).merge (rs.get other)
    (rs.set name r, counts r)
  | .render format => (rs, .text ((rs.get name).render format))
  | .count => (rs, counts (rs.get name))

end Reports

end Lineage
