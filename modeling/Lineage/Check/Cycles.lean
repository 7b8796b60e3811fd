import Lineage.Graph.Cycles
import Lineage.Report.Basic

/-!
# Cycle checks

The declared edges of either relation should have no cycle. A cycle of roles would keep a graph
from being built, and a cycle of parents leaves its types without a linearization. Both checks look
at the declarations, and report one error for each elementary cycle.
-/

namespace Lineage.Check

/-- The code of a cycle of one relation. -/
def cycleCode : Relation → String
  | .inherits => "INHERITANCE_CYCLE"
  | .composes => "ROLE_CYCLE"

/-- What messages call a relation. -/
def cycleLabel : Relation → String
  | .inherits => "Inheritance"
  | .composes => "Role composition"

/-- The error for a cycle, given from its smallest name on. The message closes the path with the
name it started from. -/
def cycleIssue (r : Relation) (cycle : List Text) : Issue :=
  { code := cycleCode r
    message := cycleLabel r ++ " cycle: " ++ Text.intercalate " -> " (cycle ++ cycle.take 1)
    severity := .error
    subject := cycle.head?
    details := [("cycle", Json.texts cycle)] }

/-- One error for each elementary cycle of the declared edges of a relation. -/
def cycles (r : Relation) (m : Model) : Report :=
  ⟨(Cycles.ofNames (m.references r)).map (cycleIssue r)⟩

/-- Checks that the declared roles do not compose each other in a cycle. -/
def roleCycles (m : Model) : Report :=
  cycles .composes m

/-- Checks that the declared parents do not inherit from each other in a cycle. -/
def inheritanceCycles (m : Model) : Report :=
  cycles .inherits m

end Lineage.Check
