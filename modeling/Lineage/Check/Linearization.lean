import Lineage.Graph.Basic
import Lineage.Report.Basic

/-!
# Linearization check

Every type of a graph should have a linearization. Each type at fault is reported once, under its
own name; descendants that fail only because of it are not repeated.
-/

namespace Lineage

/-- The faults met when every type is linearized in the global order, with the types that were
asked for, and the graph left behind. -/
def Graph.faults (g : Graph) : Graph × List (Nat × HierarchyFault) :=
  let (g, rs) := g.linearizeAll g.sorted
  (g, rs.filterMap fun (i, r) =>
    match r with
    | .ok _ => none
    | .error f => some (i, f))

namespace Check

/-- The error for a type at fault. -/
def hierarchyIssue (r : HierarchyReport) : Issue :=
  { code := "INCONSISTENT_HIERARCHY", message := r.message, severity := .error
    subject := some r.name, details := [("requested", .text r.requested)] }

/-- The first report for each name at fault; `seen` are the names reported before. -/
def firstReports : List Text → List HierarchyReport → List HierarchyReport
  | _, [] => []
  | seen, r :: rest =>
    if seen.contains r.name then firstReports seen rest
    else r :: firstReports (r.name :: seen) rest

/-- Checks that every type in the global order has a linearization. -/
def linearization (g : Graph) : Graph × Report :=
  let (g, fs) := g.faults
  (g, ⟨(firstReports [] (fs.map fun (i, f) => g.report i f)).map hierarchyIssue⟩)

end Check

end Lineage
