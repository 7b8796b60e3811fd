import Lineage.Check.Cycles
import Lineage.Check.Linearization
import Lineage.Check.References
import Lineage.Graph.Build

/-!
# Validation

All checks together. The checks of the declarations come first; the linearization check needs the
graph, which is only built if the declared roles compose without a cycle.
-/

namespace Lineage.Check

/-- The checks that look at the declarations only. -/
def declarations (m : Model) (c : Config := {}) : Report :=
  (((roleCycles m).merge (inheritanceCycles m)).merge (references m c)).merge (kindChanges m)

/-- Runs all checks on a model and, if there is one, on its graph. -/
def run (m : Model) (g : Option Graph) (c : Config := {}) : Option Graph × Report :=
  match g with
  | none => (none, declarations m c)
  | some g =>
    let (g, r) := linearization g
    (some g, (declarations m c).merge r)

/-- The graph of a model, unless its declared roles compose each other in a cycle. -/
def buildIfSafe (m : Model) (c : Config := {}) : Option (Except GraphError Graph) :=
  if (roleCycles m).isValid then Graph.build m.declarations c else none

/-- Validates a model: the graph, if one can be built, and the report of all checks. -/
def validate (m : Model) (c : Config := {}) : Except GraphError (Option Graph × Report) :=
  match buildIfSafe m c with
  | none => .ok (run m none c)
  | some (.error e) => .error e
  | some (.ok g) => .ok (run m (some g) c)

end Lineage.Check
