import Lineage.Check.Run

/-!
# Notes

The lines that a verbose run writes about its work.
-/

namespace Lineage.CommandLine.Notes

/-- A line of the log of one part of the program. -/
def line (source : String) (message : Text) : Text :=
  "DEBUG typegraph." ++ source ++ ": " ++ message

/-- The number of types after ingestion, and how many of them are rootless once roles have handed
down their parents. -/
def passCounts (m : Model) (c : Config) : Nat × Nat :=
  match ({ config := c } : Graph).ingest m.declarations with
  | .ok g => (g.size, (g.flattenRoles.getD g).rootless.length)
  | .error _ => (0, 0)

/-- The notes on the build of a graph. -/
def ofBuild (m : Model) (c : Config) (g : Graph) : List Text :=
  let (ingested, rootless) := passCounts m c
  let source := "graph.builder"
  let attached := "Attached " ++ c.base ++ s!" to {rootless} rootless types"
  [line source s!"Ingested {m.declarations.length} declarations into {ingested} types"]
    ++ (if rootless == 0 then [] else [line source attached])
    ++ [line source s!"Built type graph with {g.size} types"]

/-- The note on a failed linearization of a type. -/
def ofFault (g : Graph) (i : Nat) (f : HierarchyFault) : Text :=
  line "graph.linearizer" (f.logLine g.nodes i)

/-- The notes on linearizing every type of a graph in its global order. -/
def ofFaults (g : Graph) : List Text :=
  g.faults.2.map fun (i, f) => ofFault g i f

/-- The notes on the validation of a model. -/
def ofValidation (m : Model) (c : Config) : List Text :=
  match Check.buildIfSafe m c with
  | some (.ok g) => ofBuild m c g ++ ofFaults g
  | _ => [line "validators.runner" "Skipping graph build: role composition is cyclic"]

end Lineage.CommandLine.Notes
