import Lineage.Declaration.Line

/-!
# References between names

The declared edges of one relation form a directed graph on names. Its names come in the order of
their first appearance, as declared or as target, and so do the targets of each name.
-/

namespace Lineage

/-- A directed graph on names; each name has its targets, without repeats. -/
structure NameGraph where
  names : List Text := []
  targets : List (Text × List Text) := []
deriving DecidableEq, Repr

/-- Adds a member to a list unless it is there already. -/
def addNew {α : Type} [BEq α] (l : List α) (x : α) : List α :=
  if l.contains x then l else l ++ [x]

namespace NameGraph

/-- The targets of a name. -/
def targetsOf (g : NameGraph) (name : Text) : List Text :=
  (g.targets.lookup name).getD []

/-- The edges, grouped by source in the order of the names. -/
def edges (g : NameGraph) : List (Text × Text) :=
  g.targets.flatMap fun (name, ts) => ts.map (name, ·)

end NameGraph

/-- The names that a declaration refers to through a relation. -/
def Declaration.targets (d : Declaration) : Relation → List Text
  | .inherits => d.parents
  | .composes => d.roles

namespace Model

/-- The names of a model in the order in which the declarations mention them through one
relation. -/
def mentioned (m : Model) (r : Relation) : List Text :=
  (m.declarations.flatMap fun d => d.name :: d.targets r).foldl addNew []

/-- The targets of all declarations of a name, without repeats. -/
def targetsOf (m : Model) (r : Relation) (name : Text) : List Text :=
  ((m.declarationsOf name).flatMap (·.targets r)).foldl addNew []

/-- The declared edges of one relation. -/
def references (m : Model) (r : Relation) : NameGraph :=
  let names := m.mentioned r
  { names, targets := names.map fun n => (n, m.targetsOf r n) }

end Model

end Lineage
