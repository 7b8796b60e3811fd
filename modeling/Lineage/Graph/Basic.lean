import Lineage.Graph.Config
import Lineage.Graph.Node
import Lineage.Graph.Order
import Lineage.Linearization.Search

/-!
# The type graph

A graph owns its nodes, one for each name, in the order in which the names were first mentioned;
the index of a node is its place in that registry. While the graph is built, nodes are created on
first mention. Freezing records the global order and ends that phase.
-/

namespace Lineage

/-- A registry of types with their edges, their global order and the linearizations found. -/
structure Graph where
  config : Config := {}
  nodes : Nodes := #[]
  memo : Memo := {}
  /-- The global order, recorded when the graph is frozen. -/
  sorted : List Nat := []
  frozen : Bool := false
deriving Repr, Inhabited

/-- Why an operation on a graph is refused. -/
inductive GraphError where
  /-- The graph is frozen. -/
  | frozen
  /-- The order offered does not have as many entries as the registry. -/
  | wrongLength (offered registered : Nat)
  /-- There is no type of that name. -/
  | unknown (name : Text)
  /-- There is no such kind of type. -/
  | unknownKind (word : String)
  /-- The entries of the registry cannot be replaced. -/
  | fixedEntries
  /-- The name of a type cannot be changed. -/
  | fixedName
  /-- The hierarchy above a type has no linearization. -/
  | inconsistent (report : HierarchyReport)
deriving DecidableEq, Repr

/-- The sentence that describes the error. -/
def GraphError.message : GraphError → Text
  | frozen => "Type graph is frozen and cannot be modified"
  | wrongLength offered registered =>
    s!"Sorted order has {offered} nodes, registry has {registered}"
  | unknown name => name
  | unknownKind word => s!"'{word}' is not a kind of type"
  | fixedEntries => "The registry is read-only"
  | fixedName => "The name of a type is read-only"
  | inconsistent report => report.message

namespace Graph

/-! ## The registry -/

/-- The number of types. -/
def size (g : Graph) : Nat :=
  g.nodes.size

/-- The names of all types in registry order. -/
def names (g : Graph) : List Text :=
  g.nodes.toList.map (·.name)

/-- The node of a name. -/
def find? (g : Graph) (name : Text) : Option Nat :=
  g.nodes.findIdx? (·.name == name)

/-- The node of a name, which has to exist. -/
def find (g : Graph) (name : Text) : Except GraphError Nat :=
  match g.find? name with
  | some i => .ok i
  | none => .error (.unknown name)

/-- The nodes of several names, each of which has to exist. -/
def findAll (g : Graph) : List Text → Except GraphError (List Nat)
  | [] => .ok []
  | name :: rest => do
    let i ← g.find name
    let is ← g.findAll rest
    .ok (i :: is)

/-- Refuses if the graph is frozen. -/
def checkMutable (g : Graph) : Except GraphError Unit :=
  if g.frozen then .error .frozen else .ok ()

/-- The node of a name, created as a plain class if the name is new. -/
def intern (g : Graph) (name : Text) : Graph × Nat :=
  match g.find? name with
  | some i => (g, i)
  | none => ({ g with nodes := g.nodes.push { name } }, g.nodes.size)

/-- The node of a name, created if it is new, unless the graph is frozen. -/
def fetch (g : Graph) (name : Text) : Except GraphError (Graph × Nat) := do
  g.checkMutable
  .ok (g.intern name)

/-- Replaces one node. -/
def modify (g : Graph) (i : Nat) (f : Node → Node) : Graph :=
  { g with nodes := g.nodes.modify i f }

/-! ## Order -/

/-- The dependency order of all nodes. -/
def order (g : Graph) : List Nat :=
  Order.sort g.nodes (List.range g.size)

/-- Records the global order and ends the building phase. -/
def freeze (g : Graph) (order : List Nat) : Except GraphError Graph := do
  g.checkMutable
  if order.length = g.size then .ok { g with sorted := order, frozen := true }
  else .error (.wrongLength order.length g.size)

/-! ## Linearizations -/

/-- The linearization of a node; the graph that is left has everything memoized that was found on
the way. -/
def linearize (g : Graph) (i : Nat) : Graph × Except HierarchyFault (List Nat) :=
  let (memo, r) := Linearization.linearize g.nodes g.memo i
  ({ g with memo }, r)

/-- The report of a fault found while linearizing a node. -/
def report (g : Graph) (i : Nat) (f : HierarchyFault) : HierarchyReport :=
  f.report g.nodes i

/-- Linearizes several nodes one after the other. -/
def linearizeAll (g : Graph) :
    List Nat → Graph × List (Nat × Except HierarchyFault (List Nat))
  | [] => (g, [])
  | i :: rest =>
    let (g, r) := g.linearize i
    let (g, rs) := g.linearizeAll rest
    (g, (i, r) :: rs)

end Graph

end Lineage
