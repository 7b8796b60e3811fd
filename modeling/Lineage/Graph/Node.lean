import Lineage.Declaration.Basic
import Lineage.Text.Quoted

/-!
# Types as nodes

A node is one type with its edges to others. Nodes are known by their index in an array, so two
nodes of one name are still two nodes; an index beyond the array stands for no node and has no
edges.
-/

namespace Lineage

/-- A declared or referenced type. -/
structure Node where
  name : Text
  kind : Kind := .ofClass
  /-- The categories, as an ascending list without repeats. -/
  categories : List Text := []
  parents : List Nat := []
  children : List Nat := []
  roles : List Nat := []
  doers : List Nat := []
deriving DecidableEq, Repr, Inhabited

/-- Whether the node is a role. -/
def Node.isRole (n : Node) : Bool :=
  n.kind == .ofRole

/-- A node as messages show it. -/
def Node.describe (n : Node) : String :=
  s!"TypeNode({Text.quoted n.name}, {n.kind.keyword})"

/-- The nodes of a graph, by index. -/
abbrev Nodes := Array Node

namespace Nodes

/-- The name of a node. -/
def name (ns : Nodes) (i : Nat) : Text :=
  match ns[i]? with
  | some n => n.name
  | none => ""

/-- The parents of a node. -/
def parents (ns : Nodes) (i : Nat) : List Nat :=
  match ns[i]? with
  | some n => n.parents
  | none => []

/-- The roles of a node. -/
def roles (ns : Nodes) (i : Nat) : List Nat :=
  match ns[i]? with
  | some n => n.roles
  | none => []

/-- What a node depends on: its parents, then its roles. -/
def dependencies (ns : Nodes) (i : Nat) : List Nat :=
  ns.parents i ++ ns.roles i

/-- The names of several nodes. -/
def names (ns : Nodes) (is : List Nat) : List Text :=
  is.map ns.name

/-- Appends parents to a node. -/
def addParents (ns : Nodes) (i : Nat) (more : List Nat) : Nodes :=
  ns.modify i fun n => { n with parents := n.parents ++ more }

/-- Appends roles to a node. -/
def addRoles (ns : Nodes) (i : Nat) (more : List Nat) : Nodes :=
  ns.modify i fun n => { n with roles := n.roles ++ more }

/-- Appends a child to a node. -/
def addChild (ns : Nodes) (i child : Nat) : Nodes :=
  ns.modify i fun n => { n with children := n.children ++ [child] }

/-- Appends a doer to a node. -/
def addDoer (ns : Nodes) (i doer : Nat) : Nodes :=
  ns.modify i fun n => { n with doers := n.doers ++ [doer] }

theorem parents_of_size_le {ns : Nodes} {i : Nat} (h : ns.size ≤ i) : ns.parents i = [] := by
  simp [parents, Array.getElem?_eq_none h]

theorem roles_of_size_le {ns : Nodes} {i : Nat} (h : ns.size ≤ i) : ns.roles i = [] := by
  simp [roles, Array.getElem?_eq_none h]

theorem dependencies_of_size_le {ns : Nodes} {i : Nat} (h : ns.size ≤ i) :
    ns.dependencies i = [] := by
  simp [dependencies, parents_of_size_le h, roles_of_size_le h]

end Nodes

end Lineage
