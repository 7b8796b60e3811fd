import Lineage.Graph.Order
import Lineage.Linearization.Search

/-!
# Sessions on bare nodes

Nodes can be linked, linearized and ordered without a graph that owns them. Several of them may
share a name and are still different.
-/

namespace Lineage

/-- Nodes with the linearizations found for them. -/
structure Population where
  nodes : Nodes := #[]
  memo : Memo := {}
deriving Repr, Inhabited

namespace Population

/-- A request to bare nodes, which are named by their index. -/
inductive Request where
  | addParent (node parent : Nat)
  | addRole (node role : Nat)
  | linearize (node : Nat)
  /-- Put nodes and all that they depend on into dependency order. -/
  | order (nodes : List Nat)
  | merge (sequences : List (List Nat)) (owner : Option Text)
  | equal (node other : Nat)
  /-- A node as messages show it, and its name. -/
  | describe (node : Nat)
deriving Inhabited

/-- The answer to a request. -/
inductive Reply where
  | done
  | flag (b : Bool)
  | nodes (l : List Nat)
  | texts (l : List Text)
deriving Inhabited

/-- Performs a request. -/
def perform (p : Population) : Request → Population × Except HierarchyReport Reply
  | .addParent i j => ({ p with nodes := p.nodes.addParents i [j] }, .ok .done)
  | .addRole i j => ({ p with nodes := p.nodes.addRoles i [j] }, .ok .done)
  | .linearize i =>
    let (memo, r) := Linearization.linearize p.nodes p.memo i
    ({ p with memo }, match r with
      | .ok l => .ok (.nodes l)
      | .error f => .error (f.report p.nodes i))
  | .order is => (p, .ok (.nodes (Order.sort p.nodes is)))
  | .merge ls owner => (p, (Linearization.mergeFor owner p.nodes.name ls).map .nodes)
  | .equal i j => (p, .ok (.flag (i == j)))
  | .describe i =>
    match p.nodes[i]? with
    | some n => (p, .ok (.texts [n.describe, n.name]))
    | none => (p, .ok (.texts []))

/-- The nodes whose linearization is known. -/
def memoized (p : Population) : List Nat :=
  (List.range p.nodes.size).filter p.memo.has

/-- Performs requests in order and returns the answers with the nodes after each. -/
def performAll (p : Population) : List Request → List (Except HierarchyReport Reply × Population)
  | [] => []
  | r :: rest =>
    let (p, answer) := p.perform r
    (answer, p) :: performAll p rest

end Population

end Lineage
