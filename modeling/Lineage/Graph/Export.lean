import Lineage.Declaration.References
import Lineage.Graph.Basic
import Lineage.Json.Basic

/-!
# Handing a graph on

A graph is handed on as a directed graph whose vertices are names, in whatever way such graphs are
kept. First every type is added as a vertex, then its edges are, those to its roles before those to
its parents. An edge that is there already takes the relation that is added last, so a pair of types
that is linked both by composition and by inheritance counts as inheriting.
-/

namespace Lineage

/-- What a vertex tells of its type. -/
structure Label where
  kind : Kind
  /-- The categories in ascending order. -/
  categories : List Text
deriving DecidableEq, Repr

/-- A way of keeping directed graphs whose vertices are names. -/
class DirectedGraph (G : Type) where
  empty : G
  addVertex : G → Text → Label → G
  addEdge : G → Text → Text → Relation → G
  /-- The vertices with their labels; one that is there only as an end of an edge has none. -/
  vertices : G → List (Text × Option Label)
  /-- Where the edges from a vertex lead, each with its relation. -/
  targets : G → Text → List (Text × Relation)

namespace Graph

variable {G : Type} [DirectedGraph G]

open DirectedGraph (addVertex addEdge)

/-- Adds the edges of one node. -/
def addEdges (ns : Nodes) (x : G) (n : Node) : G :=
  let x := (ns.names n.roles).foldl (fun x t => addEdge x n.name t .composes) x
  (ns.names n.parents).foldl (fun x t => addEdge x n.name t .inherits) x

/-- Adds a node without its edges. -/
def addNode (x : G) (n : Node) : G :=
  addVertex x n.name { kind := n.kind, categories := nameSet n.categories }

/-- The graph as a directed graph of names. -/
def toDirected (g : Graph) : G :=
  g.nodes.toList.foldl (addEdges g.nodes) (g.nodes.toList.foldl addNode DirectedGraph.empty)

end Graph

/-! ## Adjacency lists -/

/-- A directed graph by the targets of each vertex, all in the order in which they were added. -/
structure Adjacency where
  vertices : List (Text × Option Label) := []
  targets : List (Text × List (Text × Relation)) := []
deriving DecidableEq, Repr

namespace Adjacency

/-- Adds a vertex without a label unless it is there already. -/
def addEnd (name : Text) (vertices : List (Text × Option Label)) : List (Text × Option Label) :=
  if (vertices.map (·.1)).contains name then vertices else vertices ++ [(name, none)]

/-- Where the edges from a vertex lead. -/
def targetsOf (x : Adjacency) (name : Text) : List (Text × Relation) :=
  (x.targets.lookup name).getD []

instance : DirectedGraph Adjacency where
  empty := {}
  addVertex x name label := { x with vertices := Json.put name (some label) x.vertices }
  addEdge x source target r :=
    { vertices := addEnd target (addEnd source x.vertices)
      targets := Json.put source (Json.put target r (x.targetsOf source)) x.targets }
  vertices := vertices
  targets := targetsOf

/-- All edges, grouped by source in the order of the vertices. -/
def edges (x : Adjacency) : List (Text × Text × Relation) :=
  x.vertices.flatMap fun (source, _) => (x.targetsOf source).map fun (t, r) => (source, t, r)

end Adjacency

end Lineage
