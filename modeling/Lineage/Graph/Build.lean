import Lineage.Graph.Basic

/-!
# Building a graph

A graph is built in five passes: the declarations are ingested, the parents of composed roles are
handed down, rootless types receive the universal base, the inverse edges are filled in, and the
graph is frozen in dependency order.
-/

namespace Lineage.Graph

/-! ## Ingestion -/

/-- Links a node to the nodes of the given names, which are created if they are new. -/
def linkAll (g : Graph) (link : Node → Nat → Node) (i : Nat) (names : List Text) : Graph :=
  names.foldl
    (fun g name =>
      let (g, target) := g.intern name
      g.modify i (link · target)) g

/-- Ingests one declaration: it sets the kind and the categories of its type and adds to the
parents and the roles. -/
def ingestOne (g : Graph) (d : Declaration) : Graph :=
  let (g, i) := g.intern d.name
  let g := g.modify i fun n => { n with kind := d.kind, categories := d.categories }
  let g := g.linkAll (fun n p => { n with parents := n.parents ++ [p] }) i d.parents
  g.linkAll (fun n r => { n with roles := n.roles ++ [r] }) i d.roles

/-- Ingests declarations in order, unless the graph is frozen and there is one. -/
def ingest (g : Graph) (ds : List Declaration) : Except GraphError Graph :=
  if g.frozen && !ds.isEmpty then .error .frozen else .ok (ds.foldl ingestOne g)

/-! ## Roles -/

/-- Takes up to `fuel` roles off a worklist and returns them in the order in which they are taken,
in front of those taken before; nothing if some role is left. The next role to be taken comes
first; the roles of a role are worked through before the others, the last of them first. -/
def drain (ns : Nodes) : (fuel : Nat) → (work taken : List Nat) → Option (List Nat)
  | _, [], taken => some taken.reverse
  | 0, _ :: _, _ => none
  | fuel + 1, r :: rest, taken => drain ns fuel ((ns.roles r).reverse ++ rest) (r :: taken)

/-- How many roles a worklist can yield at most: a chain of roles without a cycle is no longer than
the number of nodes, and each role in it was chosen among all role entries. -/
def drainBudget (ns : Nodes) : Nat :=
  Nat.pow ((ns.toList.flatMap (·.roles)).length + 1) ns.size

/-- The roles that a node composes, directly or through other roles, once for every way to reach
them; nothing if the roles compose each other in a cycle. -/
def composed? (ns : Nodes) (i : Nat) : Option (List Nat) :=
  drain ns (drainBudget ns) (ns.roles i).reverse []

/-- Gives one node the parents of every role that it composes. -/
def flattenOne (ns : Nodes) (i : Nat) : Option Nodes :=
  (composed? ns i).map fun rs => ns.addParents i (rs.flatMap ns.parents)

/-- Gives each of the nodes in turn the parents of every role that it composes. -/
def flattenEach : List Nat → Nodes → Option Nodes
  | [], ns => some ns
  | i :: rest, ns => (flattenOne ns i).bind (flattenEach rest)

/-- Gives each type the parents of every role it composes, in registry order. There is no result
if the roles compose each other in a cycle. -/
def flattenRoles (g : Graph) : Option Graph :=
  (flattenEach (List.range g.size) g.nodes).map fun nodes => { g with nodes }

/-! ## Default parents -/

/-- Whether a node is no role, has no parent and is neither the root nor the base. -/
def isRootless (c : Config) (n : Node) : Bool :=
  !n.isRole && n.parents.isEmpty && n.name != c.root && n.name != c.base

/-- The rootless nodes, in registry order. -/
def rootless (g : Graph) : List Nat :=
  (List.range g.size).filter fun i =>
    match g.nodes[i]? with
    | some n => isRootless g.config n
    | none => false

/-- Gives the universal base to every rootless node. -/
def assignDefaultRoots (g : Graph) : Except GraphError Graph :=
  let is := g.rootless
  if is.isEmpty then .ok g
  else do
    let (g, base) ← g.fetch g.config.base
    .ok { g with nodes := is.foldl (fun ns i => ns.addParents i [base]) g.nodes }

/-! ## Inverse edges -/

/-- Enters one node as a child of its parents and as a doer of its roles. -/
def invertOne (ns : Nodes) (i : Nat) : Nodes :=
  let ns := (ns.parents i).foldl (fun ns p => ns.addChild p i) ns
  (ns.roles i).foldl (fun ns r => ns.addDoer r i) ns

/-- Enters every node as a child of its parents and as a doer of its roles. -/
def buildInverses (g : Graph) : Graph :=
  { g with nodes := (List.range g.size).foldl invertOne g.nodes }

/-! ## The whole build -/

/-- Builds the frozen graph of the declarations. There is no result if the roles compose each
other in a cycle. -/
def build (ds : List Declaration) (config : Config := {}) : Option (Except GraphError Graph) :=
  match ({ config } : Graph).ingest ds with
  | .error e => some (.error e)
  | .ok g =>
    g.flattenRoles.map fun g => do
      let g ← g.assignDefaultRoots
      let g := g.buildInverses
      g.freeze g.order

end Lineage.Graph
