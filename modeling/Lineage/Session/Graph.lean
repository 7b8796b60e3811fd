import Lineage.Check.Linearization
import Lineage.Graph.Build
import Lineage.Graph.Export
import Lineage.Output.Graph

/-!
# Sessions on a graph

Everything that can be asked of a graph, as data: a session is a list of requests. A request that
is refused leaves the graph as it was, except that the linearizations found before a failure stay
memoized.
-/

namespace Lineage.Graph

/-- A request to a graph. -/
inductive Request where
  /-- Fetch the type of a name, created if it is new. -/
  | fetch (name : Text)
  | ingest (declarations : List Declaration)
  | flattenRoles
  | assignDefaultRoots
  | buildInverses
  /-- The dependency order of all types; nothing is recorded. -/
  | order
  /-- Freeze in dependency order, or in a given one. That is given by names, which are looked up
  first, so only nodes of the registry can be offered, and an unknown name is refused before. -/
  | freeze (order : Option (List Text))
  /-- The linearization of a type. -/
  | linearize (name : Text)
  /-- The name of a type, if it exists. -/
  | lookup (name : Text)
  /-- A type as messages show it. -/
  | describe (name : Text)
  | contains (name : Text)
  | size
  /-- The types in the recorded order. -/
  | sorted
  /-- The types in registry order. -/
  | names
  /-- What is left of a copy of the registry when a name is removed from it. -/
  | without (name : Text)
  /-- Replace an entry of the registry. -/
  | replace (name : Text)
  /-- Change the name of a type. -/
  | rename (name : Text)
  | isRole (name : Text)
  | addParent (name parent : Text)
  | addRole (name role : Text)
  | setKind (name : Text) (word : String)
  | setCategories (name : Text) (categories : List Text)
  /-- All edges of the graph. -/
  | edges
  | render (format : Format)
  | checkLinearization
deriving Inhabited

/-- The answer to a request. -/
inductive Reply where
  | done
  | flag (b : Bool)
  | count (n : Nat)
  | text (s : Text)
  | text? (s : Option Text)
  | names (l : List Text)
  | edges
  | report (r : Report)
deriving Inhabited

/-- Applies a change to the node of a name. -/
def changing (g : Graph) (name : Text) (f : Node → Node) : Graph × Except GraphError Reply :=
  match g.find name with
  | .ok i => (g.modify i f, .ok .done)
  | .error e => (g, .error e)

/-- Answers from the node of a name. -/
def asking (g : Graph) (name : Text) (f : Node → Reply) : Graph × Except GraphError Reply :=
  match g.find name with
  | .ok i =>
    match g.nodes[i]? with
    | some n => (g, .ok (f n))
    | none => (g, .error (.unknown name))
  | .error e => (g, .error e)

/-- Links the nodes of two names. -/
def linking (g : Graph) (name target : Text) (link : Node → Nat → Node) :
    Graph × Except GraphError Reply :=
  match g.find name, g.find target with
  | .ok i, .ok j => (g.modify i (link · j), .ok .done)
  | .error e, _ => (g, .error e)
  | .ok _, .error e => (g, .error e)

/-- Keeps the graph where an operation is refused. -/
def attempting (g : Graph) : Except GraphError Graph → Graph × Except GraphError Reply
  | .ok g => (g, .ok .done)
  | .error e => (g, .error e)

/-- Performs a request. Handing down roles has no effect if the roles compose each other in a
cycle, since there is no end to it. -/
def perform (g : Graph) : Request → Graph × Except GraphError Reply
  | .fetch name =>
    match g.fetch name with
    | .error e => (g, .error e)
    | .ok (g, i) => (g, .ok (.text (((g.nodes[i]?).map (·.describe)).getD "")))
  | .ingest ds => g.attempting (g.ingest ds)
  | .flattenRoles => (g.flattenRoles.getD g, .ok .done)
  | .assignDefaultRoots => g.attempting g.assignDefaultRoots
  | .buildInverses => (g.buildInverses, .ok .done)
  | .order => (g, .ok (.names (g.nodes.names g.order)))
  | .freeze none => g.attempting (g.freeze g.order)
  | .freeze (some names) =>
    match g.findAll names with
    | .error e => (g, .error e)
    | .ok is => g.attempting (g.freeze is)
  | .linearize name =>
    match g.find name with
    | .error e => (g, .error e)
    | .ok i =>
      match g.linearize i with
      | (g, .ok l) => (g, .ok (.names (g.nodes.names l)))
      | (g, .error f) => (g, .error (.inconsistent (g.report i f)))
  | .lookup name => (g, .ok (.text? ((g.find? name).map g.nodes.name)))
  | .describe name => g.asking name fun n => .text n.describe
  | .contains name => (g, .ok (.flag (g.find? name).isSome))
  | .size => (g, .ok (.count g.size))
  | .sorted => (g, .ok (.names (g.nodes.names g.sorted)))
  | .names => (g, .ok (.names g.names))
  | .without name => g.asking name fun n => .names (g.names.erase n.name)
  | .replace _ => (g, .error .fixedEntries)
  | .rename name =>
    match g.find name with
    | .ok _ => (g, .error .fixedName)
    | .error e => (g, .error e)
  | .isRole name => g.asking name fun n => .flag n.isRole
  | .addParent name parent =>
    g.linking name parent fun n p => { n with parents := n.parents ++ [p] }
  | .addRole name role => g.linking name role fun n r => { n with roles := n.roles ++ [r] }
  | .setKind name word =>
    match Kind.ofKeyword? word with
    | some kind => g.changing name fun n => { n with kind }
    | none => (g, .error (.unknownKind word))
  | .setCategories name categories =>
    g.changing name fun n => { n with categories := nameSet categories }
  | .edges => (g, .ok .edges)
  | .render format =>
    let (g, s) := g.render format
    (g, .ok (.text s))
  | .checkLinearization =>
    let (g, r) := Check.linearization g
    (g, .ok (.report r))

/-- Performs requests in order and returns the answers with the graph after each. -/
def performAll (g : Graph) : List Request → List (Except GraphError Reply × Graph)
  | [] => []
  | r :: rest =>
    let (g, answer) := g.perform r
    (answer, g) :: performAll g rest

end Lineage.Graph
