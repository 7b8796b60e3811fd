import Lineage.Graph.Basic
import Lineage.Json.Indented
import Lineage.Output.Format

/-!
# Written graphs

A graph is written type by type in its global order, with the edges and the linearization of each
type. Where a type has no linearization, the reason is written in its place.
-/

namespace Lineage

/-- A linearization as it is written: the names, or the reason why there is none. -/
abbrev Written := Except Text (List Text)

namespace Graph

/-- The result of a linearization with names for nodes. -/
def written (g : Graph) (i : Nat) : Except HierarchyFault (List Nat) → Written
  | .ok l => .ok (g.nodes.names l)
  | .error f => .error (g.report i f).message

/-- The names of a linearization in one line. -/
def chain (names : List Text) : Text :=
  Text.intercalate " -> " names

/-- A line of labelled names, unless there are none. -/
def edgeLine (g : Graph) (label : String) (is : List Nat) : List Text :=
  if is.isEmpty then [] else [label ++ Text.intercalate ", " (g.nodes.names is)]

/-- The header line of a type. -/
def headerLine (n : Node) : Text :=
  let head := n.kind.keyword ++ " " ++ n.name
  if n.categories.isEmpty then head
  else head ++ "  [" ++ Text.intercalate " " n.categories ++ "]"

/-- The lines of one type. -/
def typeLines (g : Graph) (n : Node) (mro : Written) : List Text :=
  headerLine n :: g.edgeLine "  is:    " n.parents ++ g.edgeLine "  does:  " n.roles
    ++ g.edgeLine "  sub:   " n.children ++ g.edgeLine "  doers: " n.doers
    ++ [match mro with
        | .ok names => "  mro:   " ++ chain names
        | .error reason => "  mro:   ✘ " ++ reason]

/-- The JSON fields of a linearization. -/
def Written.fields : Written → List (Text × Json)
  | .ok names => [("mro", Json.texts names)]
  | .error reason => [("mro", .null), ("mro_error", .text reason)]

/-- The JSON of one type. -/
def typeJson (g : Graph) (n : Node) (mro : Written) : Json :=
  let facts : List (Text × Json) := [
    ("name", .text n.name),
    ("packagetype", .text n.kind.keyword),
    ("categories", Json.texts n.categories),
    ("super", Json.texts (g.nodes.names n.parents)),
    ("roles", Json.texts (g.nodes.names n.roles)),
    ("sub", Json.texts (g.nodes.names n.children)),
    ("doers", Json.texts (g.nodes.names n.doers))]
  .record (facts ++ Written.fields mro)

/-- Every type in the global order with its linearization, and the graph left behind. -/
def writtenTypes (g : Graph) : Graph × List (Node × Written) :=
  let (g, rs) := g.linearizeAll g.sorted
  (g, rs.filterMap fun (i, r) => g.nodes[i]?.map fun n => (n, g.written i r))

/-- The graph in a format, and the graph left behind. -/
def render (g : Graph) (f : Format) : Graph × Text :=
  let (g, types) := g.writtenTypes
  match f with
  | .json =>
    (g, (Json.record [("types", .list (types.map fun (n, w) => g.typeJson n w))]).render)
  | .text =>
    let count : Text := s!"{g.size} type(s)"
    let lines := types.flatMap fun (n, w) => g.typeLines n w
    (g, Text.intercalate "\n" (lines ++ [("" : Text), count]))

/-- The linearization of a named type in a format. -/
def renderChain (name : Text) (names : List Text) : Format → Text
  | .json => (Json.record [("name", .text name), ("mro", Json.texts names)]).render
  | .text => chain names

/-- The linearization of a named type in a format, and the graph left behind. -/
def renderLinearization (g : Graph) (name : Text) (f : Format) :
    Graph × Except GraphError Text :=
  match g.find name with
  | .error e => (g, .error e)
  | .ok i =>
    let (g, r) := g.linearize i
    match r with
    | .ok l => (g, .ok (renderChain name (g.nodes.names l) f))
    | .error fault => (g, .error (.inconsistent (g.report i fault)))

end Graph

end Lineage
