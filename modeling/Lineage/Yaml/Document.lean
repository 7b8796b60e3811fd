import Lineage.Yaml.Node
import Lineage.Yaml.Value

/-!
# Documents as data

The value that the nodes of a document describe. Scalars are read at once. A collection is first
made empty and filled later, in the order in which collections were met; so a collection can be
part of itself, and of two faults the one met first in that order counts. Before a mapping is read,
the entries that its merge keys bring in are put in front of its own.
-/

namespace Lineage.Yaml

/-- A value that is being made: a scalar, or the number of a collection. -/
inductive Ref where
  | value (d : Data)
  | box (i : Nat)
deriving Inhabited

/-- A collection with the values filled in so far. -/
inductive Box where
  | list (items : List Ref)
  | map (entries : List (Data × Ref))
  | set (items : List Data)
  /-- A list of pairs. -/
  | pairs (items : List (Ref × Ref))
deriving Inhabited

/-- Whether a node has a standard tag. -/
def Node.hasTag (n : Node) (name : String) : Bool :=
  n.tag == Tag.standard name

/-- The number of merge keys in all mappings. -/
def mergeCount (nodes : Array Node) : Nat :=
  (nodes.toList.flatMap fun n =>
    match n.content with
    | .mapping es => es.filter fun (k, _) => (nodes.getD k default).hasTag "merge"
    | _ => []).length

/-- The state of making values. -/
structure Making where
  nodes : Array Node
  /-- How many merge keys there were at first. -/
  merges : Nat := mergeCount nodes
  /-- The values of the nodes met so far, by the number of the node. -/
  made : Array (Option Ref) := Array.replicate nodes.size none
  /-- The collections met so far. -/
  boxes : Array Box := #[]
  /-- The nodes of these collections. -/
  sources : Array Nat := #[]

/-! ## Merge keys -/

namespace Making

/-- The node of a number. -/
def node (m : Making) (i : Nat) : Node :=
  m.nodes.getD i default

/-- Replaces the entries of a mapping. -/
def setEntries (m : Making) (i : Nat) (es : List (Nat × Nat)) : Making :=
  { m with nodes := m.nodes.modify i fun n => { n with content := .mapping es } }

/-- The entries of a mapping. -/
def entries? (m : Making) (i : Nat) : Except Fault (List (Nat × Nat)) :=
  match (m.node i).content with
  | .mapping es => .ok es
  | _ => .error .malformed

/-- Whether the node has a standard tag. -/
def hasTag (m : Making) (i : Nat) (name : String) : Bool :=
  (m.node i).hasTag name

/-- A value key stands for a text. -/
def readTag (m : Making) (i : Nat) : Making :=
  if m.hasTag i "value" then
    { m with nodes := m.nodes.modify i fun n => { n with tag := Tag.standard "str" } }
  else m

/-- Puts entries before those of a mapping. -/
def prepend (m : Making) (i : Nat) (es : List (Nat × Nat)) : Except Fault Making := do
  if es.isEmpty then .ok m else .ok (m.setEntries i (es ++ (← m.entries? i)))

/-- Takes the merge keys out of a mapping one after the other, and returns the entries that they
bring in, behind those brought in before. A mapping that is merged is treated likewise first; if
it is the mapping at hand, its other merge keys are gone afterwards. Every level of `depth` takes
one merge key out. -/
def takeMerges (m : Making) :
    (depth : Nat) → Nat → List (Nat × Nat) → Except Fault (Making × List (Nat × Nat))
  | 0, _, _ => .error .malformed
  | depth + 1, i, brought => do
    let merged (m : Making) (j : Nat) : Except Fault (Making × List (Nat × Nat)) := do
      let (m, more) ← m.takeMerges depth j []
      let m ← m.prepend j more
      .ok (m, ← m.entries? j)
    match (← m.entries? i).span fun (k, _) => !m.hasTag k "merge" with
    | (own, []) => .ok (own.foldl (fun m (k, _) => m.readTag k) m, brought)
    | (own, (_, v) :: rest) => do
      let m := m.setEntries i (own ++ rest)
      let (m, more) ←
        match (m.node v).content with
        | .mapping _ => merged m v
        | .sequence items =>
          items.foldlM
            (fun ((m, parts) : Making × List (Nat × Nat)) j => do
              let (m, part) ← merged m j
              .ok (m, part ++ parts))
            (m, [])
        | .scalar _ => .error .malformed
      m.takeMerges depth i (brought ++ more)

/-- Puts the entries that merge keys bring in before a mapping's own entries. -/
def flatten (m : Making) (i : Nat) : Except Fault Making := do
  let (m, brought) ← m.takeMerges (m.merges + 1) i []
  m.prepend i brought

/-! ## Scalars and new collections -/

/-- The text of a scalar; a mapping with a value key has the text of its value, unless that leads
back to the mapping. -/
def text (m : Making) : (depth : Nat) → Nat → Except Fault Text
  | 0, _ => .error .endless
  | depth + 1, i =>
    match (m.node i).content with
    | .scalar t => .ok t
    | .mapping es =>
      match es.find? fun (k, _) => m.hasTag k "value" with
      | some (_, v) => m.text depth v
      | none => .error .malformed
    | .sequence _ => .error .malformed

/-- The readers of the standard scalar types, for a node with the given number; the flag tells
whether the node itself is a scalar. -/
def scalarReader? (i : Nat) (direct : Bool) (name : String) : Option (Text → Except Fault Data) :=
  if name == "null" then some fun _ => .ok .null
  else if name == "bool" then some readTruth
  else if name == "int" then some readWhole
  else if name == "float" then some (readReal i)
  else if name == "binary" then some readBytes
  else if name == "str" then some fun t => .ok (.text t)
  else if name == "timestamp" then
    some fun t => if direct then readInstant t else .error .instantFromMapping
  else none

/-- The standard collection types, empty. -/
def emptyBox? (name : String) : Option Box :=
  if name == "seq" then some (.list [])
  else if name == "map" then some (.map [])
  else if name == "set" then some (.set [])
  else if name == "omap" || name == "pairs" then some (.pairs [])
  else none

/-- The standard name in a tag. -/
def standardName? (tag : String) : Option String :=
  ((Tag.standard "").toList.isPrefixOf? tag.toList).map String.ofList

/-- The value of a node. A collection that is new is empty. -/
def make (m : Making) (i : Nat) : Except Fault (Making × Ref) := do
  match m.made.getD i none with
  | some r => .ok (m, r)
  | none =>
    let n := m.node i
    let some name := standardName? n.tag | .error .malformed
    let direct := match n.content with
      | .scalar _ => true
      | _ => false
    match scalarReader? i direct name, emptyBox? name with
    | some read, _ =>
      let d ← read (← m.text (m.nodes.size + 1) i)
      .ok ({ m with made := m.made.setIfInBounds i (some (.value d)) }, .value d)
    | none, some box =>
      let b := m.boxes.size
      .ok ({ m with
        made := m.made.setIfInBounds i (some (.box b))
        boxes := m.boxes.push box
        sources := m.sources.push i }, .box b)
    | none, none => .error .malformed

/-! ## Filling collections -/

/-- The values of several nodes. -/
def makeAll (m : Making) : List Nat → Except Fault (Making × List Ref)
  | [] => .ok (m, [])
  | i :: is => do
    let (m, r) ← m.make i
    let (m, rs) ← m.makeAll is
    .ok (m, r :: rs)

/-- Sets an entry: a new key goes last, a known one keeps its place and takes the new value. -/
def putRef (key : Data) (value : Ref) : List (Data × Ref) → List (Data × Ref)
  | [] => [(key, value)]
  | (k, v) :: rest =>
    if Data.sameKey k key then (k, value) :: rest else (k, v) :: putRef key value rest

/-- The entries of a mapping behind those read so far; a collection is no key. -/
def makeEntries (m : Making) (done : List (Data × Ref)) :
    List (Nat × Nat) → Except Fault (Making × List (Data × Ref))
  | [] => .ok (m, done)
  | (k, v) :: es => do
    let (m, key) ← m.make k
    match key with
    | .box _ => .error .malformed
    | .value key =>
      let (m, value) ← m.make v
      m.makeEntries (putRef key value done) es

/-- The pairs of a sequence of mappings with one entry each. -/
def makePairs (m : Making) : List Nat → Except Fault (Making × List (Ref × Ref))
  | [] => .ok (m, [])
  | i :: is => do
    match ← m.entries? i with
    | [(k, v)] =>
      let (m, key) ← m.make k
      let (m, value) ← m.make v
      let (m, rest) ← m.makePairs is
      .ok (m, (key, value) :: rest)
    | _ => .error .malformed

/-- The items of a sequence. -/
def items? (m : Making) (i : Nat) : Except Fault (List Nat) :=
  match (m.node i).content with
  | .sequence is => .ok is
  | _ => .error .malformed

/-- The entries of a mapping node with its merge keys expanded. -/
def mappingEntries (m : Making) (i : Nat) : Except Fault (Making × List (Data × Ref)) := do
  let m ← m.flatten i
  m.makeEntries [] (← m.entries? i)

/-- Fills one collection. -/
def fill (m : Making) (i b : Nat) : Except Fault Making := do
  let (m, box) ←
    match m.boxes.getD b default with
    | .list _ => do
      let (m, rs) ← m.makeAll (← m.items? i)
      .ok (m, Box.list rs)
    | .map _ => do
      let (m, es) ← m.mappingEntries i
      .ok (m, Box.map es)
    | .set _ => do
      let (m, es) ← m.mappingEntries i
      .ok (m, Box.set (es.map (·.1)))
    | .pairs _ => do
      let (m, ps) ← m.makePairs (← m.items? i)
      .ok (m, Box.pairs ps)
  .ok { m with boxes := m.boxes.setIfInBounds b box }

/-- Fills the collections from number `b` on until none is left; there are at most as many as
nodes. -/
def fillFrom : (bound : Nat) → (b : Nat) → Making → Except Fault Making
  | 0, _, m => .ok m
  | bound + 1, b, m =>
    match m.sources[b]? with
    | none => .ok m
    | some i => do fillFrom bound (b + 1) (← m.fill i b)

end Making

/-! ## Sets -/

/-- The order in which a run lists the members of each set, given those in the order in which they
are written. A set has no order of its own, and the next run may list it otherwise. -/
structure SetOrder where
  listed : List Data → List Data
  perm (members : List Data) : (listed members).Perm members

/-- The order in which the members are written. -/
def SetOrder.asWritten : SetOrder where
  listed := id
  perm _ := .refl _

instance : Inhabited SetOrder := ⟨.asWritten⟩

/-- The collection with its members, if it is a set, in the order in which they are listed. -/
def Box.inOrder (order : SetOrder) : Box → Box
  | .set members => .set (order.listed members)
  | box => box

/-! ## The result -/

namespace Ref

/-- The entries of a value that is a mapping. -/
def entries? (boxes : Array Box) : Ref → Option (List (Data × Ref))
  | value _ => none
  | box b =>
    match boxes.getD b default with
    | .map es => some es
    | _ => none

/-- The items of a value that is a list or counts as one; the items of a list of pairs are pairs. -/
def items? (boxes : Array Box) : Ref → Option (List Ref)
  | value (.list ds) | value (.set ds) => some (ds.map value)
  | value _ => none
  | box b =>
    match boxes.getD b default with
    | .list rs => some rs
    | .set ds => some (ds.map value)
    | .pairs ps => some (ps.map fun _ => value (.pair .null .null))
    | .map _ => none

/-- A value as data, down to the given depth of collections; a collection below that is empty. -/
def unfold (boxes : Array Box) : (depth : Nat) → Ref → Data
  | _, value d => d
  | 0, box b =>
    match boxes.getD b default with
    | .list _ | .pairs _ => .list []
    | .map _ => .map []
    | .set ds => .set ds
  | depth + 1, box b =>
    match boxes.getD b default with
    | .list rs => .list (rs.map (unfold boxes depth))
    | .map es => .map (es.map fun (k, r) => (k, unfold boxes depth r))
    | .set ds => .set ds
    | .pairs ps =>
      .list (ps.map fun (a, b) => .pair (unfold boxes depth a) (unfold boxes depth b))

end Ref

/-- The value of a document with its collections. -/
structure Document where
  boxes : Array Box
  root : Ref

/-- The document with the members of its sets in the order in which they are listed. -/
def Document.inOrder (order : SetOrder) (doc : Document) : Document :=
  { doc with boxes := doc.boxes.map (·.inOrder order) }

/-- Reads the only document of a source, if there is one; at most `room` collections may enclose
each other in it. -/
def Document.ofSource (room : Nat) (source : Source) : Except Fault (Option Document) := do
  match ← Tree.ofTokens room (tokens source) with
  | none => .ok none
  | some tree =>
    let (c, root) ← ({} : Composition).compose tree
    let (m, ref) ← ({ nodes := c.nodes } : Making).make root
    let m ← m.fillFrom c.nodes.size 0
    .ok (some { boxes := m.boxes, root := ref })

end Lineage.Yaml
