import Lineage.Yaml.Tag
import Lineage.Yaml.Tree

/-!
# Nodes

The nodes that a syntax tree describes, by number. Every node has a tag. An alias is the number of
the node with its anchor, so that a node can be part of several others and even of itself.
-/

namespace Lineage.Yaml

/-- What a node holds. -/
inductive Content where
  | scalar (text : Text)
  | sequence (items : List Nat)
  | mapping (entries : List (Nat × Nat))
deriving DecidableEq, Repr, Inhabited

/-- A node. -/
structure Node where
  tag : String
  content : Content
deriving DecidableEq, Repr, Inhabited

/-- The nodes composed so far, with the numbers of the anchored ones. -/
structure Composition where
  nodes : Array Node := #[]
  anchors : List (String × Nat) := []

namespace Composition

/-- Adds a node; its anchor must be new. -/
def add (c : Composition) (anchor : Option String) (n : Node) :
    Except Fault (Composition × Nat) :=
  let i := c.nodes.size
  match anchor with
  | none => .ok ({ c with nodes := c.nodes.push n }, i)
  | some a =>
    if (c.anchors.lookup a).isSome then .error .malformed
    else .ok ({ nodes := c.nodes.push n, anchors := (a, i) :: c.anchors }, i)

/-- Fills in what a node holds. -/
def fill (c : Composition) (i : Nat) (content : Content) : Composition :=
  { c with nodes := c.nodes.modify i fun n => { n with content } }

/-- The tag that is written, unless it is left open. -/
def written? (p : Props) : Option String :=
  p.tag.filter (· != "!")

mutual

/-- Adds the nodes of a tree and returns the number of its root. A collection is added before its
parts, so that a part can be an alias of it. -/
def compose (c : Composition) : Tree → Except Fault (Composition × Nat)
  | .alias name =>
    match c.anchors.lookup name with
    | some i => .ok (c, i)
    | none => .error .malformed
  | .scalar p text plain =>
    let implicit := plain || p.tag == some "!"
    let tag := (written? p).getD (if implicit then Tag.ofPlain text else Tag.standard "str")
    c.add p.anchor { tag, content := .scalar text }
  | .sequence p items => do
    let (c, i) ← c.add p.anchor
      { tag := (written? p).getD (Tag.standard "seq"), content := .sequence [] }
    let (c, is) ← composeItems c items
    .ok (c.fill i (.sequence is), i)
  | .mapping p entries => do
    let (c, i) ← c.add p.anchor
      { tag := (written? p).getD (Tag.standard "map"), content := .mapping [] }
    let (c, es) ← composeEntries c entries
    .ok (c.fill i (.mapping es), i)

/-- Adds the nodes of several trees. -/
def composeItems (c : Composition) : List Tree → Except Fault (Composition × List Nat)
  | [] => .ok (c, [])
  | t :: ts => do
    let (c, i) ← compose c t
    let (c, is) ← composeItems c ts
    .ok (c, i :: is)

/-- Adds the nodes of several entries. -/
def composeEntries (c : Composition) :
    List (Tree × Tree) → Except Fault (Composition × List (Nat × Nat))
  | [] => .ok (c, [])
  | (k, v) :: es => do
    let (c, i) ← compose c k
    let (c, j) ← compose c v
    let (c, is) ← composeEntries c es
    .ok (c, (i, j) :: is)

end

end Composition

end Lineage.Yaml
