import Lineage.Yaml.Token

/-!
# Syntax trees

The tree that the tokens of a document spell. A node may carry an anchor and a tag; an alias stands
for the node with its anchor. Where a node is left out, an empty plain scalar stands.

Each reader takes the tokens and returns what it reads with the rest. Where the tokens break off,
the fault that breaks them off is the outcome of whoever looks at the next token. A reader that
calls another passes on a smaller bound on the depth of calls; no chain of calls is longer than a
few times the number of tokens.
-/

namespace Lineage.Yaml

/-- The properties of a node. -/
structure Props where
  anchor : Option String := none
  /-- The tag with its handle resolved. -/
  tag : Option String := none
deriving DecidableEq, Repr

/-- A syntax tree. -/
inductive Tree where
  | alias (name : String)
  | scalar (props : Props) (text : Text) (plain : Bool)
  | sequence (props : Props) (items : List Tree)
  | mapping (props : Props) (entries : List (Tree × Tree))
deriving Inhabited

namespace Tree

/-- The scalar that stands where nothing is written. -/
def empty : Tree :=
  scalar {} {} true

/-- The tag handles of a document with what they stand for. -/
abbrev Handles := List (String × String)

/-- The handles that every document has. -/
def defaultHandles : Handles :=
  [("!", "!"), ("!!", "tag:yaml.org,2002:")]

/-- A tag with its handle resolved. -/
def resolveTag (handles : Handles) : Option String → String → Except Fault String
  | none, suffix => .ok suffix
  | some h, suffix =>
    match handles.lookup h with
    | some lead => .ok (lead ++ suffix)
    | none => .error .malformed

/-- The fault of a token that must not come next. -/
def unexpected {α : Type} : List Token → Except Fault α
  | .broken fault :: _ => .error fault
  | _ => .error .malformed

/-- The properties at the front, in either order. -/
def props (handles : Handles) : List Token → Except Fault (Props × List Token)
  | .anchor a :: .tag h s :: rest => do
    .ok ({ anchor := some a, tag := some (← resolveTag handles h s) }, rest)
  | .tag h s :: .anchor a :: rest => do
    .ok ({ anchor := some a, tag := some (← resolveTag handles h s) }, rest)
  | .anchor a :: rest => .ok ({ anchor := some a }, rest)
  | .tag _ _ :: .broken fault :: _ => .error fault
  | .tag h s :: rest => do .ok ({ tag := some (← resolveTag handles h s) }, rest)
  | ts => .ok ({}, ts)

/-- The number of collections that may enclose each other inside one of `room` such collections. -/
def inside : (room : Nat) → Except Fault Nat
  | 0 => .error .tooDeep
  | room + 1 => .ok room

/-- Whether no item is written between this token and the next one of a block sequence. -/
def endsEntry : List Token → Bool
  | .blockEntry :: _ | .blockEnd :: _ => true
  | _ => false

/-- Whether no item is written before this token in a sequence that is not indented. -/
def endsIndentless : List Token → Bool
  | .blockEntry :: _ | .key :: _ | .value :: _ | .blockEnd :: _ => true
  | _ => false

/-- Whether no key or value is written before this token in a block mapping. -/
def endsPart : List Token → Bool
  | .key :: _ | .value :: _ | .blockEnd :: _ => true
  | _ => false

/-- Whether no value is written before this token in brackets closed by `close`. -/
def endsFlowValue (close : Token) : List Token → Bool
  | .flowEntry :: _ => true
  | t :: _ => t == close
  | [] => false

/-- Whether no key is written before this token in brackets closed by `close`. -/
def endsFlowKey (close : Token) : List Token → Bool
  | .value :: _ => true
  | ts => endsFlowValue close ts

mutual

/-- A node; `block` tells whether a block collection may stand here, and `indentless` whether a
block sequence may that is not indented. At most `room` collections may enclose each other in it. -/
def node (handles : Handles) (room : Nat) (block indentless : Bool) :
    Nat → List Token → Except Fault (Tree × List Token)
  | 0, _ => .error .malformed
  | _ + 1, .alias name :: rest => .ok (.alias name, rest)
  | fuel + 1, ts => do
    let (p, ts) ← props handles ts
    let nothing : Except Fault (Tree × List Token) :=
      if p == {} then unexpected ts else .ok (.scalar p {} true, ts)
    match ts with
    | .broken fault :: _ => .error fault
    | .blockEntry :: _ =>
      if indentless then do
        let room ← inside room
        let (items, ts) ← indentlessItems handles room fuel [] ts
        .ok (.sequence p items, ts)
      else nothing
    | .scalar text plain :: rest => .ok (.scalar p text plain, rest)
    | .flowSequenceStart :: rest => do
      let room ← inside room
      let (items, ts) ← flowItems handles room true fuel [] rest
      .ok (.sequence p items, ts)
    | .flowMappingStart :: rest => do
      let room ← inside room
      let (entries, ts) ← flowEntries handles room true fuel [] rest
      .ok (.mapping p entries, ts)
    | .blockSequenceStart :: rest =>
      if block then do
        let room ← inside room
        let (items, ts) ← blockItems handles room fuel [] rest
        .ok (.sequence p items, ts)
      else nothing
    | .blockMappingStart :: rest =>
      if block then do
        let room ← inside room
        let (entries, ts) ← blockEntries handles room fuel [] rest
        .ok (.mapping p entries, ts)
      else nothing
    | _ => nothing
termination_by structural fuel => fuel

/-- The items of a block sequence, behind those read so far, which are kept the latest first. -/
def blockItems (handles : Handles) (room : Nat) :
    Nat → List Tree → List Token → Except Fault (List Tree × List Token)
  | 0, _, _ => .error .malformed
  | fuel + 1, items, .blockEntry :: rest =>
    if endsEntry rest then blockItems handles room fuel (empty :: items) rest
    else do
      let (item, ts) ← node handles room true false fuel rest
      blockItems handles room fuel (item :: items) ts
  | _ + 1, items, .blockEnd :: rest => .ok (items.reverse, rest)
  | _ + 1, _, ts => unexpected ts
termination_by structural fuel => fuel

/-- The items of a block sequence that is not indented. -/
def indentlessItems (handles : Handles) (room : Nat) :
    Nat → List Tree → List Token → Except Fault (List Tree × List Token)
  | 0, _, _ => .error .malformed
  | fuel + 1, items, .blockEntry :: rest =>
    if endsIndentless rest then indentlessItems handles room fuel (empty :: items) rest
    else do
      let (item, ts) ← node handles room true false fuel rest
      indentlessItems handles room fuel (item :: items) ts
  | _ + 1, items, ts => .ok (items.reverse, ts)
termination_by structural fuel => fuel

/-- The entries of a block mapping. -/
def blockEntries (handles : Handles) (room : Nat) :
    Nat → List (Tree × Tree) → List Token → Except Fault (List (Tree × Tree) × List Token)
  | 0, _, _ => .error .malformed
  | fuel + 1, entries, .key :: rest => do
    let (k, ts) ←
      if endsPart rest then .ok (empty, rest) else node handles room true true fuel rest
    let (v, ts) ←
      match ts with
      | .value :: rest =>
        if endsPart rest then .ok (empty, rest) else node handles room true true fuel rest
      | ts => .ok (empty, ts)
    blockEntries handles room fuel ((k, v) :: entries) ts
  | _ + 1, entries, .blockEnd :: rest => .ok (entries.reverse, rest)
  | _ + 1, _, ts => unexpected ts
termination_by structural fuel => fuel

/-- The value in brackets that may follow a key. -/
def flowValue (handles : Handles) (room : Nat) (close : Token) :
    Nat → List Token → Except Fault (Tree × List Token)
  | 0, _ => .error .malformed
  | fuel + 1, .value :: rest =>
    if endsFlowValue close rest then .ok (empty, rest) else node handles room false false fuel rest
  | _ + 1, ts => .ok (empty, ts)
termination_by structural fuel => fuel

/-- The items between square brackets; an item that is a key with a value is a mapping of one
entry. -/
def flowItems (handles : Handles) (room : Nat) (first : Bool) :
    Nat → List Tree → List Token → Except Fault (List Tree × List Token)
  | 0, _, _ => .error .malformed
  | _ + 1, items, .flowSequenceEnd :: rest => .ok (items.reverse, rest)
  | fuel + 1, items, ts => do
    let ts ←
      match first, ts with
      | true, ts => .ok ts
      | false, .flowEntry :: rest => .ok rest
      | false, ts => unexpected ts
    match ts with
    | .flowSequenceEnd :: rest => .ok (items.reverse, rest)
    | .key :: rest => do
      let inner ← inside room
      let (k, ts) ←
        if endsFlowKey .flowSequenceEnd rest then .ok (empty, rest)
        else node handles inner false false fuel rest
      let (v, ts) ← flowValue handles inner .flowSequenceEnd fuel ts
      flowItems handles room false fuel (.mapping {} [(k, v)] :: items) ts
    | ts => do
      let (item, ts) ← node handles room false false fuel ts
      flowItems handles room false fuel (item :: items) ts
termination_by structural fuel => fuel

/-- The entries between curly brackets; a lone node is a key without a value. -/
def flowEntries (handles : Handles) (room : Nat) (first : Bool) :
    Nat → List (Tree × Tree) → List Token → Except Fault (List (Tree × Tree) × List Token)
  | 0, _, _ => .error .malformed
  | _ + 1, entries, .flowMappingEnd :: rest => .ok (entries.reverse, rest)
  | fuel + 1, entries, ts => do
    let ts ←
      match first, ts with
      | true, ts => .ok ts
      | false, .flowEntry :: rest => .ok rest
      | false, ts => unexpected ts
    match ts with
    | .flowMappingEnd :: rest => .ok (entries.reverse, rest)
    | .key :: rest => do
      let (k, ts) ←
        if endsFlowKey .flowMappingEnd rest then .ok (empty, rest)
        else node handles room false false fuel rest
      let (v, ts) ← flowValue handles room .flowMappingEnd fuel ts
      flowEntries handles room false fuel ((k, v) :: entries) ts
    | ts => do
      let (k, ts) ← node handles room false false fuel ts
      flowEntries handles room false fuel ((k, empty) :: entries) ts
termination_by structural fuel => fuel

end

/-! ## Documents -/

/-- The directives at the front of a document and the handles that they define. -/
def directives (versioned : Bool) (handles : Handles) :
    List Token → Except Fault (Handles × List Token)
  | .directive (.version major _) :: rest =>
    if versioned || major != 1 then .error .malformed else directives true handles rest
  | .directive (.tag handle lead) :: rest =>
    if (handles.lookup handle).isSome then .error .malformed
    else directives versioned (handles ++ [(handle, lead)]) rest
  | .directive (.other _) :: rest => directives versioned handles rest
  | ts => .ok (handles, ts)

/-- Whether nothing is written between a document's start marker and this token. -/
def endsDocument : List Token → Bool
  | .directive _ :: _ | .documentStart :: _ | .documentEnd :: _ | .streamEnd :: _ => true
  | _ => false

/-- Skips end markers. -/
def skipEnds : List Token → List Token
  | .documentEnd :: rest => skipEnds rest
  | ts => ts

/-- The end of the stream behind its only document. Another document is a fault, which shows at the
start marker behind its directives. -/
def streamEnds (ts : List Token) : Except Fault Unit :=
  match skipEnds ts with
  | .streamEnd :: _ => .ok ()
  | ts => do
    let (_, ts) ← directives false [] ts
    unexpected ts

/-! ## Anchors -/

/-- Breaks the tokens off, unless they break off here anyway. -/
def breakOff : List Token → List Token
  | .broken fault :: _ => [.broken fault]
  | _ => [.broken .malformed]

/-- Breaks the tokens off at an alias of an anchor that has not been met, and behind the properties
of a node whose anchor has been met before; `seen` are the anchors met. -/
def checkAnchors (seen : List String) : List Token → List Token
  | [] => []
  | .alias name :: rest =>
    if seen.contains name then .alias name :: checkAnchors seen rest else [.broken .malformed]
  | .anchor a :: .tag h s :: rest =>
    .anchor a :: .tag h s ::
      if seen.contains a then breakOff rest else checkAnchors (a :: seen) rest
  | .anchor a :: rest =>
    .anchor a :: if seen.contains a then breakOff rest else checkAnchors (a :: seen) rest
  | t :: rest => t :: checkAnchors seen rest

/-! ## The only document -/

/-- The tree of the only document of a stream, if there is one. A document without a start marker
has no directives. At most `room` collections may enclose each other. -/
def ofTokens (room : Nat) (ts : List Token) : Except Fault (Option Tree) := do
  let bound := 4 * ts.length + 16
  match checkAnchors [] ts with
  | [.streamEnd] => .ok none
  | ts =>
    let (root, rest) ←
      match ts with
      | .directive _ :: _ | .documentStart :: _ => do
        let (own, ts) ← directives false [] ts
        match ts with
        | .documentStart :: rest =>
          if endsDocument rest then .ok (empty, rest)
          else node (own ++ defaultHandles) room true false bound rest
        | ts => unexpected ts
      | ts => node defaultHandles room true false bound ts
    streamEnds rest
    .ok (some root)

end Tree

end Lineage.Yaml
