import Lineage.Decimal.Read
import Lineage.Yaml.Scalar

/-!
# Tokens

The tokens of a document. Indentation is made explicit: a block opens with a start token, and ends
with an end token where a line is indented less. A key without a question mark is only recognised
when its colon is met; until then the place where it may have started is remembered, and the key
token is put in there afterwards.

Tokens are handed on one by one, each as soon as no key token can be put in before it any more. So
where the reading of tokens ends early, the tokens handed on until then are still good, and their
reader may find a fault of its own first.
-/

namespace Lineage.Yaml

/-- A directive of a document. -/
inductive Directive where
  | version (major minor : Nat)
  | tag (handle lead : String)
  | other (name : String)
deriving DecidableEq, Repr

/-- A token. -/
inductive Token where
  | directive (d : Directive)
  | documentStart
  | documentEnd
  | blockSequenceStart
  | blockMappingStart
  | blockEnd
  | flowSequenceStart
  | flowSequenceEnd
  | flowMappingStart
  | flowMappingEnd
  | blockEntry
  | flowEntry
  | key
  | value
  | alias (name : String)
  | anchor (name : String)
  | tag (handle : Option String) (suffix : String)
  | scalar (text : Text) (plain : Bool)
  | streamEnd
  /-- Stands for all further tokens where the reading ends early. -/
  | broken (fault : Fault)
deriving DecidableEq, Repr

/-! ## Directives, anchors and tags -/

/-- A run of word characters that is not empty. -/
def wordRun (gs : List Glyph) : Scan (String × List Glyph) :=
  let (w, gs) := takeRun isWord gs
  if w.isEmpty then stopAt gs else .ok (String.ofList w, gs)

/-- A decimal number. -/
def decimalRun (gs : List Glyph) : Scan (Nat × List Glyph) :=
  let (w, gs) := takeRun Char.isDigit gs
  if w.isEmpty then stopAt gs
  else if Decimal.digitLimit < w.length then stopAt gs .number
  else .ok (w.foldl (fun n c => 10 * n + (c.toNat - '0'.toNat)) 0, gs)

/-- Requires a space, a line break or the end. -/
def endOfPart (gs : List Glyph) : Scan Unit :=
  if isSpaceOrEnd (peek gs) then .ok () else stopAt gs

/-- Whether the character may stand in a tag. -/
def isTagChar (c : Char) : Bool :=
  isWord c || [';', '/', '?', ':', '@', '&', '=', '+', '$', ',', '.', '!', '~', '*', '\x27', '(',
    ')', '[', ']'].contains c

/-- The bytes of a run of escapes in a tag. -/
def tagBytes : Nat → List UInt8 → List Glyph → Scan (List UInt8 × List Glyph)
  | 0, bytes, gs => .ok (bytes, gs)
  | fuel + 1, bytes, gs =>
    if peek gs == '%' then
      let digits := [peek gs 1, peek gs 2]
      if digits.all isHexDigit then
        tagBytes fuel (bytes ++ [(hexNumber digits).toUInt8]) (gs.drop 3)
      else stopAt (gs.drop (if isHexDigit (peek gs 1) then 2 else 1))
    else .ok (bytes, gs)

/-- The characters of a tag, behind those read so far; escapes spell UTF-8. -/
def tagText : Nat → String → List Glyph → Scan (String × List Glyph)
  | 0, text, gs => .ok (text, gs)
  | fuel + 1, text, gs =>
    if peek gs == '%' then do
      let (bytes, gs) ← tagBytes fuel [] gs
      match String.fromUTF8? ⟨bytes.toArray⟩ with
      | some s => tagText fuel (text ++ s) gs
      | none => stopAt gs
    else if isTagChar (peek gs) then tagText fuel (text.push (peek gs)) (gs.drop 1)
    else .ok (text, gs)

/-- The characters of a tag, at least one. -/
def tagRun (bound : Nat) (gs : List Glyph) : Scan (String × List Glyph) :=
  if peek gs == '%' || isTagChar (peek gs) then tagText bound "" gs else stopAt gs

/-- A handle: an exclamation mark, perhaps followed by a word and another one. -/
def tagHandle (gs : List Glyph) : Scan (String × List Glyph) :=
  if peek gs != '!' then stopAt gs
  else if peek gs 1 == ' ' then .ok ("!", gs.drop 1)
  else
    let (w, rest) := takeRun isWord (gs.drop 1)
    if peek rest == '!' then .ok (String.ofList ('!' :: w ++ ['!']), rest.drop 1)
    else stopAt rest

/-- A tag that starts here. -/
def scanTag (bound : Nat) (gs : List Glyph) : Scan (Token × List Glyph) := do
  let c := peek gs 1
  let (handle, suffix, gs) ←
    if c == '<' then do
      let (suffix, gs) ← tagRun bound (gs.drop 2)
      if peek gs == '>' then .ok (none, suffix, gs.drop 1) else stopAt gs
    else if isBlankOrEnd c then .ok ((none : Option String), "!", gs.drop 1)
    else
      let (part, behind) := takeRun (!isSpaceOrEnd ·) (gs.drop 1)
      if part.contains '!' then do
        let (handle, gs) ← tagHandle gs
        let (suffix, gs) ← tagRun bound gs
        .ok (some handle, suffix, gs)
      else do
        look 0 behind
        let (suffix, gs) ← tagRun bound (gs.drop 1)
        .ok (some "!", suffix, gs)
  endOfPart gs
  .ok (.tag handle suffix, gs)

/-- The name of an anchor or an alias, behind its indicator. -/
def scanAnchor (gs : List Glyph) : Scan (String × List Glyph) := do
  let (name, gs) ← wordRun (gs.drop 1)
  let c := peek gs
  if isBlankOrEnd c || ['?', ':', ',', ']', '\x7d', '%', '@', '\x60'].contains c then
    .ok (name, gs)
  else stopAt gs

/-- A directive that starts here, with the rest of its line. -/
def scanDirective (bound : Nat) (gs : List Glyph) : Scan (Token × List Glyph) := do
  let (name, gs) ← wordRun (gs.drop 1)
  endOfPart gs
  let (d, gs) ←
    if name == "YAML" then do
      let (major, gs) ← decimalRun (skipSpaces gs)
      if peek gs != '.' then stopAt gs
      else do
        let (minor, gs) ← decimalRun (gs.drop 1)
        endOfPart gs
        .ok (Directive.version major minor, gs)
    else if name == "TAG" then do
      let (handle, gs) ← tagHandle (skipSpaces gs)
      if peek gs != ' ' then stopAt gs
      else do
        let (lead, gs) ← tagRun bound (skipSpaces gs)
        endOfPart gs
        .ok (Directive.tag handle lead, gs)
    else .ok (Directive.other name, gs.dropWhile (!isBreakOrEnd ·.char))
  let gs := skipComment (skipSpaces gs)
  if isBreakOrEnd (peek gs) then .ok (.directive d, (takeBreak gs).2) else stopAt gs

/-! ## The scanner -/

/-- A place where a key without a question mark may have started. -/
structure SimpleKey where
  /-- The number of tokens before it. -/
  token : Nat
  /-- Whether a colon has to follow. -/
  required : Bool
  index : Nat
  line : Nat
  column : Nat
deriving DecidableEq, Repr

/-- The state of the scanner. -/
structure Scanner where
  /-- The number of placed characters of the document. -/
  bound : Nat
  rest : List Glyph
  tokens : Array Token := #[]
  /-- The column of the innermost block; the stream itself has the column before the first. -/
  indent : Int := -1
  /-- The columns of the blocks around it, the innermost first. -/
  outer : List Int := []
  /-- Whether a key without a question mark may start here. -/
  allowKey : Bool := true
  /-- The remembered key of the innermost bracket, or of the block outside all brackets. -/
  pending : Option SimpleKey := none
  /-- The remembered keys around the brackets that are open, the innermost first. -/
  around : List (Option SimpleKey) := []

namespace Scanner

/-- Whether some bracket is open. -/
def inFlow (s : Scanner) : Bool :=
  !s.around.isEmpty

/-- The column of the next character. -/
def column (s : Scanner) : Int :=
  Yaml.column s.rest

/-- Adds a token at the end. -/
def emit (s : Scanner) (t : Token) : Scanner :=
  { s with tokens := s.tokens.push t }

/-- Takes some characters and adds a token at the end. -/
def take (s : Scanner) (n : Nat) (t : Token) : Scanner :=
  { s with rest := s.rest.drop n, tokens := s.tokens.push t }

/-- Skips spaces, comments and line breaks; outside brackets a key may start on a new line. -/
def skipToToken (flow : Bool) : Nat → Bool → List Glyph → Bool × List Glyph
  | 0, allow, gs => (allow, gs)
  | fuel + 1, allow, gs =>
    let gs := skipComment (skipSpaces gs)
    if isBreak (peek gs) then skipToToken flow fuel (allow || !flow) (takeBreak gs).2
    else (allow, gs)

/-- Forgets a remembered key that is too far back or on an earlier line; a required one must not
be forgotten. -/
def refresh (g : Glyph) : Option SimpleKey → Scan (Option SimpleKey)
  | none => .ok none
  | some k =>
    if k.line != g.line || 1024 < g.index - k.index then
      if k.required then .error (.fault .malformed) else .ok none
    else .ok (some k)

/-- Forgets the remembered key at this level. -/
def forget (s : Scanner) : Scan Scanner :=
  match s.pending with
  | some k => if k.required then stopAt s.rest else .ok { s with pending := none }
  | none => .ok s

/-- Remembers that a key may start here. -/
def remember (s : Scanner) : Scan Scanner :=
  if s.allowKey then do
    let s ← s.forget
    let g := s.rest.head?.getD default
    .ok { s with pending := some {
      token := s.tokens.size
      required := !s.inFlow && s.indent == s.column
      index := g.index, line := g.line, column := g.column } }
  else .ok s

/-- Closes the blocks that are indented more than the column; `fuel` bounds their number. -/
def unwindWithin : Nat → Int → Scanner → Scanner
  | 0, _, s => s
  | fuel + 1, column, s =>
    if column < s.indent then
      match s.outer with
      | o :: os => unwindWithin fuel column { s.emit .blockEnd with indent := o, outer := os }
      | [] => s
    else s

/-- Closes the blocks that are indented more than the column, outside brackets. -/
def unwind (s : Scanner) (column : Int) : Scanner :=
  if s.inFlow then s else unwindWithin s.outer.length column s

/-- Opens a block at the column if it is indented more than the innermost one; its start token
goes to the given place. -/
def openBlock (s : Scanner) (column : Int) (place : Nat) (t : Token) : Scanner :=
  if s.indent < column then
    { s with
      outer := s.indent :: s.outer, indent := column
      tokens := s.tokens.insertIdxIfInBounds place t }
  else s

/-- The end of the stream. -/
def streamEnd (s : Scanner) : Scan Scanner := do
  let s ← (s.unwind (-1)).forget
  .ok { s.emit .streamEnd with allowKey := false, pending := none }

/-- A directive. -/
def directive (s : Scanner) : Scan Scanner := do
  let s ← (s.unwind (-1)).forget
  let (t, rest) ← scanDirective s.bound s.rest
  .ok { s.emit t with allowKey := false, rest }

/-- A document marker. -/
def marker (s : Scanner) (t : Token) : Scan Scanner := do
  let s ← (s.unwind (-1)).forget
  .ok { s.take 3 t with allowKey := false }

/-- An opening bracket. -/
def openFlow (s : Scanner) (t : Token) : Scan Scanner := do
  let s ← s.remember
  let around := s.pending :: s.around
  .ok { s.take 1 t with allowKey := true, pending := none, around }

/-- A closing bracket; one has to be open. -/
def closeFlow (s : Scanner) (t : Token) : Scan Scanner := do
  let s ← s.forget
  match s.around with
  | k :: ks => .ok { s.take 1 t with allowKey := false, pending := k, around := ks }
  | [] => stopAt (s.rest.drop 1)

/-- A comma between the items in brackets. -/
def flowEntry (s : Scanner) : Scan Scanner := do
  let s ← s.forget
  .ok { s.take 1 .flowEntry with allowKey := true }

/-- Outside brackets, an indicator is allowed only where a key may start, and opens a block. -/
def openBlockHere (s : Scanner) (t : Token) : Scan Scanner :=
  if s.inFlow then .ok s
  else if s.allowKey then .ok (s.openBlock s.column s.tokens.size t)
  else stopAt s.rest

/-- The hyphen before an item. -/
def blockEntry (s : Scanner) : Scan Scanner := do
  let s ← s.openBlockHere .blockSequenceStart
  let s ← s.forget
  .ok { s.take 1 .blockEntry with allowKey := true }

/-- The question mark before a key. -/
def keyIndicator (s : Scanner) : Scan Scanner := do
  let s ← s.openBlockHere .blockMappingStart
  let s ← s.forget
  .ok { s.take 1 .key with allowKey := !s.inFlow }

/-- The colon before a value. If a key is remembered, its token is put in where it started. -/
def valueIndicator (s : Scanner) : Scan Scanner :=
  match s.pending with
  | some k =>
    let s := { s with
      pending := none, allowKey := false
      tokens := s.tokens.insertIdxIfInBounds k.token .key }
    let s := if s.inFlow then s else s.openBlock k.column k.token .blockMappingStart
    .ok (s.take 1 .value)
  | none => do
    let s ← s.openBlockHere .blockMappingStart
    .ok { s.take 1 .value with allowKey := !s.inFlow }

/-- A scalar, an anchor, an alias or a tag: a key may start with it. -/
def content (s : Scanner) (read : List Glyph → Scan (Token × List Glyph)) :
    Scan Scanner := do
  let s ← s.remember
  let (t, rest) ← read s.rest
  .ok { s.emit t with allowKey := false, rest }

/-- A plain scalar; a key may start behind it if it reaches the next line. -/
def plain (s : Scanner) : Scan Scanner := do
  let s ← s.remember
  let p := plainScalar s.bound s.inFlow s.indent s.rest
  .ok { s.emit (.scalar (.ofChars p.text) true) with allowKey := p.crosses, rest := p.rest }

/-- A block scalar; no key can start with it. -/
def block (s : Scanner) : Scan Scanner := do
  let s ← s.forget
  let (text, rest) ← blockScalar s.bound s.indent s.rest
  .ok { s.emit (.scalar text false) with allowKey := true, rest }

/-- The characters that have a meaning of their own at the start of a token. -/
def indicators : List Char :=
  ['-', '?', ':', ',', '[', ']', '\x7b', '\x7d', '#', '&', '*', '!', '|', '>', '\x27', '\x22', '%',
    '@', '\x60']

/-- Whether a plain scalar may start with these characters. -/
def startsPlain (flow : Bool) (c next : Char) : Bool :=
  (!isBlankOrEnd c && !indicators.contains c)
    || (!isBlankOrEnd next && (c == '-' || (!flow && (c == '?' || c == ':'))))

/-- How far one looks ahead to tell which token starts here. Some signs only start one where a blank
follows, and a line may start with a document marker. -/
def lookahead (s : Scanner) : Nat :=
  let c := peek s.rest
  let atStart := s.column == 0
  if atStart && (c == '-' || c == '.') then markerReach s.rest
  else if c == '-' || c == '@' || c == '\x60' || c == '\t' then 1
  else if c == '%' && !atStart then 1
  else if (c == '?' || c == ':') && !s.inFlow then 1
  else if (c == '|' || c == '>') && s.inFlow then 1
  else 0

/-- Reads the next token behind white space. -/
def next (s : Scanner) : Scan Scanner :=
  let c := peek s.rest
  let after := peek s.rest 1
  let atStart := s.column == 0
  let breaksOff := isBlankOrEnd after
  if c == '\x00' then s.streamEnd
  else if c == '%' && atStart then s.directive
  else if c == '-' && atStart && atMarker s.rest then s.marker .documentStart
  else if c == '.' && atStart && atMarker s.rest then s.marker .documentEnd
  else if c == '[' then s.openFlow .flowSequenceStart
  else if c == '\x7b' then s.openFlow .flowMappingStart
  else if c == ']' then s.closeFlow .flowSequenceEnd
  else if c == '\x7d' then s.closeFlow .flowMappingEnd
  else if c == ',' then s.flowEntry
  else if c == '-' && breaksOff then s.blockEntry
  else if c == '?' && (s.inFlow || breaksOff) then s.keyIndicator
  else if c == ':' && (s.inFlow || breaksOff) then s.valueIndicator
  else if c == '*' then s.content fun gs => (scanAnchor gs).map fun (n, gs) => (.alias n, gs)
  else if c == '&' then s.content fun gs => (scanAnchor gs).map fun (n, gs) => (.anchor n, gs)
  else if c == '!' then s.content (scanTag s.bound)
  else if (c == '|' || c == '>') && !s.inFlow then s.block
  else if c == '\x27' || c == '\x22' then
    s.content fun gs =>
      (quotedScalar s.bound gs).map fun (text, gs) => (.scalar text false, gs)
  else if startsPlain s.inFlow c after then s.plain
  else stopAt s.rest

/-- Skips to the next token and reads it. -/
def step (s : Scanner) : Scan Scanner := do
  let (allowKey, rest) := skipToToken s.inFlow s.bound s.allowKey s.rest
  look 0 rest
  let s := { s with allowKey, rest }
  let g := rest.head?.getD default
  let pending ← refresh g s.pending
  let around ← s.around.mapM (refresh g)
  let s := { s with pending, around }
  look s.lookahead rest
  (s.unwind s.column).next

/-! ## Running -/

/-- The number of tokens that can be handed on: those before the first one that may still turn out
to start a key. -/
def settled (s : Scanner) : Scan Nat := do
  let g := s.rest.head?.getD default
  let keys ← (s.pending :: s.around).mapM (refresh g)
  .ok ((keys.filterMap id).foldl (fun n k => min n k.token) s.tokens.size)

/-- Reads the next token, looks at the character behind it, and counts the tokens that can be handed
on then. -/
def advance (s : Scanner) : Scan (Scanner × Nat) := do
  let t ← s.step
  look 0 t.rest
  .ok (t, ← t.settled)

/-- Reads tokens up to the end of the stream, behind those handed on so far; `atCut` is what is
wrong where the document is cut off. Each token takes at least one character. -/
def run (atCut : Fault) : Nat → Scanner → (handed : Array Token) → List Token
  | 0, _, _ => [.broken .malformed]
  | fuel + 1, s, handed =>
    match s.advance with
    | .error stop => handed.toList ++ [.broken (stop.faultOr atCut)]
    | .ok (t, settled) =>
      if t.tokens.back? == some .streamEnd then t.tokens.toList
      else run atCut fuel t (handed ++ t.tokens.extract handed.size settled)

end Scanner

/-- The tokens of a document. A byte order mark at its very front is skipped. -/
def tokens (source : Source) : List Token :=
  let gs := source.glyphs
  let bound := gs.length + 1
  let rest := if peek gs == '\uFEFF' then gs.drop 1 else gs
  Scanner.run (source.fault.getD .malformed) bound { bound, rest } #[]

end Lineage.Yaml
