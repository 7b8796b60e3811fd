import Lineage.Yaml.Glyph

/-!
# Scalar texts

The texts of plain, quoted and block scalars, as they are read from the placed characters. Lines
are folded: a single line break inside a plain or quoted scalar counts as a space, and every
further one as itself. Each reader returns the text and the rest. Readers that go round take a bound
on the number of rounds; each round takes at least one character, so the number of characters of
the document always does.
-/

namespace Lineage.Yaml

/-- The text that a folded line break stands for, given the breaks behind it. -/
def foldBreak (first : List Char) (more : List Char) : List Char :=
  if first != ['\n'] then first ++ more
  else if more.isEmpty then [' ']
  else more

/-! ## Quoted scalars -/

/-- Line breaks and the white space around them inside quotes; a document marker must not show. -/
def quotedBreaks : Nat → List Glyph → Scan (List Char × List Glyph)
  | 0, gs => stopAt gs
  | fuel + 1, gs => do
    look (markerReach gs) gs
    if atMarker gs then stopAt gs
    else
      let gs := gs.dropWhile fun g => g.char == ' ' || g.char == '\t'
      if isBreak (peek gs) then do
        let (b, gs) := takeBreak gs
        let (more, gs) ← quotedBreaks fuel gs
        .ok (b ++ more, gs)
      else .ok ([], gs)

/-- White space inside quotes: blanks stand for themselves, unless a line break follows. -/
def quotedSpaces (bound : Nat) (gs : List Glyph) : Scan (List Char × List Glyph) := do
  let (blanks, gs) := takeRun (fun c => c == ' ' || c == '\t') gs
  if peek gs == '\x00' then stopAt gs
  else if isBreak (peek gs) then
    let (b, gs) := takeBreak gs
    let (more, gs) ← quotedBreaks bound gs
    .ok (foldBreak b more, gs)
  else .ok (blanks, gs)

/-- What a one-letter escape stands for. -/
def escape? : Char → Option Char
  | '0' => some '\x00'
  | 'a' => some '\x07'
  | 'b' => some '\x08'
  | 't' | '\t' => some '\t'
  | 'n' => some '\n'
  | 'v' => some '\x0b'
  | 'f' => some '\x0c'
  | 'r' => some '\r'
  | 'e' => some '\x1b'
  | ' ' => some ' '
  | '\x22' => some '\x22'
  | '\\' => some '\\'
  | '/' => some '/'
  | 'N' => some '\u0085'
  | '_' => some '\u00a0'
  | 'L' => some '\u2028'
  | 'P' => some '\u2029'
  | _ => none

/-- The number of hexadecimal digits that an escape takes. -/
def escapeWidth? : Char → Option Nat
  | 'x' => some 2
  | 'u' => some 4
  | 'U' => some 8
  | _ => none

/-- The code point that an escape names. A surrogate stays as it is, also next to another one. -/
def escapedPoint (n : Nat) : Except Fault CodePoint :=
  if Nat.pow 2 31 ≤ n then .error .tooGreat
  else
    match CodePoint.ofNumber? n with
    | some c => .ok c
    | none => .error .noCharacter

/-- The code point of an escape of so many hexadecimal digits, which start here. -/
def escapedNumber (width : Nat) (gs : List Glyph) : Scan (CodePoint × List Glyph) :=
  let digits := chars ((gs.take width).takeWhile (isHexDigit ·.char))
  if digits.length < width then stopAt (gs.drop digits.length)
  else
    match escapedPoint (hexNumber digits) with
    | .ok c => .ok (c, gs.drop width)
    | .error fault => stopAt (gs.drop (width - 1)) fault

/-- Code points inside quotes up to white space or the closing quote; `text` holds those read so
far, the latest first. -/
def quotedRun (double : Bool) : Nat → List CodePoint → List Glyph →
    Scan (List CodePoint × List Glyph)
  | 0, _, gs => stopAt gs
  | fuel + 1, text, gs =>
    let c := peek gs
    if isBlankOrEnd c then .ok (text, gs)
    else if c == '\x27' then
      if double then quotedRun double fuel (.char c :: text) (gs.drop 1)
      else if peek gs 1 == '\x27' then quotedRun double fuel (.char c :: text) (gs.drop 2)
      else .ok (text, gs)
    else if c == '\x22' then
      if double then .ok (text, gs) else quotedRun double fuel (.char c :: text) (gs.drop 1)
    else if c == '\\' && double then
      let e := peek gs 1
      match escape? e, escapeWidth? e with
      | some x, _ => quotedRun double fuel (.char x :: text) (gs.drop 2)
      | none, some width => do
        let (x, gs) ← escapedNumber width (gs.drop 2)
        quotedRun double fuel (x :: text) gs
      | none, none =>
        if isBreak e then do
          let (_, gs) := takeBreak (gs.drop 1)
          let (breaks, gs) ← quotedBreaks fuel gs
          quotedRun double fuel (breaks.reverse.map .char ++ text) gs
        else stopAt (gs.drop 1)
    else quotedRun double fuel (.char c :: text) (gs.drop 1)

/-- Runs of code points and white space up to the closing quote. -/
def quotedRest (double : Bool) : Nat → List CodePoint → List Glyph → Scan (Text × List Glyph)
  | 0, _, gs => stopAt gs
  | fuel + 1, text, gs =>
    if peek gs == (if double then '\x22' else '\x27') then .ok (⟨text.reverse⟩, gs.drop 1)
    else do
      let (spaces, gs) ← quotedSpaces fuel gs
      let (text, gs) ← quotedRun double fuel (spaces.reverse.map .char ++ text) gs
      quotedRest double fuel text gs

/-- A quoted scalar that starts here. -/
def quotedScalar (bound : Nat) (gs : List Glyph) : Scan (Text × List Glyph) := do
  let double := peek gs == '\x22'
  let gs := gs.drop 1
  let (text, gs) ← quotedRun double bound [] gs
  quotedRest double bound text gs

/-! ## Plain scalars -/

/-- Whether a plain scalar cannot go on with this character, which hangs on the next one for a
colon. -/
def plainStops (flow : Bool) (c : Char) (next : Option Char) : Bool :=
  isBlankOrEnd c
    || (c == ':' && next.any fun n =>
        isBlankOrEnd n || (flow && [',', '[', ']', '\x7b', '\x7d'].contains n))
    || (flow && [',', '?', '[', ']', '\x7b', '\x7d'].contains c)

/-- The characters of a plain scalar up to a stop, behind those read so far. -/
def plainRun (flow : Bool) (text : List Char) : List Glyph → List Char × List Glyph
  | [] => (text, [])
  | g :: rest =>
    if plainStops flow g.char (rest.head?.map (·.char)) then (text, g :: rest)
    else plainRun flow (g.char :: text) rest

/-- The rest behind a line break in a plain scalar, if a document marker ends the scalar there. One
that looks beyond the cut of a document takes everything before it. -/
def plainEnd? (gs : List Glyph) : Option (List Glyph) :=
  if !sees (markerReach gs) gs then some []
  else if atMarker gs then some gs
  else none

/-- Line breaks and spaces behind the first break after a plain run; nothing if a document marker
comes up. -/
def plainBreaks : Nat → List Char → List Glyph → Option (List Char) × List Glyph
  | 0, breaks, gs => (some breaks, gs)
  | fuel + 1, breaks, gs =>
    if peek gs == ' ' then plainBreaks fuel breaks (gs.drop 1)
    else if isBreak (peek gs) then
      let (b, gs) := takeBreak gs
      match plainEnd? gs with
      | some gs => (none, gs)
      | none => plainBreaks fuel (breaks ++ b) gs
    else (some breaks, gs)

/-- White space behind a plain run. -/
structure PlainGap where
  /-- What it stands for if the scalar goes on. -/
  text : List Char
  /-- Whether it crosses a line. -/
  crosses : Bool
  rest : List Glyph

/-- The white space behind a plain run. -/
def plainGap (bound : Nat) (gs : List Glyph) : PlainGap :=
  let (spaces, gs) := takeRun (· == ' ') gs
  if isBreak (peek gs) then
    let (b, gs) := takeBreak gs
    match plainEnd? gs with
    | some gs => ⟨[], true, gs⟩
    | none =>
      match plainBreaks bound [] gs with
      | (none, gs) => ⟨[], true, gs⟩
      | (some more, gs) => ⟨foldBreak b more, true, gs⟩
  else ⟨spaces, false, gs⟩

/-- What is read of a plain scalar; `crosses` tells whether white space behind its last run crosses
a line. -/
structure Plain where
  text : List Char
  crosses : Bool
  rest : List Glyph

/-- Runs and gaps of a plain scalar; outside brackets a line that is not indented ends it. -/
def plainFrom (flow : Bool) (indent : Int) : Nat → List Char → PlainGap → Plain
  | 0, text, gap => ⟨text.reverse, gap.crosses, gap.rest⟩
  | fuel + 1, text, gap =>
    let (run, rest) := plainRun flow [] gap.rest
    if run.isEmpty || peek gap.rest == '#' then ⟨text.reverse, gap.crosses, gap.rest⟩
    else
      let text := run ++ gap.text.reverse ++ text
      let next := plainGap fuel rest
      if next.text.isEmpty || peek next.rest == '#' || (!flow && (column next.rest : Int) < indent)
      then ⟨text.reverse, next.crosses, next.rest⟩
      else plainFrom flow indent fuel text next

/-- A plain scalar that starts here, in a block indented by `indent`. -/
def plainScalar (bound : Nat) (flow : Bool) (indent : Int) (gs : List Glyph) : Plain :=
  plainFrom flow (indent + 1) bound [] ⟨[], false, gs⟩

/-! ## Block scalars -/

/-- What becomes of the line breaks at the end of a block scalar. -/
inductive Chomping where
  | clip
  | keep
  | strip
deriving DecidableEq, Repr

/-- The chomping indicator of a block scalar. -/
def chomping? : Char → Option Chomping
  | '+' => some .keep
  | '-' => some .strip
  | _ => none

/-- The header of a block scalar: the chomping and the indentation, in either order. -/
def blockHeader (gs : List Glyph) : Scan (Chomping × Option Nat × List Glyph) :=
  let digit? (c : Char) : Option Nat := if c.isDigit then some (c.toNat - '0'.toNat) else none
  let found : Chomping × Option Nat × List Glyph :=
    match chomping? (peek gs), digit? (peek gs) with
    | some ch, _ =>
      match digit? (peek gs 1) with
      | some n => (ch, some n, gs.drop 2)
      | none => (ch, none, gs.drop 1)
    | none, some n =>
      match chomping? (peek gs 1) with
      | some ch => (ch, some n, gs.drop 2)
      | none => (.clip, some n, gs.drop 1)
    | none, none => (.clip, none, gs)
  let (_, increment, rest) := found
  if increment == some 0 then .error (.fault .malformed)
  else if isSpaceOrEnd (peek rest) then .ok found
  else stopAt rest

/-- Blank lines before a block scalar whose indentation is not given: their breaks, and the
greatest column that their spaces reach. -/
def blockIndentation : Nat → List Char → Nat → List Glyph → List Char × Nat × List Glyph
  | 0, breaks, widest, gs => (breaks, widest, gs)
  | fuel + 1, breaks, widest, gs =>
    if peek gs == ' ' then
      let gs := gs.drop 1
      blockIndentation fuel breaks (max widest (column gs)) gs
    else if isBreak (peek gs) then
      let (b, gs) := takeBreak gs
      blockIndentation fuel (breaks ++ b) widest gs
    else (breaks, widest, gs)

/-- Skips spaces up to the indentation. -/
def skipIndent (indent : Nat) : List Glyph → List Glyph
  | [] => []
  | g :: rest => if g.char == ' ' && g.column < indent then skipIndent indent rest else g :: rest

/-- Blank lines of a block scalar. -/
def blockBreaks (indent : Nat) : Nat → List Char → List Glyph → List Char × List Glyph
  | 0, breaks, gs => (breaks, gs)
  | fuel + 1, breaks, gs =>
    let gs := skipIndent indent gs
    if isBreak (peek gs) then
      let (b, gs) := takeBreak gs
      blockBreaks indent fuel (breaks ++ b) gs
    else (breaks, gs)

/-- The lines of a block scalar: the text without its last line break, that break, the blank lines
behind it, and the rest. -/
def blockLines (folded : Bool) (indent : Nat) :
    Nat → List Char → List Char → List Char → List Glyph →
      List Char × List Char × List Char × List Glyph
  | 0, text, lineBreak, breaks, gs => (text, lineBreak, breaks, gs)
  | fuel + 1, text, lineBreak, breaks, gs =>
    if column gs == indent && peek gs != '\x00' then
      let text := breaks.reverse ++ text
      let solid := peek gs != ' ' && peek gs != '\t'
      let (line, gs) := takeRun (!isBreakOrEnd ·) gs
      let text := line.reverse ++ text
      let (lineBreak, gs) := takeBreak gs
      let (breaks, gs) := blockBreaks indent fuel [] gs
      if column gs == indent && peek gs != '\x00' then
        let joined :=
          if folded && lineBreak == ['\n'] && solid && peek gs != ' ' && peek gs != '\t' then
            if breaks.isEmpty then [' '] else []
          else lineBreak
        blockLines folded indent fuel (joined.reverse ++ text) lineBreak breaks gs
      else (text, lineBreak, breaks, gs)
    else (text, lineBreak, breaks, gs)

/-- A block scalar that starts here, in a block indented by `parent`. -/
def blockScalar (bound : Nat) (parent : Int) (gs : List Glyph) : Scan (Text × List Glyph) := do
  let folded := peek gs == '>'
  let (chomping, increment, gs) ← blockHeader (gs.drop 1)
  let gs := skipComment (skipSpaces gs)
  if !isBreakOrEnd (peek gs) then stopAt gs
  else
    let (_, gs) := takeBreak gs
    let least := max (parent + 1) 1
    let (indent, breaks, gs) : Nat × List Char × List Glyph :=
      match increment with
      | some n =>
        let indent := (least + n - 1).toNat
        (indent, blockBreaks indent bound [] gs)
      | none =>
        let (breaks, widest, gs) := blockIndentation bound [] 0 gs
        ((max least widest).toNat, breaks, gs)
    let (text, lineBreak, breaks, gs) := blockLines folded indent bound [] [] breaks gs
    let ending :=
      match chomping with
      | .strip => []
      | .clip => lineBreak
      | .keep => lineBreak ++ breaks
    .ok (.ofChars (text.reverse ++ ending), gs)

end Lineage.Yaml
