import Lineage.Text.Basic

/-!
# Placed characters

YAML gives meaning to columns and lines. The characters of a document are therefore placed first:
each carries its index, its line and its column, and a null character marks the end. What is read
later is always a rest of this list.

A document may be readable only up to some character. It is cut off there and has no end mark, so
that no rest of it is empty unless the cut has been reached. Whoever looks at the cut meets the
fault that is there; what lies before it is read as ever.
-/

namespace Lineage.Yaml

/-- Why a document cannot be read. Only the value faults are told apart: everything that breaks the
syntax is one cause. -/
inductive Fault where
  /-- The text is no document of the format, or asks for something that the format lacks. -/
  | malformed
  /-- The bytes of a document spell no characters. -/
  | unreadable
  /-- An escape names a number that is no code point. -/
  | noCharacter
  /-- A number is too great to be computed with. -/
  | tooGreat
  /-- A truth value is spelled by an unknown word. -/
  | truthValue (word : Text)
  /-- A number is misspelled or too long. -/
  | number
  /-- A number has no character at all. -/
  | emptyNumber
  /-- A date or a time is out of range. -/
  | outOfRange
  /-- A text is no date and no time. -/
  | notInstant
  /-- A mapping stands where a date or a time is spelled. -/
  | instantFromMapping
  /-- Too many collections enclose each other. -/
  | tooDeep
  /-- A mapping that stands for a text leads back to itself. -/
  | endless
deriving DecidableEq, Repr

/-- The characters of a document, up to the first one that cannot be read, and what is wrong with
that one. -/
structure Source where
  chars : List Char
  fault : Option Fault := none
deriving Repr, Inhabited

/-- A character with its place in the document. -/
structure Glyph where
  char : Char
  index : Nat
  line : Nat
  column : Nat
deriving DecidableEq, Repr, Inhabited

/-- The characters that end a line. -/
def isBreak (c : Char) : Bool :=
  c == '\n' || c == '\r' || c == '\u0085' || c == '\u2028' || c == '\u2029'

/-- A line break or the end of the document. -/
def isBreakOrEnd (c : Char) : Bool :=
  isBreak c || c == '\x00'

/-- A space, a line break or the end of the document. -/
def isSpaceOrEnd (c : Char) : Bool :=
  isBreakOrEnd c || c == ' '

/-- A space, a tab, a line break or the end of the document. -/
def isBlankOrEnd (c : Char) : Bool :=
  isSpaceOrEnd c || c == '\t'

/-- The characters that a document may hold. -/
def isAllowed (c : Char) : Bool :=
  let n := c.toNat
  n == 0x09 || n == 0x0A || n == 0x0D || (0x20 ≤ n && n ≤ 0x7E) || n == 0x85
    || (0xA0 ≤ n && n ≤ 0xD7FF) || (0xE000 ≤ n && n ≤ 0xFFFD) || 0x10000 ≤ n

/-- Places the characters behind those already placed, which are kept the latest first. A carriage
return before a line feed does not end the line yet, and a byte order mark takes no column. -/
def placeFrom (placed : List Glyph) (index line column : Nat) : List Char → List Glyph
  | [] => placed.reverse
  | c :: rest =>
    let g : Glyph := ⟨c, index, line, column⟩
    let width := if c == '\uFEFF' then 0 else 1
    let ends := isBreak c && !(c == '\r' && rest.head? == some '\n')
    if ends then placeFrom (g :: placed) (index + 1) (line + 1) 0 rest
    else placeFrom (g :: placed) (index + 1) line (column + width) rest

/-- A text as a document. It is looked through as a whole first, so that a character which it may
not hold makes it unreadable from the start. -/
def Source.ofString (text : String) : Source :=
  let cs := text.toList
  if cs.all isAllowed then { chars := cs } else { chars := [], fault := some .malformed }

/-- The placed characters of a document, and the end mark unless it is cut off. -/
def Source.glyphs (s : Source) : List Glyph :=
  placeFrom [] 0 0 0 (if s.fault.isNone then s.chars ++ ['\x00'] else s.chars)

/-! ## Looking ahead -/

/-- The character at the given distance; beyond the end there are null characters. -/
def peek (gs : List Glyph) (n : Nat := 0) : Char :=
  match gs[n]? with
  | some g => g.char
  | none => '\x00'

/-- The characters of placed characters. -/
def chars (gs : List Glyph) : List Char :=
  gs.map (·.char)

/-- The column of the next character. -/
def column (gs : List Glyph) : Nat :=
  match gs with
  | g :: _ => g.column
  | [] => 0

/-- Whether the characters up to the given distance can be looked at: they are there, or the end of
the document comes before. -/
def sees (n : Nat) (gs : List Glyph) : Bool :=
  let near := gs.take (n + 1)
  n < near.length || near.any (·.char == '\x00')

/-! ## Stopping -/

/-- Why the reading of a part of a document stops. -/
inductive Stop where
  /-- Something is wrong with what has been read. -/
  | fault (f : Fault)
  /-- The document is cut off before a character that was looked at. -/
  | cutOff
deriving DecidableEq, Repr

/-- What is wrong where the reading stops, given what is wrong at the cut. -/
def Stop.faultOr (stop : Stop) (atCut : Fault) : Fault :=
  match stop with
  | .fault f => f
  | .cutOff => atCut

/-- The outcome of reading a part of a document. -/
abbrev Scan (α : Type) := Except Stop α

/-- Stops for a fault, for which the next character was looked at. -/
def stopAt {α : Type} (gs : List Glyph) (fault : Fault := .malformed) : Scan α :=
  .error (if gs.isEmpty then .cutOff else .fault fault)

/-- Looks at the characters up to the given distance. -/
def look (n : Nat) (gs : List Glyph) : Scan Unit :=
  if sees n gs then .ok () else .error .cutOff

/-! ## Cutting off -/

/-- Cuts off the longest run of characters of a class. -/
def takeRun (p : Char → Bool) (gs : List Glyph) : List Char × List Glyph :=
  (chars (gs.takeWhile (p ·.char)), gs.dropWhile (p ·.char))

/-- Skips a run of spaces. -/
def skipSpaces (gs : List Glyph) : List Glyph :=
  gs.dropWhile (·.char == ' ')

/-- Skips a comment, if one starts here, up to the end of its line. -/
def skipComment (gs : List Glyph) : List Glyph :=
  if peek gs == '#' then gs.dropWhile (!isBreakOrEnd ·.char) else gs

/-- Takes one line break: what it stands for, and the rest. The two separators of Unicode stand
for themselves and every other break for a line feed; there may be no break here. -/
def takeBreak (gs : List Glyph) : List Char × List Glyph :=
  let c := peek gs
  if c == '\r' && peek gs 1 == '\n' then (['\n'], gs.drop 2)
  else if c == '\n' || c == '\r' || c == '\u0085' then (['\n'], gs.drop 1)
  else if c == '\u2028' || c == '\u2029' then ([c], gs.drop 1)
  else ([], gs)

/-- Whether the three characters of a document marker, `---` or `...`, start here. -/
def atMarkerSigns (gs : List Glyph) : Bool :=
  let three := chars (gs.take 3)
  three == ['-', '-', '-'] || three == ['.', '.', '.']

/-- Whether a document marker starts here: its characters, and a blank or the end behind them. -/
def atMarker (gs : List Glyph) : Bool :=
  atMarkerSigns gs && isBlankOrEnd (peek gs 3)

/-- How far one looks ahead to tell whether a document marker starts here. -/
def markerReach (gs : List Glyph) : Nat :=
  if atMarkerSigns gs then 3 else 2

/-- The letters, digits and signs of which handles and anchors are made. -/
def isWord (c : Char) : Bool :=
  c.isAlphanum || c == '-' || c == '_'

/-- Whether the character is a hexadecimal digit. -/
def isHexDigit (c : Char) : Bool :=
  c.isDigit || ('a' ≤ c && c ≤ 'f') || ('A' ≤ c && c ≤ 'F')

/-- The value of a hexadecimal digit. -/
def hexDigit (c : Char) : Nat :=
  if c.isDigit then c.toNat - '0'.toNat
  else if 'a' ≤ c && c ≤ 'f' then c.toNat - 'a'.toNat + 10
  else c.toNat - 'A'.toNat + 10

/-- The number that hexadecimal digits spell. -/
def hexNumber (cs : List Char) : Nat :=
  cs.foldl (fun n c => 16 * n + hexDigit c) 0

end Lineage.Yaml
