import Lineage.Json.Basic
import Lineage.Decimal.Shortest
import Lineage.Text.Quoted

/-!
# Indented JSON text

One item a line, two spaces deeper at each level; empty lists and objects stay on one line. The
text is pure ASCII: any other character is written by its UTF-16 units.
-/

namespace Lineage.Json

/-- One UTF-16 unit as an escape. -/
def escapeUnit (n : Nat) : List Char :=
  '\\' :: 'u' :: Text.hexPadded 4 n

/-- One character inside a JSON string. -/
def escapeChar (c : Char) : List Char :=
  if c == '\x22' then ['\\', '\x22']
  else if c == '\\' then ['\\', '\\']
  else if c == '\n' then ['\\', 'n']
  else if c == '\r' then ['\\', 'r']
  else if c == '\t' then ['\\', 't']
  else if c == '\x08' then ['\\', 'b']
  else if c == '\x0c' then ['\\', 'f']
  else if ' ' ≤ c && c ≤ '~' then [c]
  else if c.toNat ≤ 0xFFFF then escapeUnit c.toNat
  else
    let n := c.toNat - 0x10000
    escapeUnit (0xD800 + n / 0x400) ++ escapeUnit (0xDC00 + n % 0x400)

/-- One code point inside a JSON string; a surrogate is a unit of its own. -/
def escapePoint : CodePoint → List Char
  | .char c => escapeChar c
  | .surrogate place => Text.surrogateSpelling place

/-- A JSON string with its quotes. -/
def encodeText (t : Text) : String :=
  String.ofList ('\x22' :: t.codePoints.flatMap escapePoint ++ ['\x22'])

/-- Doubles are laid out as plain decimals; the three that JSON lacks get a word. -/
def realLayout : Decimal.Layout :=
  { Decimal.plainLayout with infinity := "Infinity", notANumber := "NaN" }

/-- The line break before an item at the given depth. -/
def lineStart (depth : Nat) : String :=
  String.ofList ('\n' :: List.replicate (2 * depth) ' ')

mutual

/-- The text of a value that stands at the given depth. -/
def renderAt (depth : Nat) : Json → String
  | null => "null"
  | bool true => "true"
  | bool false => "false"
  | int i => toString i
  | real x => Decimal.render x realLayout
  | text t => encodeText t
  | list [] => "[]"
  | list (x :: xs) =>
    "[" ++ lineStart (depth + 1) ++ renderAt (depth + 1) x ++ renderItems (depth + 1) xs
      ++ lineStart depth ++ "]"
  | record [] => "\x7b\x7d"
  | record ((k, x) :: fs) =>
    "\x7b" ++ lineStart (depth + 1) ++ encodeText k ++ ": " ++ renderAt (depth + 1) x
      ++ renderFields (depth + 1) fs ++ lineStart depth ++ "\x7d"

/-- The items of a list behind its first one. -/
def renderItems (depth : Nat) : List Json → String
  | [] => ""
  | x :: xs => "," ++ lineStart depth ++ renderAt depth x ++ renderItems depth xs

/-- The fields of an object behind its first one. -/
def renderFields (depth : Nat) : List (Text × Json) → String
  | [] => ""
  | (k, x) :: fs =>
    "," ++ lineStart depth ++ encodeText k ++ ": " ++ renderAt depth x ++ renderFields depth fs

end

/-- The indented text of a value. -/
def render (j : Json) : String :=
  renderAt 0 j

end Lineage.Json
