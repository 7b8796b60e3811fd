import Lineage.Text.Basic
import Lineage.Text.Printable

/-!
# Quoted texts

The form in which messages show a text: between quotes, on one line, with every character that
would not be seen spelled out by its code point.
-/

namespace Lineage.Text

/-- The lower-case hexadecimal digits of a number, padded with zeros to at least `width`. -/
def hexPadded (width n : Nat) : List Char :=
  let digits := Nat.toDigits 16 n
  List.replicate (width - digits.length) '0' ++ digits

/-- A single quote delimits, unless the text holds one and no double quote. -/
def quoteFor (cs : List Char) : Char :=
  if cs.contains '\x27' && !cs.contains '\x22' then '\x22' else '\x27'

/-- One character of a quoted text. -/
def quoteChar (delimiter c : Char) : List Char :=
  if c == '\\' || c == delimiter then ['\\', c]
  else if c == '\t' then ['\\', 't']
  else if c == '\n' then ['\\', 'n']
  else if c == '\r' then ['\\', 'r']
  else if printable.contains c then [c]
  else if c.toNat ≤ 0xFF then '\\' :: 'x' :: hexPadded 2 c.toNat
  else if c.toNat ≤ 0xFFFF then '\\' :: 'u' :: hexPadded 4 c.toNat
  else '\\' :: 'U' :: hexPadded 8 c.toNat

/-- A surrogate spelled by its number. -/
def surrogateSpelling (place : Fin 0x800) : List Char :=
  '\\' :: 'u' :: hexPadded 4 (CodePoint.surrogate place).number

/-- One code point of a quoted text. -/
def quotePoint (delimiter : Char) : CodePoint → List Char
  | .char c => quoteChar delimiter c
  | .surrogate place => surrogateSpelling place

/-- The text in quotes. -/
def quoted (t : Text) : String :=
  let q := quoteFor t.chars
  String.ofList (q :: t.codePoints.flatMap (quotePoint q) ++ [q])

/-- The text with its surrogates spelled out and all else as it is. -/
def escaped (t : Text) : String :=
  t.spell fun
    | .char c => [c]
    | .surrogate place => surrogateSpelling place

end Lineage.Text
