import Lineage.Decimal.Nearest
import Lineage.Text.Blank

/-!
# Reading numbers

Numbers may be written with the decimal digits of any script and with white space around them; the
separator controls of ASCII do not count as white space here.
-/

namespace Lineage.Decimal

/-- The code point of the digit zero of every script that has decimal digits; the other nine
follow it. -/
def zeros : List Nat :=
  [0x30, 0x660, 0x6F0, 0x7C0, 0x966, 0x9E6, 0xA66, 0xAE6, 0xB66, 0xBE6, 0xC66, 0xCE6, 0xD66, 0xDE6,
    0xE50, 0xED0, 0xF20, 0x1040, 0x1090, 0x17E0, 0x1810, 0x1946, 0x19D0, 0x1A80, 0x1A90, 0x1B50,
    0x1BB0, 0x1C40, 0x1C50, 0xA620, 0xA8D0, 0xA900, 0xA9D0, 0xA9F0, 0xAA50, 0xABF0, 0xFF10,
    0x104A0, 0x10D30, 0x11066, 0x110F0, 0x11136, 0x111D0, 0x112F0, 0x11450, 0x114D0, 0x11650,
    0x116C0, 0x11730, 0x118E0, 0x11950, 0x11C50, 0x11D50, 0x11DA0, 0x16A60, 0x16AC0, 0x16B50,
    0x1D7CE, 0x1D7D8, 0x1D7E2, 0x1D7EC, 0x1D7F6, 0x1E140, 0x1E2F0, 0x1E950, 0x1FBF0]

/-- The value of a decimal digit of any script. -/
def digit? (c : Char) : Option Nat :=
  (zeros.find? fun z => z ≤ c.toNat && c.toNat < z + 10).map (c.toNat - ·)

/-- The value of a digit or a letter as a digit to a base of up to 36. -/
def digitIn? (base : Nat) (c : Char) : Option Nat :=
  let v := match digit? c with
    | some d => some d
    | none =>
      if 'a' ≤ c && c ≤ 'z' then some (c.toNat - 'a'.toNat + 10)
      else if 'A' ≤ c && c ≤ 'Z' then some (c.toNat - 'A'.toNat + 10)
      else none
  v.filter (· < base)

/-- The number that digits to a base spell. -/
def ofDigits (base : Nat) (ds : List Nat) : Nat :=
  ds.foldl (fun n d => base * n + d) 0

/-- All of the characters as digits to a base. -/
def digitsIn? (base : Nat) (cs : List Char) : Option (List Nat) :=
  cs.mapM (digitIn? base)

/-- The sign at the front, and what follows. -/
def splitSign : List Char → Bool × List Char
  | '-' :: rest => (true, rest)
  | '+' :: rest => (false, rest)
  | cs => (false, cs)

/-- The letters that name a base behind a zero. -/
def baseLetters : Nat → List Char
  | 2 => ['b', 'B']
  | 8 => ['o', 'O']
  | 16 => ['x', 'X']
  | _ => []

/-- The digits of a number to a base, without the zero of any script and the letter that may stand
in front of them. -/
def dropLead (base : Nat) : List Char → List Char
  | zero :: letter :: rest =>
    if digit? zero == some 0 && (baseLetters base).contains letter then rest
    else zero :: letter :: rest
  | cs => cs

/-- The most digits that a number to a base that is no power of two may have. -/
def digitLimit : Nat :=
  4300

/-- Whether the character may stand around a number. -/
def isPadding (c : Char) : Bool :=
  Text.isBlank c && !(0x1C ≤ c.toNat && c.toNat < 0x20)

/-- The text without the white space around it. -/
def strip (cs : List Char) : List Char :=
  ((cs.dropWhile isPadding).reverse.dropWhile isPadding).reverse

/-- The whole number that a text spells to a base. -/
def whole? (base : Nat) (cs : List Char) : Option Int :=
  let (negative, cs) := splitSign (strip cs)
  let cs := dropLead base cs
  if cs.isEmpty || (base == 10 && digitLimit < cs.length) then none
  else
    (digitsIn? base cs).map fun ds =>
      let n : Int := ofDigits base ds
      if negative then -n else n

/-- Whether the text is the given word, but for the case of its ASCII letters. -/
def isWord (word : String) (cs : List Char) : Bool :=
  cs.map Char.toLower == word.toList

/-- The exponent at the end of a decimal, if it is well formed; no exponent counts as zero. -/
def exponent? : List Char → Option Int
  | [] => some 0
  | c :: rest =>
    if c == 'e' || c == 'E' then
      let (negative, ds) := splitSign rest
      if ds.isEmpty then none
      else
        (ds.mapM digit?).map fun ds =>
          let n : Int := ofDigits 10 ds
          if negative then -n else n
    else none

/-- The digits at the front, and what follows. -/
def digitRun (cs : List Char) : List Nat × List Char :=
  ((cs.takeWhile fun c => (digit? c).isSome).filterMap digit?,
    cs.dropWhile fun c => (digit? c).isSome)

/-- The size of the decimal that a text without a sign spells. -/
def magnitude? (cs : List Char) : Option Float :=
  if isWord "inf" cs || isWord "infinity" cs then some (1.0 / 0.0)
  else if isWord "nan" cs then some (0.0 / 0.0)
  else
    let (before, rest) := digitRun cs
    let (behind, rest) :=
      match rest with
      | '.' :: rest => digitRun rest
      | rest => ([], rest)
    if before.isEmpty && behind.isEmpty then none
    else
      (exponent? rest).map fun e =>
        nearest (ofDigits 10 (before ++ behind)) (e - behind.length)

/-- The double that a text spells. -/
def real? (cs : List Char) : Option Float :=
  let (negative, cs) := splitSign (strip cs)
  (magnitude? cs).map fun x => if negative then -x else x

end Lineage.Decimal
