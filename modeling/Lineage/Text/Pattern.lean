/-!
# Patterns

Regular patterns over characters, matched against a whole text by derivatives: the derivative of a
pattern by a character matches what may follow that character.
-/

namespace Lineage.Text

/-- A regular pattern. -/
inductive Pattern where
  /-- Matches nothing. -/
  | never
  /-- Matches the empty text. -/
  | empty
  /-- Matches one character of a class. -/
  | one (p : Char → Bool)
  /-- Matches a text of the first pattern followed by one of the second. -/
  | seq (a b : Pattern)
  /-- Matches what one of the two matches. -/
  | alt (a b : Pattern)
  /-- Matches any number of texts of the pattern in a row. -/
  | star (a : Pattern)
deriving Inhabited

namespace Pattern

/-- Whether the empty text matches. -/
def nullable : Pattern → Bool
  | never => false
  | empty => true
  | one _ => false
  | seq a b => nullable a && nullable b
  | alt a b => nullable a || nullable b
  | star _ => true

/-- A sequence in which what can be left out is left out. -/
def join : Pattern → Pattern → Pattern
  | never, _ => never
  | _, never => never
  | empty, b => b
  | a, b => seq a b

/-- A choice in which what can be left out is left out. -/
def either : Pattern → Pattern → Pattern
  | never, b => b
  | a, never => a
  | a, b => alt a b

/-- The pattern of what may follow the character. -/
def derivative (c : Char) : Pattern → Pattern
  | never => never
  | empty => never
  | one p => if p c then empty else never
  | seq a b =>
    let first := join (derivative c a) b
    if nullable a then either first (derivative c b) else first
  | alt a b => either (derivative c a) (derivative c b)
  | star a => join (derivative c a) (star a)

/-- Whether the whole text matches. -/
def accepts (p : Pattern) (cs : List Char) : Bool :=
  nullable (cs.foldl (fun q c => derivative c q) p)

/-! ## Building patterns -/

/-- The given characters in a row. -/
def literal (cs : List Char) : Pattern :=
  cs.foldr (fun c p => join (one (· == c)) p) empty

/-- The given word. -/
def word (s : String) : Pattern :=
  literal s.toList

/-- One of the given characters. -/
def among (cs : List Char) : Pattern :=
  one cs.contains

/-- All of the patterns in a row. -/
def all (ps : List Pattern) : Pattern :=
  ps.foldr join empty

/-- One of the patterns. -/
def anyOf (ps : List Pattern) : Pattern :=
  ps.foldr either never

/-- The pattern or nothing. -/
def optional (p : Pattern) : Pattern :=
  either p empty

/-- The pattern at least once. -/
def plus (p : Pattern) : Pattern :=
  join p (star p)

/-- A decimal digit. -/
def digit : Pattern :=
  one Char.isDigit

/-- A given number of decimal digits. -/
def digits (n : Nat) : Pattern :=
  all (List.replicate n digit)

end Pattern

end Lineage.Text
