import Lineage.Text.Basic

/-!
# Classes of code points

A class is kept as the ascending list of the numbers where membership changes, starting from
"outside". That is the shortest exact form for the scattered ranges of a Unicode property, and the
membership test needs no search structure.
-/

namespace Lineage.Text

/-- A set of code points, given by the numbers at which membership flips. -/
structure CharClass where
  bounds : List Nat

namespace CharClass

/-- Before the first bound nothing is inside; each bound turns the rest around. -/
def inside : List Nat → Nat → Bool
  | [], _ => false
  | b :: rest, c => if c < b then false else !inside rest c

/-- Whether the code point belongs to the class. -/
def contains (k : CharClass) (c : CodePoint) : Bool :=
  inside k.bounds c.number

end CharClass

end Lineage.Text
