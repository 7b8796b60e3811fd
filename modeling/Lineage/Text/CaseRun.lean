/-!
# Runs of letters

A mapping of case moves most letters by one amount together with their neighbours: either a whole
alphabet at once, or every second letter of a block in which capital and small letters alternate.
Such a mapping is kept as the list of its runs.
-/

namespace Lineage.Text

/-- The code points from `first` to `last`, `step` apart, that are all moved by `shift`. -/
structure CaseRun where
  first : Nat
  last : Nat
  step : Nat
  shift : Int

namespace CaseRun

/-- Whether the code point is one of the run. -/
def covers (r : CaseRun) (c : Nat) : Bool :=
  r.first ≤ c && c ≤ r.last && (c - r.first) % r.step == 0

/-- Where the run moves a code point. -/
def apply (r : CaseRun) (c : Nat) : Nat :=
  ((c : Int) + r.shift).toNat

/-- Where the runs move a code point; what none of them covers stays where it is. -/
def map (runs : List CaseRun) (c : Nat) : Nat :=
  match runs.find? (·.covers c) with
  | some r => r.apply c
  | none => c

end CaseRun

end Lineage.Text
