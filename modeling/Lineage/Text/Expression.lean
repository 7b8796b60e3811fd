import Lineage.Text.Basic

/-!
# Regular expressions

Expressions over code points that remember parts of what they read. The front of a text can have
several readings. They are listed in the order in which they are tried: a choice prefers its first
side, and a repetition goes on for as long as it can. So the first reading that suits is the one
that is found by going back, each time, to the latest choice that was made.
-/

namespace Lineage.Text

variable {label : Type}

/-- A regular expression whose parts are remembered under labels. -/
inductive Expression (label : Type) where
  /-- Reads nothing. -/
  | empty
  /-- Reads one code point of a class. -/
  | one (p : CodePoint → Bool)
  /-- Reads by the first expression, and then by the second. -/
  | seq (a b : Expression label)
  /-- Reads by the first expression, or else by the second. -/
  | either (a b : Expression label)
  /-- Reads by the expression as often as it can, or else less often. -/
  | many (a : Expression label)
  /-- Remembers what is read by the expression. -/
  | part (l : label) (a : Expression label)
deriving Inhabited

/-- A reading of the front of a text. -/
structure Reading (label : Type) where
  /-- What has been read. -/
  text : List CodePoint := []
  /-- The parts to remember, the latest first. -/
  parts : List (label × List CodePoint) := []
  /-- What is left of the text. -/
  rest : List CodePoint
deriving DecidableEq, Repr

namespace Reading

/-- The reading followed by a reading of its rest. -/
def andThen (r s : Reading label) : Reading label :=
  { text := r.text ++ s.text, parts := s.parts ++ r.parts, rest := s.rest }

/-- The part that has been remembered last under a label. -/
def part? [BEq label] (r : Reading label) (l : label) : Option (List CodePoint) :=
  r.parts.lookup l

end Reading

namespace Expression

/-! ## Backtracking -/

variable {α : Type}

/-- Goes on with a way of reading for as long as it takes something, and stops where going on leads
nowhere. -/
def repeating (read : (Reading label → Option α) → List CodePoint → Option α)
    (accept : Reading label → Option α) (cs : List CodePoint) : Option α :=
  (read (fun r =>
      if _h : r.rest.length < cs.length then repeating read (fun s => accept (r.andThen s)) r.rest
      else none) cs).or
    (accept { rest := cs })
termination_by cs.length

/-- The result for the first reading of the front of the text that is accepted. -/
def firstSome? : Expression label → (Reading label → Option α) → List CodePoint → Option α
  | empty, accept, cs => accept { rest := cs }
  | one _, _, [] => none
  | one p, accept, c :: rest => if p c then accept { text := [c], rest } else none
  | seq a b, accept, cs =>
    firstSome? a (fun r => firstSome? b (fun s => accept (r.andThen s)) r.rest) cs
  | either a b, accept, cs => (firstSome? a accept cs).or (firstSome? b accept cs)
  | many a, accept, cs => repeating (firstSome? a) accept cs
  | part l a, accept, cs =>
    firstSome? a (fun r => accept { r with parts := (l, r.text) :: r.parts }) cs

/-- Whether a text is over; the end of a last line may still be left. -/
def isEnd (cs : List CodePoint) : Bool :=
  cs == [] || cs == [.char '\n']

/-- The first reading of the text that leaves nothing of it. -/
def whole? (e : Expression label) (cs : List CodePoint) : Option (Reading label) :=
  e.firstSome? (fun r => if isEnd r.rest then some r else none) cs

/-- The first reading of the front of the text that takes something, with a shorter rest. -/
def taking? (e : Expression label) (cs : List CodePoint) :
    Option { r : Reading label // r.rest.length < cs.length } :=
  e.firstSome? (fun r => if h : r.rest.length < cs.length then some ⟨r, h⟩ else none) cs

/-- The readings that are found in the text one behind the other. Where none starts that takes
something, a character is passed over. -/
def scan (e : Expression label) (cs : List CodePoint) : List (Reading label) :=
  match e.taking? cs with
  | some ⟨r, _⟩ => r :: scan e r.rest
  | none =>
    match cs with
    | [] => []
    | _ :: rest => scan e rest
termination_by cs.length
decreasing_by
  · assumption
  · simp

/-! ## Building expressions -/

/-- The given text. -/
def literal (t : Text) : Expression label :=
  t.codePoints.foldr (fun c e => seq (one (· == c)) e) empty

/-- One of the expressions, the first one preferred. -/
def anyOf (es : List (Expression label)) : Expression label :=
  es.foldr either (one fun _ => false)

/-- What the expression reads, or else nothing. -/
def optional (e : Expression label) : Expression label :=
  either e empty

/-- The expression at least once, and as often as it can. -/
def plus (e : Expression label) : Expression label :=
  seq e (many e)

end Expression

end Lineage.Text
