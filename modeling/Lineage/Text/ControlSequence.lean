import Lineage.Text.Basic
import Lineage.Text.Blank

/-!
# Control sequences

A control sequence tells a terminal to move its cursor or to change how it shows what follows. It
is an escape character and a bracket, then parameters, then intermediates, and one final character
that says what is to be done. The three kinds share no character, so a sequence ends at the first
character that is neither a parameter nor, behind those, an intermediate; if that is no final
character, there is no sequence.

What is not shown on a terminal is written without its control sequences. They are dropped in one
pass from left to right, so what stands around a sequence does not become one when it closes up.
-/

namespace Lineage.Text

/-- The code point that opens a control sequence. -/
def escape : CodePoint :=
  .char '\x1b'

/-- Whether the code point can be a parameter of a control sequence. -/
def isParameter (p : CodePoint) : Bool :=
  0x30 ≤ p.number && p.number < 0x40

/-- Whether the code point can stand between the parameters and the end of a control sequence. -/
def isIntermediate (p : CodePoint) : Bool :=
  0x20 ≤ p.number && p.number < 0x30

/-- Whether the code point can end a control sequence. -/
def isFinal (p : CodePoint) : Bool :=
  0x40 ≤ p.number && p.number < 0x7F

/-- What follows the control sequence at the front, if there is one. -/
def afterSequence? : List CodePoint → Option (List CodePoint)
  | e :: .char '[' :: rest =>
    if e = escape then
      match (rest.dropWhile isParameter).dropWhile isIntermediate with
      | last :: rest => if isFinal last then some rest else none
      | [] => none
    else none
  | _ => none

theorem length_lt_of_afterSequence? {ps rest : List CodePoint}
    (h : afterSequence? ps = some rest) : rest.length < ps.length := by
  unfold afterSequence? at h
  split at h
  · rename_i e behind
    have h₁ := length_dropWhile_le isParameter behind
    have h₂ := length_dropWhile_le isIntermediate (behind.dropWhile isParameter)
    split at h
    · split at h
      · rename_i last shorter hd
        split at h
        · cases h
          rw [hd] at h₂
          simp only [List.length_cons] at h₂ ⊢
          omega
        · simp at h
      · simp at h
    · simp at h
  · simp at h

/-- The code points without the control sequences among them. -/
def dropSequences : List CodePoint → List CodePoint
  | [] => []
  | p :: rest =>
    match _h : afterSequence? (p :: rest) with
    | some behind => dropSequences behind
    | none => p :: dropSequences rest
termination_by ps => ps.length
decreasing_by
  · exact length_lt_of_afterSequence? _h
  · exact Nat.lt_succ_self _

/-- The text without its control sequences. -/
def withoutSequences (t : Text) : Text :=
  ⟨dropSequences t.codePoints⟩

end Lineage.Text
