import Lineage.Text.Blank

/-!
# Lines

A text is cut into lines at every line boundary of Unicode, not only at the line feed. A carriage
return followed by a line feed is one boundary, and a boundary at the very end opens no further
line.
-/

namespace Lineage.Text

/-- The characters that end a line. -/
def isLineBreak (c : CodePoint) : Bool :=
  c == .char '\n' || c == .char '\r' || c == .char '\x0b' || c == .char '\x0c'
    || c == .char '\x1c' || c == .char '\x1d' || c == .char '\x1e' || c == .char '\u0085'
    || c == .char '\u2028' || c == .char '\u2029'

/-- The text behind the boundary at its front. -/
def dropLineBreak : List CodePoint → List CodePoint
  | .char '\r' :: .char '\n' :: rest => rest
  | _ :: rest => rest
  | [] => []

theorem length_dropLineBreak_le (cs : List CodePoint) :
    (dropLineBreak cs).length ≤ cs.length - 1 := by
  unfold dropLineBreak
  split <;> simp

/-- The lines of a text, without their boundaries. -/
def lines (cs : List CodePoint) : List (List CodePoint) :=
  if cs.isEmpty then []
  else cs.takeWhile (!isLineBreak ·) :: lines (dropLineBreak (cs.dropWhile (!isLineBreak ·)))
termination_by cs.length
decreasing_by
  rename_i h
  have h₁ := length_dropWhile_le (!isLineBreak ·) cs
  have h₂ := length_dropLineBreak_le (cs.dropWhile (!isLineBreak ·))
  have h₃ : cs.length ≠ 0 := by simpa using h
  omega

/-- The characters with each carriage return, and each pair of carriage return and line feed,
written as one line feed. -/
def unifyNewlines : List Char → List Char
  | [] => []
  | '\r' :: '\n' :: rest => '\n' :: unifyNewlines rest
  | c :: rest => (if c == '\r' then '\n' else c) :: unifyNewlines rest

end Lineage.Text
