import Lineage.Text.CharClass

/-!
# White space and words

Blank characters are the white space of Unicode together with the four separator controls
`0x1C`-`0x1F`. A text is trimmed and cut into words at them. The functions work on lists of code
points, so that a rule about a text is a rule about a list.
-/

namespace Lineage.Text

/-- The characters that separate words. -/
def blank : CharClass where
  bounds := [0x09, 0x0E, 0x1C, 0x21, 0x85, 0x86, 0xA0, 0xA1, 0x1680, 0x1681, 0x2000, 0x200B,
    0x2028, 0x202A, 0x202F, 0x2030, 0x205F, 0x2060, 0x3000, 0x3001]

/-- Whether the code point is white space. -/
def isBlank (c : CodePoint) : Bool :=
  blank.contains c

/-- The text without its leading white space. -/
def trimStart (cs : List CodePoint) : List CodePoint :=
  cs.dropWhile isBlank

/-- The text without the white space at either end. -/
def trim (cs : List CodePoint) : List CodePoint :=
  (trimStart (trimStart cs).reverse).reverse

theorem length_dropWhile_le {α : Type} (p : α → Bool) (l : List α) :
    (l.dropWhile p).length ≤ l.length := by
  induction l with
  | nil => simp
  | cons a l ih =>
    rw [List.dropWhile_cons]
    split
    · exact Nat.le_succ_of_le ih
    · exact Nat.le_refl _

/-- The maximal runs of code points that are not white space, from left to right. -/
def words (cs : List CodePoint) : List (List CodePoint) :=
  match _h : trimStart cs with
  | [] => []
  | c :: rest => (c :: rest.takeWhile (!isBlank ·)) :: words (rest.dropWhile (!isBlank ·))
termination_by cs.length
decreasing_by
  have h₁ : (trimStart cs).length ≤ cs.length := length_dropWhile_le _ _
  have h₂ := length_dropWhile_le (!isBlank ·) rest
  rw [_h] at h₁
  simp only [List.length_cons] at h₁
  omega

end Lineage.Text
