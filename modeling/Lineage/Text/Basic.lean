/-!
# Texts

A text is a sequence of code points. Nearly all of them are characters. A data document can also
spell a surrogate, one of the code points that stand for no character and that no file can hold.
Two surrogates in a row stay two code points, so a text that holds any is no string of characters.
-/

namespace Lineage

/-! ## Code points -/

/-- A code point: a character, or one of the surrogates, which are numbered from `0xD800` on. -/
inductive CodePoint where
  | char (c : Char)
  | surrogate (place : Fin 0x800)
deriving DecidableEq, Repr, Inhabited

namespace CodePoint

/-- The number of a code point. -/
def number : CodePoint → Nat
  | char c => c.toNat
  | surrogate place => 0xD800 + place

/-- The code point with a number, if the number is not too great. -/
def ofNumber? (n : Nat) : Option CodePoint :=
  if h : 0xD800 ≤ n ∧ n < 0xE000 then some (surrogate ⟨n - 0xD800, by omega⟩)
  else if n < 0x110000 then some (char (Char.ofNat n))
  else none

instance : Coe Char CodePoint := ⟨char⟩

/-- The character, if the code point is one. -/
def char? : CodePoint → Option Char
  | char c => some c
  | surrogate _ => none

end CodePoint

/-! ## Texts -/

/-- A text. -/
structure Text where
  codePoints : List CodePoint := []
deriving DecidableEq, Repr, Inhabited

namespace Text

/-- The text of some characters. -/
def ofChars (cs : List Char) : Text :=
  ⟨cs.map .char⟩

/-- The text of a string. -/
def ofString (s : String) : Text :=
  ofChars s.toList

instance : Coe String Text := ⟨ofString⟩

/-- The characters of a text, without its surrogates. -/
def chars (t : Text) : List Char :=
  t.codePoints.filterMap (·.char?)

/-- The string with the same characters, if there are no surrogates. -/
def toString? (t : Text) : Option String :=
  if t.codePoints.all (·.char?.isSome) then some (String.ofList t.chars) else none

/-- Whether the text has no code point. -/
def isEmpty (t : Text) : Bool :=
  t.codePoints.isEmpty

/-- One text behind another. -/
def append (s t : Text) : Text :=
  ⟨s.codePoints ++ t.codePoints⟩

instance : Append Text := ⟨append⟩

/-- The texts in a row, with a text between any two of them. -/
def intercalate (between : Text) (ts : List Text) : Text :=
  ⟨between.codePoints.intercalate (ts.map (·.codePoints))⟩

/-- Replaces each code point by characters. -/
def spell (f : CodePoint → List Char) (t : Text) : String :=
  String.ofList (t.codePoints.flatMap f)

/-- The text with three replacement characters for each surrogate, one for each byte that it would
take. -/
def lossy (t : Text) : String :=
  t.spell fun
    | .char c => [c]
    | .surrogate _ => ['\uFFFD', '\uFFFD', '\uFFFD']

theorem chars_ofChars (cs : List Char) : (ofChars cs).chars = cs := by
  induction cs with
  | nil => rfl
  | cons c cs ih => exact congrArg (c :: ·) ih

theorem toString?_ofString (s : String) : (ofString s).toString? = some s := by
  simp only [toString?, ofString, chars_ofChars, String.ofList_toList]
  simp [ofChars, CodePoint.char?]

/-! ## Order -/

/-- Whether code points come before others in a dictionary: the first difference decides, and the
lower number comes first. -/
def before : List CodePoint → List CodePoint → Bool
  | _, [] => false
  | [], _ :: _ => true
  | a :: as, b :: bs => a.number < b.number || (a.number == b.number && before as bs)

instance : LT Text := ⟨fun s t => before s.codePoints t.codePoints = true⟩

instance (s t : Text) : Decidable (s < t) :=
  inferInstanceAs (Decidable (before s.codePoints t.codePoints = true))

instance : LE Text := ⟨fun s t => ¬ t < s⟩

instance (s t : Text) : Decidable (s ≤ t) :=
  inferInstanceAs (Decidable (¬ t < s))

end Text

end Lineage
