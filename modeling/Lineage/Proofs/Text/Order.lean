import Lineage.Text.Basic
import Mathlib.Data.List.Lex
import Mathlib.Order.Defs.LinearOrder

/-!
# The order of texts

Different code points have different numbers, so texts are ordered like the lists of their numbers.
That is a linear order.
-/

namespace Lineage

/-- A code point is known by its number: no character has the number of a surrogate. -/
theorem CodePoint.number_injective {a b : CodePoint} (h : a.number = b.number) : a = b := by
  unfold number at h
  cases a with
  | char c =>
    cases b with
    | char d => rw [Char.toNat_inj.1 h]
    | surrogate q =>
      -- no character has the number of a surrogate
      have hvalid : c.toNat < 0xD800 ∨ 0xDFFF < c.toNat ∧ c.toNat < 0x110000 := c.valid
      simp only at h
      omega
  | surrogate p =>
    cases b with
    | char d =>
      have hvalid : d.toNat < 0xD800 ∨ 0xDFFF < d.toNat ∧ d.toNat < 0x110000 := d.valid
      simp only at h
      omega
    | surrogate q =>
      simp only at h
      have hpq : p = q := by omega
      rw [hpq]

namespace Text

/-- The numbers of the code points of a text. -/
def numbers (t : Text) : List Nat :=
  t.codePoints.map (·.number)

/-- A text is known by the numbers of its code points. -/
theorem numbers_injective {s t : Text} (h : s.numbers = t.numbers) : s = t := by
  have hpoints := List.map_injective_iff.2 (fun _ _ => CodePoint.number_injective) h
  cases s
  cases t
  exact congrArg Text.mk hpoints

/-- One list of code points comes before another if their numbers do so in lexicographic order. -/
theorem before_iff (as bs : List CodePoint) :
    before as bs = true ↔ as.map (·.number) < bs.map (·.number) := by
  induction as generalizing bs with
  | nil => cases bs <;> simp [before]
  | cons a as ih =>
    cases bs with
    | nil => simp [before]
    | cons b bs =>
      unfold before
      rw [List.map_cons, List.map_cons, List.cons_lt_cons_iff, ← ih bs]
      simp

/-- Texts are ordered by the numbers of their code points. -/
theorem lt_iff_numbers {s t : Text} : s < t ↔ s.numbers < t.numbers :=
  before_iff s.codePoints t.codePoints

theorem le_iff_numbers {s t : Text} : s ≤ t ↔ s.numbers ≤ t.numbers := by
  rw [← not_lt, ← lt_iff_numbers]
  rfl

/-- Texts are linearly ordered. -/
instance : LinearOrder Text where
  le_refl s := le_iff_numbers.2 (le_refl s.numbers)
  le_trans s t u hst htu :=
    le_iff_numbers.2 (le_trans (le_iff_numbers.1 hst) (le_iff_numbers.1 htu))
  le_antisymm s t hst hts :=
    numbers_injective (le_antisymm (le_iff_numbers.1 hst) (le_iff_numbers.1 hts))
  le_total s t := by
    rw [le_iff_numbers, le_iff_numbers]
    exact le_total s.numbers t.numbers
  lt_iff_le_not_ge s t := by
    rw [lt_iff_numbers, le_iff_numbers, le_iff_numbers]
    exact lt_iff_le_not_ge
  toDecidableLE := inferInstance
  toDecidableEq := inferInstance
  toDecidableLT := inferInstance

end Text

end Lineage
