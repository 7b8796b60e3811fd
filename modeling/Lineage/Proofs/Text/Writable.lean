import Lineage.Text.Basic

/-!
# Texts without surrogates

A text without surrogates is that of a string (`exists_string`).
-/

namespace Lineage.Text

/-- No code point of the text is a surrogate. -/
def Writable (t : Text) : Prop :=
  ∀ place, CodePoint.surrogate place ∉ t.codePoints

@[simp] theorem writable_ofString (s : String) : (ofString s).Writable := by
  intro place hmem
  obtain ⟨c, _, hc⟩ := List.mem_map.1 hmem
  cases hc

/-- A text without surrogates is that of a string. -/
theorem exists_string {t : Text} (h : t.Writable) : ∃ s : String, ofString s = t := by
  have hchars : ∀ ps : List CodePoint, (∀ place, CodePoint.surrogate place ∉ ps) →
      ∃ cs : List Char, cs.map CodePoint.char = ps := by
    intro ps
    induction ps with
    | nil => exact fun _ => ⟨[], rfl⟩
    | cons p ps ih =>
      intro hno
      obtain ⟨cs, hcs⟩ := ih fun place hmem => hno place (List.mem_cons_of_mem _ hmem)
      cases p with
      | char c => exact ⟨c :: cs, congrArg (CodePoint.char c :: ·) hcs⟩
      | surrogate place => exact absurd List.mem_cons_self (hno place)
  obtain ⟨cs, hcs⟩ := hchars t.codePoints h
  refine ⟨String.ofList cs, ?_⟩
  unfold ofString ofChars
  rw [String.toList_ofList, hcs]

end Lineage.Text
