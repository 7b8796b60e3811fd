import Lineage.Output.Encoding
import Lineage.Proofs.Text.Ascii
import Mathlib.Data.List.Basic

/-!
# Texts that a stream takes

A stream takes a text if it takes all code points in it (`Encoding.write?_isSome_iff`). So it takes
what is put together exactly if it takes the parts. Words of the program are in ASCII and can be
put anywhere, and it makes no difference whether control sequences are dropped.
-/

namespace Lineage.Encoding

open Text

variable {e : Encoding} {s t : Text}

/-- The stream takes all code points of the text. -/
def Takes (e : Encoding) (t : Text) : Prop :=
  ∀ p ∈ t.codePoints, (e.spell? p).isSome = true

/-- A text comes out exactly if the stream takes it. -/
theorem write?_isSome_iff : (e.write? t).isSome = true ↔ e.Takes t := by
  obtain ⟨ps⟩ := t
  rw [write?, Option.isSome_map]
  unfold Takes
  induction ps with
  | nil => simp
  | cons p ps ih =>
    have hcons : ((p :: ps).mapM e.spell?).isSome = true ↔
        (e.spell? p).isSome = true ∧ (ps.mapM e.spell?).isSome = true := by
      rw [List.mapM_cons]
      cases e.spell? p <;> cases ps.mapM e.spell? <;> simp
    rw [hcons, ih, List.forall_mem_cons]

/-- A string in ASCII is taken by every stream. -/
theorem takes_ofString {s : String} (h : Ascii s.toList) : e.Takes (ofString s) := by
  intro p hp
  obtain ⟨c, hc, rfl⟩ := List.mem_map.1 hp
  exact e.ascii c (h c hc)

/-- A stream takes two texts in a row exactly if it takes both. -/
@[simp] theorem takes_append : e.Takes (s ++ t) ↔ e.Takes s ∧ e.Takes t :=
  List.forall_mem_append

/-- Texts in a row, with a text between them that the stream takes, are taken if all of them are. -/
theorem takes_intercalate {between : Text} (hbetween : e.Takes between) {ts : List Text} :
    e.Takes (intercalate between ts) ↔ ∀ t ∈ ts, e.Takes t := by
  cases ts with
  | nil => simp [intercalate, Takes]
  | cons s ts =>
    induction ts generalizing s with
    | nil => simp [intercalate, Takes]
    | cons t ts ih =>
      have hsplit : intercalate between (s :: t :: ts) =
          s ++ (between ++ intercalate between (t :: ts)) := by
        show Text.mk _ = Text.mk _
        simp only [List.map_cons, List.intercalate_cons_cons, List.append_assoc]
        rfl
      rw [hsplit, takes_append, takes_append, ih, and_iff_right hbetween]
      exact List.forall_mem_cons.symm

/-- A text is taken without its control sequences exactly if it is with them. -/
theorem takes_withoutSequences : e.Takes t.withoutSequences ↔ e.Takes t := by
  have hascii {p : CodePoint} (hp : ¬ 0x80 ≤ p.number) : (e.spell? p).isSome = true := by
    cases p with
    | char c => exact e.ascii c (Nat.lt_of_not_le hp)
    | surrogate place => exact absurd (Nat.le_add_right_of_le (by decide)) hp
  constructor
  · intro h p hmem
    by_cases hp : 0x80 ≤ p.number
    · exact h p ((mem_withoutSequences hp).2 hmem)
    · exact hascii hp
  · intro h p hmem
    by_cases hp : 0x80 ≤ p.number
    · exact h p ((mem_withoutSequences hp).1 hmem)
    · exact hascii hp

end Lineage.Encoding
