import Lineage.Text.Basic
import Mathlib.Data.List.Infix

/-!
# Texts within texts

How often a text occurs in another one is counted by the places where it starts. A text that is put
behind others occurs there once more, but it may also occur across the seam, or within the texts in
front. A marker rules both out: where the texts in front lack the first words of the text, it occurs
at the end and nowhere else (`occurrences_append_self`).
-/

namespace Lineage.Text

/-- How often a text occurs in another one. -/
def occurrences (part whole : Text) : Nat :=
  whole.codePoints.tails.countP (part.codePoints.isPrefixOf ·)

/-- The text does not occur in the other one. -/
def Lacks (part whole : Text) : Prop :=
  ¬ part.codePoints <:+: whole.codePoints

variable {part whole a b : Text}

@[simp] theorem codePoints_append (a b : Text) :
    (a ++ b).codePoints = a.codePoints ++ b.codePoints := rfl

theorem append_assoc (a b c : Text) : a ++ b ++ c = a ++ (b ++ c) :=
  congrArg Text.mk (List.append_assoc ..)

theorem occurrences_eq_zero_iff : occurrences part whole = 0 ↔ Lacks part whole := by
  simp only [occurrences, Lacks, List.countP_eq_zero, List.mem_tails, List.isPrefixOf_iff_prefix,
    List.infix_iff_prefix_suffix, not_exists, not_and]
  exact ⟨fun h l hpart hl => h l hl hpart, fun h l hl hpart => h l hpart hl⟩

/-! ## Texts in a row -/

/-- A text that occurs in two texts in a row occurs in one of them or across the seam. -/
theorem Lacks.append (ha : Lacks part a) (hb : Lacks part b)
    (hseam : ∀ l m, part.codePoints = l ++ m → l ≠ [] → m ≠ [] → l <:+ a.codePoints →
      ¬ m <+: b.codePoints) : Lacks part (a ++ b) := by
  intro h
  rcases List.infix_append_iff.1 h with h | h | ⟨l, m, hpart, hl, hm⟩
  · exact ha h
  · exact hb h
  · by_cases hl' : l = []
    · rw [hl', List.nil_append] at hpart
      exact hb (hpart ▸ hm.isInfix)
    · by_cases hm' : m = []
      · rw [hm', List.append_nil] at hpart
        exact ha (hpart ▸ hl.isInfix)
      · exact hseam l m hpart hl' hm' hl hm

/-- What starts with a code point that the text lacks may stand behind. -/
theorem Lacks.append_of_head? (ha : Lacks part a) (hb : Lacks part b)
    (hhead : ∀ x, b.codePoints.head? = some x → x ∉ part.codePoints) : Lacks part (a ++ b) := by
  refine ha.append hb fun l m hpart _ hm _ hprefix => ?_
  obtain ⟨x, m, rfl⟩ := List.exists_cons_of_ne_nil hm
  obtain ⟨t, ht⟩ := hprefix
  refine hhead x (by rw [← ht]; rfl) ?_
  rw [hpart]
  exact List.mem_append_right l List.mem_cons_self

/-- What lacks the first code point of the text may stand in front. -/
theorem Lacks.prepend (hb : Lacks part b)
    (hhead : ∀ x, part.codePoints.head? = some x → x ∉ a.codePoints)
    (hpart : part.codePoints ≠ []) : Lacks part (a ++ b) := by
  obtain ⟨x, rest, hx⟩ := List.exists_cons_of_ne_nil hpart
  have hfirst : x ∉ a.codePoints := hhead x (by rw [hx]; rfl)
  have ha : Lacks part a := fun h => hfirst (h.subset (by rw [hx]; exact List.mem_cons_self))
  refine ha.append hb fun l m hlm hl _ hsuffix _ => ?_
  obtain ⟨y, l, rfl⟩ := List.exists_cons_of_ne_nil hl
  rw [hx, List.cons_append, List.cons.injEq] at hlm
  exact hfirst (hsuffix.subset (hlm.1 ▸ List.mem_cons_self))

/-- A text that starts with a marker occurs at the end and nowhere else, if the text in front of it
lacks the marker and the first code point of the marker does not come again in it. -/
theorem occurrences_append_self {x : CodePoint} {rest : List CodePoint}
    (hmarker : x :: rest <+: part.codePoints) (hx : x ∉ rest)
    (hlacks : ¬ x :: rest <:+: a.codePoints) : occurrences part (a ++ part) = 1 := by
  obtain ⟨more, hpart⟩ := hmarker
  unfold occurrences
  rw [codePoints_append]
  generalize a.codePoints = before at hlacks
  induction before with
  | nil =>
    -- a proper part of the text is too short for it
    have hshort : (rest ++ more).tails.countP (part.codePoints.isPrefixOf ·) = 0 := by
      rw [List.countP_eq_zero]
      intro l hl hprefix
      have hle := (List.isPrefixOf_iff_prefix.1 hprefix).length_le
      have hle' := ((List.mem_tails l _).1 hl).length_le
      rw [← hpart, List.cons_append, List.length_cons] at hle
      omega
    have hself : part.codePoints.isPrefixOf part.codePoints = true :=
      List.isPrefixOf_iff_prefix.2 (List.prefix_refl _)
    have htails : part.codePoints.tails = part.codePoints :: (rest ++ more).tails := by
      rw [← hpart, List.cons_append, List.tails_cons]
    rw [List.nil_append, htails, List.countP_cons, hshort, hself, if_pos rfl]
  | cons y before ih =>
    have hrest : ¬ x :: rest <:+: before := fun h => hlacks (List.infix_cons_iff.2 (Or.inr h))
    have hnot : ¬ part.codePoints <+: y :: before ++ part.codePoints := by
      intro hprefix
      have hmarker : x :: rest <+: y :: before ++ part.codePoints :=
        (hpart ▸ List.prefix_append _ _).trans hprefix
      rcases List.prefix_or_prefix_of_prefix hmarker (List.prefix_append _ _) with h | ⟨t, ht⟩
      · exact hlacks h.isInfix
      · -- the text in front ends within the marker, so the marker starts in it a second time
        rw [← ht, List.prefix_append_right_inj, ← hpart] at hmarker
        cases t with
        | nil =>
          rw [List.append_nil] at ht
          exact hlacks (ht ▸ List.infix_refl _)
        | cons z t =>
          obtain ⟨rfl, _⟩ := List.cons_prefix_cons.1 hmarker
          rw [List.cons_append, List.cons.injEq] at ht
          exact hx (ht.2 ▸ List.mem_append_right before List.mem_cons_self)
    have hfalse : part.codePoints.isPrefixOf (y :: before ++ part.codePoints) = false := by
      rwa [Bool.eq_false_iff, Ne, List.isPrefixOf_iff_prefix]
    rw [List.cons_append, List.tails_cons, ← List.cons_append, List.countP_cons, hfalse, ih hrest]
    rfl

end Lineage.Text
