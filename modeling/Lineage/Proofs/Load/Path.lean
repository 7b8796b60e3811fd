import Mathlib.Data.String.Basic
import Lineage.Load.Path

/-!
# Splitting paths

The parts of a path are the runs of characters between its slashes (`split_eq`). What reads a path
by byte offsets thus agrees with a split of its characters.
-/

namespace Lineage.Path

open String

/-- With the characters `l` done and the characters `m` of the next part read, the rest `r` is
split as a list. -/
theorem splitOnAux_slash (l m r : List Char) (acc : List String) :
    splitOnAux (ofList (l ++ m ++ r)) "/" ⟨utf8Len l⟩ ⟨utf8Len l + utf8Len m⟩ 0 acc =
      acc.reverse ++ (List.splitOnPPrepend (· == '/') r m.reverse).map ofList := by
  induction r generalizing l m acc with
  | nil =>
    have hend := (atEnd_of_valid (l ++ m) []).2 rfl
    rw [utf8Len_append] at hend
    rw [splitOnAux, if_pos hend, extract_of_valid]
    simp
  | cons c r ih =>
    have hmore := mt (atEnd_of_valid (l ++ m) (c :: r)).1 (List.cons_ne_nil c r)
    have hget := get_of_valid (l ++ m) (c :: r)
    have hnext := next_of_valid (l ++ m) c r
    have hpart := extract_of_valid l m (c :: r)
    rw [utf8Len_append] at hmore hget hnext
    rw [splitOnAux, if_neg hmore, hget]
    have hslash : Pos.Raw.get "/" 0 = '/' := rfl
    by_cases hc : c = '/'
    · subst hc
      have hsep : Pos.Raw.next "/" 0 = ⟨1⟩ := rfl
      have hdone : Pos.Raw.atEnd "/" ⟨1⟩ = true := rfl
      have hback : (Pos.Raw.mk (utf8Len l + utf8Len m + '/'.utf8Size)).unoffsetBy ⟨1⟩ =
        ⟨utf8Len l + utf8Len m⟩ := rfl
      have ih := ih (l ++ m ++ ['/']) [] (ofList m :: acc)
      rw [hslash, List.headD_cons, if_pos (beq_self_eq_true _), hnext, hsep]
      simp only [hdone, if_true]
      rw [hback, hpart, List.splitOnPPrepend_cons_eq_if]
      simpa [Nat.add_assoc] using ih
    · have ih := ih l (m ++ [c]) acc
      rw [hslash, List.headD_cons, if_neg (by simp [hc]), List.splitOnPPrepend_cons_eq_if]
      show splitOnAux _ "/" _ (Pos.Raw.next _ ⟨utf8Len l + utf8Len m⟩) 0 acc = _
      rw [hnext]
      simpa [hc, Nat.add_assoc] using ih

theorem split_eq (s : String) : split s = (s.toList.splitOn '/').map ofList := by
  have h := splitOnAux_slash [] [] s.toList []
  simpa [split, splitOn, List.splitOn] using h

end Lineage.Path
