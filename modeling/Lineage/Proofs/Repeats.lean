import Mathlib.Data.List.Nodup

/-!
# Lists up to repeats

Where a list is only ever searched from the front, an entry that repeats an earlier one has no
effect. This file collects what holds of lists that agree once their repeats are erased: the
first occurrences are the same, in the same order.

The induction behind every proof is the recursion of `List.eraseDups`: the head stays, and the
rest is erased without the copies of the head.
-/

namespace Lineage

variable {α β : Type} [BEq α] [BEq β]

/-- Induction on a list from which the copies of the head are taken before going on. -/
@[elab_as_elim]
theorem withoutCopies_induction {motive : List α → Prop} (nil : motive [])
    (cons : ∀ a l, motive (l.filter fun b => !b == a) → motive (a :: l)) : ∀ l, motive l
  | [] => nil
  | a :: l => cons a l (withoutCopies_induction nil cons _)
termination_by l => l.length
decreasing_by exact Nat.lt_succ_of_le (List.length_filter_le _ _)

/-- Two lists have the same first occurrences in the same order. -/
def SameFirsts (l m : List α) : Prop :=
  l.eraseDups = m.eraseDups

namespace SameFirsts

@[refl] theorem refl (l : List α) : SameFirsts l l := rfl

theorem symm {l m : List α} (h : SameFirsts l m) : SameFirsts m l := Eq.symm h

theorem trans {l m n : List α} (h : SameFirsts l m) (h' : SameFirsts m n) : SameFirsts l n :=
  Eq.trans h h'

end SameFirsts

/-! ## Erasing repeats -/

variable [LawfulBEq α] [LawfulBEq β]

theorem nodup_eraseDups (l : List α) : l.eraseDups.Nodup := by
  induction l using withoutCopies_induction with
  | nil => exact List.nodup_nil
  | cons a l ih =>
    rw [List.eraseDups_cons, List.nodup_cons]
    refine ⟨?_, ih⟩
    intro ha
    rw [List.mem_eraseDups, List.mem_filter] at ha
    simp at ha

theorem eraseDups_of_nodup {l : List α} (h : l.Nodup) : l.eraseDups = l := by
  induction l with
  | nil => rfl
  | cons a l ih =>
    rw [List.nodup_cons] at h
    have hl : (l.filter fun b => !b == a) = l := by
      rw [List.filter_eq_self]
      intro b hb
      simpa using ne_of_mem_of_not_mem hb h.1
    rw [List.eraseDups_cons, hl, ih h.2]

theorem eraseDups_filter (p : α → Bool) (l : List α) :
    (l.filter p).eraseDups = l.eraseDups.filter p := by
  induction l using withoutCopies_induction with
  | nil => rfl
  | cons a l ih =>
    have hswap : ((l.filter p).filter fun b => !b == a) = (l.filter fun b => !b == a).filter p := by
      rw [List.filter_filter, List.filter_filter]
      simp only [Bool.and_comm]
    rw [List.eraseDups_cons]
    by_cases ha : p a = true
    · rw [List.filter_cons_of_pos ha, List.filter_cons_of_pos ha, List.eraseDups_cons, hswap, ih]
    · -- the copies of the head fail the test as well
      have hl : (l.filter p) = (l.filter fun b => !b == a).filter p := by
        rw [List.filter_filter]
        apply List.filter_congr
        intro b _
        by_cases hb : b = a
        · subst hb
          simp [ha]
        · simp [hb]
      rw [List.filter_cons_of_neg ha, List.filter_cons_of_neg ha, hl, ih]

/-! ## Operations on lists with the same first occurrences -/

namespace SameFirsts

theorem eraseDups_left (l : List α) : SameFirsts l.eraseDups l :=
  eraseDups_of_nodup (nodup_eraseDups l)

theorem mem_iff {l m : List α} (h : SameFirsts l m) (a : α) : a ∈ l ↔ a ∈ m := by
  rw [← List.mem_eraseDups, h, List.mem_eraseDups]

theorem eq_nil_iff {l m : List α} (h : SameFirsts l m) : l = [] ↔ m = [] := by
  simp only [List.eq_nil_iff_forall_not_mem, h.mem_iff]

theorem filter {l m : List α} (h : SameFirsts l m) (p : α → Bool) :
    SameFirsts (l.filter p) (m.filter p) := by
  rw [SameFirsts, eraseDups_filter, eraseDups_filter, h]

theorem append {l l' m m' : List α} (hl : SameFirsts l l') (hm : SameFirsts m m') :
    SameFirsts (l ++ m) (l' ++ m') := by
  have hrest : m.removeAll l = m.removeAll l' := by
    apply List.filter_congr
    intro b _
    simp only [List.elem_eq_mem, hl.mem_iff]
  rw [SameFirsts, List.eraseDups_append, List.eraseDups_append, hl, hrest]
  congr 1
  exact hm.filter _

/-- What a list holds already may be left out behind it. -/
theorem append_of_subset {l m : List α} (h : m ⊆ l) : SameFirsts (l ++ m) l := by
  have hrest : m.removeAll l = [] := by
    rw [List.removeAll, List.filter_eq_nil_iff]
    intro b hb
    simp [h hb]
  rw [SameFirsts, List.eraseDups_append, hrest, List.eraseDups_nil, List.append_nil]

omit [BEq α] [LawfulBEq α] in
/-- Lists that are put in for the entries need to agree up to repeats only. -/
theorem flatMap_congr {l : List α} {f g : α → List β} (h : ∀ a ∈ l, SameFirsts (f a) (g a)) :
    SameFirsts (l.flatMap f) (l.flatMap g) := by
  induction l with
  | nil => rfl
  | cons a l ih =>
    rw [List.flatMap_cons, List.flatMap_cons]
    exact append (h a List.mem_cons_self) (ih fun b hb => h b (List.mem_cons_of_mem a hb))

/-- Erasing repeats first has no effect on what is put in for the entries. -/
theorem flatMap_eraseDups (l : List α) (f : α → List β) :
    SameFirsts (l.eraseDups.flatMap f) (l.flatMap f) := by
  induction l using withoutCopies_induction with
  | nil => rfl
  | cons a l ih =>
    rw [List.eraseDups_cons, List.flatMap_cons, List.flatMap_cons]
    refine (append (refl (f a)) ih).trans ?_
    -- both sides are cut down to the entries that are not in `f a`
    clear ih
    rw [SameFirsts, List.eraseDups_append, List.eraseDups_append]
    congr 2
    induction l with
    | nil => rfl
    | cons b l ih =>
      by_cases hb : b = a
      · subst hb
        have hgone : (f b).removeAll (f b) = [] := by
          rw [List.removeAll, List.filter_eq_nil_iff]
          intro c hc
          simp [hc]
        rw [List.filter_cons_of_neg (by simp), ih, List.flatMap_cons]
        simp only [List.removeAll, List.filter_append] at hgone ⊢
        rw [hgone, List.nil_append]
      · rw [List.filter_cons_of_pos (by simpa using hb), List.flatMap_cons, List.flatMap_cons]
        simp only [List.removeAll, List.filter_append] at ih ⊢
        rw [ih]

theorem flatMap {l m : List α} (h : SameFirsts l m) (f : α → List β) :
    SameFirsts (l.flatMap f) (m.flatMap f) := by
  have hl := (flatMap_eraseDups l f).symm
  rw [h] at hl
  exact hl.trans (flatMap_eraseDups m f)

theorem map {l m : List α} (h : SameFirsts l m) (f : α → β) :
    SameFirsts (l.map f) (m.map f) := by
  simpa only [List.flatMap_singleton', List.map_eq_flatMap] using h.flatMap fun a => [f a]

theorem filterMap {l m : List α} (h : SameFirsts l m) (f : α → Option β) :
    SameFirsts (l.filterMap f) (m.filterMap f) := by
  simpa only [List.filterMap_eq_flatMap_toList] using h.flatMap fun a => (f a).toList

/-- A search from the front finds the same entry. -/
theorem find? {l m : List α} (h : SameFirsts l m) (p : α → Bool) : l.find? p = m.find? p := by
  have herase : ∀ l : List α, l.eraseDups.find? p = l.find? p := by
    intro l
    induction l using withoutCopies_induction with
    | nil => rfl
    | cons a l ih =>
      rw [List.eraseDups_cons, List.find?_cons, List.find?_cons, ih]
      cases ha : p a with
      | true => rfl
      | false =>
        rw [List.find?_filter]
        show l.find? _ = l.find? p
        congr 1
        funext b
        by_cases hb : b = a
        · subst hb
          simp [ha]
        · simp [hb]
  rw [← herase l, h, herase m]

end SameFirsts

/-- An injective renaming commutes with erasing repeats. -/
theorem eraseDups_map_of_injOn {l : List α} {f : α → β}
    (h : ∀ a ∈ l, ∀ b ∈ l, f a = f b → a = b) : (l.map f).eraseDups = l.eraseDups.map f := by
  induction l using withoutCopies_induction with
  | nil => rfl
  | cons a l ih =>
    have hrest : ((l.map f).filter fun b => !b == f a) = (l.filter fun b => !b == a).map f := by
      rw [List.filter_map]
      congr 1
      apply List.filter_congr
      intro b hb
      have hab : f b = f a ↔ b = a :=
        ⟨h b (List.mem_cons_of_mem a hb) a List.mem_cons_self, congrArg f⟩
      simp only [Function.comp_apply]
      by_cases hba : b = a
      · simp [hba]
      · simp [hba, hab]
    have hsub : ∀ b ∈ l.filter (fun b => !b == a), b ∈ a :: l := fun b hb =>
      List.mem_cons_of_mem a (List.mem_filter.1 hb).1
    rw [List.map_cons, List.eraseDups_cons, List.eraseDups_cons, List.map_cons, hrest,
      ih fun b hb c hc => h b (hsub b hb) c (hsub c hc)]

end Lineage
