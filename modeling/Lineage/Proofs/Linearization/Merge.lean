import Lineage.Linearization.Merge
import Lineage.Proofs.Repeats

/-!
# What the C3 merge does

A merge that succeeds takes one free head after the other. `Merges` is this trace as a relation;
it holds exactly where `merge` returns, and every property of the merged list is an induction
over it: the list keeps the order of each sequence, holds their elements and no others, and no
element twice.

A merge does not see sequences that repeat earlier ones, and it commutes with an injective
renaming.
-/

namespace Lineage.Linearization

variable {α β : Type} [DecidableEq α] [DecidableEq β]

/-- The merge of the sequences takes the listed heads one after the other. -/
inductive Merges : List (List α) → List α → Prop where
  /-- Nothing is left to merge. -/
  | done {ls : List (List α)} (h : heads ls = []) : Merges ls []
  /-- The first free head is taken. -/
  | step {ls : List (List α)} {x : α} {l : List α} (h : freeHead? ls = some x)
      (rest : Merges (dropHeads x ls) l) : Merges ls (x :: l)

theorem heads_eq_nil_of_freeHead?_none {ls : List (List α)} (hnone : freeHead? ls = none)
    (hempty : (heads ls).isEmpty = true) : Merges ls [] ∧ merge ls = .ok [] := by
  refine ⟨.done (List.isEmpty_iff.1 hempty), ?_⟩
  rw [merge]
  split
  · rename_i x hx
    rw [hnone] at hx
    cases hx
  · rw [if_pos hempty]

theorem merge_of_freeHead? {ls : List (List α)} {x : α} (h : freeHead? ls = some x) :
    merge ls = (merge (dropHeads x ls)).map (x :: ·) := by
  rw [merge]
  split
  · rename_i y hy
    rw [h] at hy
    cases hy
    cases merge (dropHeads x ls) <;> rfl
  · rename_i hnone
    rw [h] at hnone
    cases hnone

theorem merge_of_blocked {ls : List (List α)} (hnone : freeHead? ls = none)
    (hheads : heads ls ≠ []) : merge ls = .error (heads ls) := by
  rw [merge]
  split
  · rename_i x hx
    rw [hnone] at hx
    cases hx
  · rw [if_neg (by simpa using hheads)]

theorem freeHead?_eq_none_of_heads {ls : List (List α)} (h : heads ls = []) :
    freeHead? ls = none := by
  rw [freeHead?, h]
  rfl

/-- The trace is what the merge returns. -/
theorem merge_eq_ok_iff {ls : List (List α)} {l : List α} : merge ls = .ok l ↔ Merges ls l := by
  constructor
  · intro h
    -- taking a head makes the sequences shorter in total
    induction hn : totalLength ls using Nat.strongRecOn generalizing ls l with
    | ind n ih =>
      cases hfree : freeHead? ls with
      | none =>
        by_cases hheads : heads ls = []
        · obtain ⟨hdone, hok⟩ :=
            heads_eq_nil_of_freeHead?_none hfree (List.isEmpty_iff.2 hheads)
          rw [hok] at h
          cases h
          exact hdone
        · rw [merge_of_blocked hfree hheads] at h
          cases h
      | some x =>
        rw [merge_of_freeHead? hfree] at h
        cases hrest : merge (dropHeads x ls) with
        | error stuck =>
          rw [hrest] at h
          cases h
        | ok rest =>
          rw [hrest] at h
          cases h
          have hlt := totalLength_dropHeads_lt (freeHead?_mem hfree)
          exact .step hfree (ih _ (by omega) hrest rfl)
  · intro h
    induction h with
    | done h =>
      exact (heads_eq_nil_of_freeHead?_none (freeHead?_eq_none_of_heads h) (by rw [h]; rfl)).2
    | step h _ ih =>
      rw [merge_of_freeHead? h, ih]
      rfl

/-- Two traces over the same sequences are the same. -/
theorem Merges.unique {ls : List (List α)} {l m : List α} (hl : Merges ls l) (hm : Merges ls m) :
    l = m := by
  rw [← merge_eq_ok_iff] at hl hm
  rw [hl] at hm
  exact Except.ok.inj hm

/-! ## Order and elements -/

theorem sublist_cons_dropHead (x : α) (s : List α) : s.Sublist (x :: dropHead x s) := by
  cases s with
  | nil => exact List.nil_sublist _
  | cons y t =>
    rw [dropHead]
    split
    · rename_i hy
      rw [hy]
    · exact List.sublist_cons_self x _

theorem dropHead_sublist (x : α) (s : List α) : (dropHead x s).Sublist s := by
  cases s with
  | nil => exact List.Sublist.refl _
  | cons y t =>
    rw [dropHead]
    split
    · exact List.sublist_cons_self y t
    · exact List.Sublist.refl _

/-- A free head is gone once it has been taken. -/
theorem not_mem_dropHead {ls : List (List α)} {x : α} (h : freeHead? ls = some x) {s : List α}
    (hs : s ∈ ls) : x ∉ dropHead x s := by
  have hfree : inTail x ls = false := by
    have hx := List.find?_some h
    simpa using hx
  have htail : x ∉ s.tail := by
    intro hx
    rw [inTail, List.any_eq_false] at hfree
    exact hfree s hs (by simpa using hx)
  cases s with
  | nil => simp [dropHead]
  | cons y t =>
    rw [dropHead]
    split
    · exact htail
    · rename_i hy
      rw [List.mem_cons, not_or]
      exact ⟨Ne.symm hy, htail⟩

namespace Merges

variable {ls : List (List α)} {l : List α}

/-- The merged list keeps the order of every sequence. -/
theorem sublist (h : Merges ls l) {s : List α} (hs : s ∈ ls) : s.Sublist l := by
  induction h generalizing s with
  | @done ls h =>
    cases s with
    | nil => exact List.Sublist.refl _
    | cons y t =>
      have hy : y ∈ heads ls := List.mem_filterMap.2 ⟨y :: t, hs, rfl⟩
      rw [h] at hy
      cases hy
  | @step ls x l _ _ ih =>
    have hrest : (dropHead x s).Sublist l := ih (List.mem_map_of_mem hs)
    exact (sublist_cons_dropHead x s).trans (hrest.cons_cons x)

/-- The merged list holds what some sequence holds. -/
theorem mem_iff (h : Merges ls l) {x : α} : x ∈ l ↔ ∃ s ∈ ls, x ∈ s := by
  constructor
  · intro hx
    induction h with
    | done _ => cases hx
    | @step ls y l hy _ ih =>
      rcases List.mem_cons.1 hx with rfl | hx
      · obtain ⟨s, hs, hhead⟩ := List.mem_filterMap.1 (freeHead?_mem hy)
        exact ⟨s, hs, List.mem_of_mem_head? hhead⟩
      · obtain ⟨t, ht, hxt⟩ := ih hx
        obtain ⟨s, hs, rfl⟩ := List.mem_map.1 ht
        exact ⟨s, hs, (dropHead_sublist y s).subset hxt⟩
  · rintro ⟨s, hs, hx⟩
    exact (h.sublist hs).subset hx

theorem nodup (h : Merges ls l) : l.Nodup := by
  induction h with
  | done _ => exact List.nodup_nil
  | @step ls x l hx hrest ih =>
    rw [List.nodup_cons]
    refine ⟨?_, ih⟩
    intro hmem
    obtain ⟨t, ht, hxt⟩ := hrest.mem_iff.1 hmem
    obtain ⟨s, hs, rfl⟩ := List.mem_map.1 ht
    exact not_mem_dropHead hx hs hxt

end Merges

/-! ## A single sequence -/

/-- A single sequence without repeats is its own merge. -/
theorem merges_singleton {l : List α} (h : l.Nodup) : Merges [l] l := by
  induction l with
  | nil => exact .done rfl
  | cons x l ih =>
    rw [List.nodup_cons] at h
    have hfree : freeHead? [x :: l] = some x := by
      simp [freeHead?, heads, inTail, h.1]
    refine .step hfree ?_
    simpa [dropHeads, dropHead] using ih h.2

theorem merges_nil : Merges ([] : List (List α)) [] := .done rfl

/-! ## Repeated sequences -/

section Repeats

variable {ls ls' : List (List α)}

theorem inTail_congr (h : SameFirsts ls ls') (x : α) : inTail x ls = inTail x ls' := by
  rw [Bool.eq_iff_iff, inTail, inTail, List.any_eq_true, List.any_eq_true]
  simp only [h.mem_iff]

theorem freeHead?_congr (h : SameFirsts ls ls') : freeHead? ls = freeHead? ls' := by
  rw [freeHead?, freeHead?]
  simp only [inTail_congr h]
  exact (h.filterMap List.head?).find? _

/-- Sequences that repeat earlier ones do not change a merge. -/
theorem Merges.congr {l : List α} (h : SameFirsts ls ls') (hl : Merges ls l) : Merges ls' l := by
  induction hl generalizing ls' with
  | done hheads => exact .done ((h.filterMap List.head?).eq_nil_iff.1 hheads)
  | @step ls x l hfree _ ih =>
    rw [freeHead?_congr h] at hfree
    exact .step hfree (ih (h.map (dropHead x)))

end Repeats

/-! ## Renamings -/

section Renaming

variable {ls : List (List α)} {f : α → β}

/-- The renaming tells apart what the sequences hold. -/
def Separates (f : α → β) (ls : List (List α)) : Prop :=
  ∀ s ∈ ls, ∀ t ∈ ls, ∀ x ∈ s, ∀ y ∈ t, f x = f y → x = y

omit [DecidableEq β] in
theorem Separates.dropHeads (h : Separates f ls) (x : α) : Separates f (dropHeads x ls) := by
  intro s' hs' t' ht' y hy z hz
  obtain ⟨s, hs, rfl⟩ := List.mem_map.1 hs'
  obtain ⟨t, ht, rfl⟩ := List.mem_map.1 ht'
  exact h s hs t ht y ((dropHead_sublist x s).subset hy) z ((dropHead_sublist x t).subset hz)

omit [DecidableEq α] [DecidableEq β] in
theorem heads_map (ls : List (List α)) (f : α → β) :
    heads (ls.map (List.map f)) = (heads ls).map f := by
  rw [heads, heads, List.filterMap_map, List.map_filterMap]
  congr 1
  funext s
  cases s <;> rfl

theorem inTail_map (h : Separates f ls) {x : α} (hx : x ∈ heads ls) :
    inTail (f x) (ls.map (List.map f)) = inTail x ls := by
  obtain ⟨s, hs, hhead⟩ := List.mem_filterMap.1 hx
  have hxs : x ∈ s := List.mem_of_mem_head? hhead
  rw [inTail, inTail, List.any_map, Bool.eq_iff_iff, List.any_eq_true, List.any_eq_true]
  simp only [Function.comp_apply, ← List.map_tail, List.contains_iff_mem, List.mem_map]
  constructor
  · rintro ⟨t, ht, y, hy, hyx⟩
    rw [h t ht s hs y (List.mem_of_mem_tail hy) x hxs hyx] at hy
    exact ⟨t, ht, hy⟩
  · rintro ⟨t, ht, hxt⟩
    exact ⟨t, ht, x, hxt, rfl⟩

theorem freeHead?_map (h : Separates f ls) :
    freeHead? (ls.map (List.map f)) = (freeHead? ls).map f := by
  rw [freeHead?, freeHead?, heads_map, List.find?_map]
  congr 1
  rw [← List.head?_filter, ← List.head?_filter]
  congr 1
  apply List.filter_congr
  intro x hx
  rw [Function.comp_apply, inTail_map h hx]

theorem dropHeads_map (h : Separates f ls) {x : α} (hx : x ∈ heads ls) :
    dropHeads (f x) (ls.map (List.map f)) = (dropHeads x ls).map (List.map f) := by
  obtain ⟨s, hs, hhead⟩ := List.mem_filterMap.1 hx
  have hxs : x ∈ s := List.mem_of_mem_head? hhead
  rw [dropHeads, dropHeads, List.map_map, List.map_map]
  apply List.map_congr_left
  intro t ht
  cases t with
  | nil => rfl
  | cons y t =>
    have hyx : f y = f x ↔ y = x :=
      ⟨h (y :: t) ht s hs y List.mem_cons_self x hxs, congrArg f⟩
    simp only [Function.comp_apply, List.map_cons, dropHead, hyx]
    split <;> rfl

/-- A merge commutes with a renaming that tells the elements apart. -/
theorem Merges.map {l : List α} (h : Separates f ls) (hl : Merges ls l) :
    Merges (ls.map (List.map f)) (l.map f) := by
  induction hl with
  | done hheads => exact .done (by rw [heads_map, hheads]; rfl)
  | @step ls x l hfree _ ih =>
    refine .step (by rw [freeHead?_map h, hfree]; rfl) ?_
    rw [dropHeads_map h (freeHead?_mem hfree)]
    exact ih (h.dropHeads x)

/-- Every merge of renamed sequences comes from a merge of the sequences. -/
theorem Merges.of_map {m : List β} (h : Separates f ls) (hm : Merges (ls.map (List.map f)) m) :
    ∃ l, Merges ls l ∧ m = l.map f := by
  induction hn : totalLength ls using Nat.strongRecOn generalizing ls m with
  | ind n ih =>
    cases hm with
    | done hheads =>
      rw [heads_map, List.map_eq_nil_iff] at hheads
      exact ⟨[], .done hheads, rfl⟩
    | @step _ y m hfree hrest =>
      rw [freeHead?_map h, Option.map_eq_some_iff] at hfree
      obtain ⟨x, hx, rfl⟩ := hfree
      rw [dropHeads_map h (freeHead?_mem hx)] at hrest
      have hlt := totalLength_dropHeads_lt (freeHead?_mem hx)
      obtain ⟨l, hl, rfl⟩ := ih _ (by omega) (h.dropHeads x) hrest rfl
      exact ⟨x :: l, .step hx hl, rfl⟩

end Renaming

end Lineage.Linearization
