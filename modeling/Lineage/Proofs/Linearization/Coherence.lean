import Lineage.Proofs.Linearization.Search

/-!
# Memos hold together

A node may be given further parents after it has been linearized. What is memoized for it then need
not follow the rule any more, and what is linearized later is put together from it. Even so, a memo
holds together: each linearization is one of different nodes that are all memoized, and it contains
what is memoized for each of them (`Coherent`).

What makes this last is that a node that is being linearized is not memoized, so no linearization of
a parent can contain it, however stale that is.
-/

namespace Lineage.Linearization

variable {ns : Nodes} {memo after : Memo} {active work : List Nat} {fault : Option HierarchyFault}
  {i : Nat} {l : List Nat}

/-- Each memoized linearization starts with its node and has no repeats, and its elements are
memoized with linearizations that it contains in order. -/
structure Coherent (memo : Memo) : Prop where
  head : ∀ i l, memo.get? i = some l → l.head? = some i
  nodup : ∀ i l, memo.get? i = some l → l.Nodup
  contains : ∀ i l, memo.get? i = some l → ∀ a ∈ l, ∃ m, memo.get? a = some m ∧ m.Sublist l

theorem coherent_empty : Coherent {} := by
  refine ⟨?_, ?_, ?_⟩
  · intro i l h
    cases h
  · intro i l h
    cases h
  · intro i l h
    cases h

namespace Coherent

/-- A node may be memoized in front of different nodes whose linearizations are contained in
order. -/
theorem insert (h : Coherent memo) (hi : memo.has i = false) (hnodup : l.Nodup)
    (hcontains : ∀ a ∈ l, ∃ m, memo.get? a = some m ∧ m.Sublist l) :
    Coherent (memo.insert i (i :: l)) := by
  have hkeep : ∀ {a : Nat} {m : List Nat}, memo.get? a = some m →
      (memo.insert i (i :: l)).get? a = some m := by
    intro a m hm
    rw [Memo.get?_insert, if_neg, hm]
    rintro rfl
    rw [Memo.has_of_get? hm] at hi
    cases hi
  have hnew : i ∉ l := by
    intro hmem
    obtain ⟨m, hm, _⟩ := hcontains i hmem
    rw [Memo.has_of_get? hm] at hi
    cases hi
  have hself : (memo.insert i (i :: l)).get? i = some (i :: l) := by
    rw [Memo.get?_insert, if_pos rfl]
  refine ⟨?_, ?_, ?_⟩
  · intro j k hk
    rw [Memo.get?_insert] at hk
    split at hk
    · rename_i hji
      cases hk
      rw [hji]
      rfl
    · exact h.head j k hk
  · intro j k hk
    rw [Memo.get?_insert] at hk
    split at hk
    · cases hk
      exact List.nodup_cons.2 ⟨hnew, hnodup⟩
    · exact h.nodup j k hk
  · intro j k hk a ha
    rw [Memo.get?_insert] at hk
    split at hk
    · cases hk
      rcases List.mem_cons.1 ha with rfl | ha
      · exact ⟨_, hself, List.Sublist.refl _⟩
      · obtain ⟨m, hm, hsub⟩ := hcontains a ha
        exact ⟨m, hkeep hm, hsub.cons i⟩
    · obtain ⟨m, hm, hsub⟩ := h.contains j k hk a ha
      exact ⟨m, hkeep hm, hsub⟩

/-- A node is put together from what is memoized for its parents. -/
theorem insert_of_combine (h : Coherent memo) (hknown : ∀ p ∈ ns.parents i, memo.has p = true)
    (hi : memo.has i = false) (hl : combine ns memo i = .ok l) : Coherent (memo.insert i l) := by
  rw [combine_eq_merge_of_nodup hknown fun p _ => h.nodup p] at hl
  cases hmerge : merge ((ns.parents i).map fun p => (memo.get? p).getD []) with
  | error stuck =>
    rw [hmerge] at hl
    cases hl
  | ok m =>
    rw [hmerge] at hl
    cases hl
    have hm := merge_eq_ok_iff.1 hmerge
    refine h.insert hi hm.nodup ?_
    intro a ha
    -- the element comes from one of the parents, whose linearization is contained
    obtain ⟨s, hs, ha⟩ := hm.mem_iff.1 ha
    obtain ⟨p, hp, rfl⟩ := List.mem_map.1 hs
    obtain ⟨k, hk, hsub⟩ := h.contains p _ (Memo.get?_of_has (hknown p hp)) a ha
    exact ⟨k, hk, hsub.trans (hm.sublist hs)⟩

end Coherent

namespace Visits

theorem coherent (h : Visits ns active memo work after fault) (hmemo : Coherent memo) :
    Coherent after := by
  induction h with
  | done => exact hmemo
  | known _ _ ih => exact ih hmemo
  | closes _ _ => exact hmemo
  | fails _ _ _ ih => exact ih hmemo
  | blocked _ _ _ _ ih => exact ih hmemo
  | finishes unseen _ above hl _ ihAbove ihRest =>
    exact ihRest ((ihAbove hmemo).insert_of_combine above.parents_known
      (above.unknown_above unseen) hl)

/-- Only nodes are memoized that wait or lie above those. -/
theorem known_in {S : Nat → Prop} (hclosed : ∀ i, S i → ∀ p ∈ ns.parents i, S p)
    (h : Visits ns active memo work after fault) (hwork : ∀ i ∈ work, S i)
    (hmemo : ∀ i, memo.has i = true → S i) : ∀ i, after.has i = true → S i := by
  have hmissing : ∀ (memo : Memo) i, S i → ∀ p ∈ missing ns memo i, S p :=
    fun _ i hi p hp => hclosed i hi p (List.mem_filter.1 hp).1
  induction h with
  | done => exact hmemo
  | known _ _ ih => exact ih (List.forall_mem_cons.1 hwork).2 hmemo
  | closes _ _ => exact hmemo
  | fails _ _ _ ih => exact ih (hmissing _ _ (List.forall_mem_cons.1 hwork).1) hmemo
  | blocked _ _ _ _ ih => exact ih (hmissing _ _ (List.forall_mem_cons.1 hwork).1) hmemo
  | @finishes _ _ i _ between _ l _ _ _ _ _ _ ihAbove ihRest =>
    obtain ⟨hi, hrest⟩ := List.forall_mem_cons.1 hwork
    refine ihRest hrest ?_
    intro k hk
    rw [Memo.has_insert, Bool.or_eq_true, decide_eq_true_eq] at hk
    rcases hk with rfl | hk
    · exact hi
    · exact ihAbove (hmissing _ _ hi) hmemo k hk

end Visits

/-! ## Linearizing a node -/

/-- Linearizing a node visits it with nothing else under way. -/
theorem exists_visits_linearize (ns : Nodes) (memo : Memo) (i : Nat) :
    ∃ fault, Visits ns [] memo [i] (linearize ns memo i).1 fault := by
  obtain ⟨after, fault, hvisits, heq⟩ := linearize_eq_visits ns memo i
  rw [heq]
  cases fault with
  | none => exact ⟨none, hvisits⟩
  | some f => exact ⟨some f, hvisits⟩

theorem Coherent.linearize (h : Coherent memo) (ns : Nodes) (i : Nat) :
    Coherent (linearize ns memo i).1 := by
  obtain ⟨fault, hvisits⟩ := exists_visits_linearize ns memo i
  exact hvisits.coherent h

/-- Linearizing a node memoizes only nodes of a part of the graph that its edges do not leave. -/
theorem has_linearize_in {S : Nat → Prop} (hclosed : ∀ i, S i → ∀ p ∈ ns.parents i, S p)
    (hi : S i) (hmemo : ∀ i, memo.has i = true → S i) :
    ∀ k, (linearize ns memo i).1.has k = true → S k := by
  obtain ⟨fault, hvisits⟩ := exists_visits_linearize ns memo i
  exact hvisits.known_in hclosed (fun k hk => List.mem_singleton.1 hk ▸ hi) hmemo

end Lineage.Linearization
