import Lineage.Linearization.Search
import Lineage.Proofs.Linearization.Cause

/-!
# The search finds what the C3 rule gives

The search keeps its place on an explicit stack on which nodes wait, nodes under way are met again
and nodes finished meanwhile lie stale. `Visits` is the same search as a recursion: it takes the
nodes that wait one after the other and, for each, first those of its parents that are missing.
`run_eq_visits` ties the two together. Every property of a search is an induction over `Visits`:

* nothing memoized is lost, and the nodes under way are not memoized behind the search's back;
* what is memoized follows the rule, if all that was memoized before does, and this also holds of
  the nodes above which it does (`Visits.followsOn`);
* the fault is the one that there is a cause for, so it names the culprit.

The last theorem puts this together: whatever has been memoized, a node is linearized as the rule
says, and fails where the rule gives nothing.
-/

open Relation (TransGen ReflTransGen)

namespace Lineage.Linearization

variable {ns : Nodes} {memo after : Memo} {active work : List Nat} {fault : Option HierarchyFault}

/-- Every linearization that is memoized follows the rule. -/
def Follows (ns : Nodes) (memo : Memo) : Prop :=
  ∀ i l, memo.get? i = some l → Linearizes ns.parents i l

/-- The linearizations that are memoized for the nodes in `S` follow the rule. -/
def FollowsOn (S : Nat → Prop) (ns : Nodes) (memo : Memo) : Prop :=
  ∀ i, S i → ∀ l, memo.get? i = some l → Linearizes ns.parents i l

/-- The node is neither memoized nor under way. -/
structure Unseen (active : List Nat) (memo : Memo) (i : Nat) : Prop where
  unknown : memo.has i = false
  inactive : i ∉ active

/-- No missing parent is under way, the node itself included. -/
def Open (ns : Nodes) (active : List Nat) (memo : Memo) (i : Nat) : Prop :=
  closing? ns ⟨[], active, memo⟩ i = none

theorem Open.inactive {i : Nat} (h : Open ns active memo i) :
    ∀ p ∈ missing ns memo i, p ∉ i :: active := by
  intro p hp hactive
  rw [Open, closing?, List.find?_eq_none] at h
  exact h p (List.mem_reverse.2 hp) (List.contains_iff_mem.2 hactive)

/-- The parent that closes a cycle is a missing one, and it is under way. -/
theorem mem_of_closing? {i p : Nat} (h : closing? ns ⟨[], active, memo⟩ i = some p) :
    p ∈ missing ns memo i ∧ p ∈ i :: active :=
  ⟨List.mem_reverse.1 (List.mem_of_find?_eq_some h), by simpa using List.find?_some h⟩

/-- The search as a recursion: with the `active` nodes under way, the nodes that wait are visited
in order. This leaves the last memo behind, and a fault if one was met. -/
inductive Visits (ns : Nodes) :
    List Nat → Memo → List Nat → Memo → Option HierarchyFault → Prop where
  | done {active : List Nat} {memo : Memo} : Visits ns active memo [] memo none
  /-- The node is known. -/
  | known {active : List Nat} {memo : Memo} {i : Nat} {work : List Nat} {after : Memo}
      {fault : Option HierarchyFault} (h : memo.has i = true)
      (rest : Visits ns active memo work after fault) :
      Visits ns active memo (i :: work) after fault
  /-- A missing parent is under way. -/
  | closes {active : List Nat} {memo : Memo} {i p : Nat} {work : List Nat}
      (unseen : Unseen active memo i) (h : closing? ns ⟨[], active, memo⟩ i = some p) :
      Visits ns active memo (i :: work) memo (some (.cycle p i))
  /-- A missing parent, or what lies above it, is at fault. -/
  | fails {active : List Nat} {memo : Memo} {i : Nat} {work : List Nat} {after : Memo}
      {f : HierarchyFault} (unseen : Unseen active memo i) (clear : Open ns active memo i)
      (above : Visits ns (i :: active) memo (missing ns memo i) after (some f)) :
      Visits ns active memo (i :: work) after (some f)
  /-- The linearizations of the parents cannot be merged. -/
  | blocked {active : List Nat} {memo : Memo} {i : Nat} {work : List Nat} {after : Memo}
      {f : HierarchyFault} (unseen : Unseen active memo i) (clear : Open ns active memo i)
      (above : Visits ns (i :: active) memo (missing ns memo i) after none)
      (h : combine ns after i = .error f) : Visits ns active memo (i :: work) after (some f)
  /-- The node is linearized. -/
  | finishes {active : List Nat} {memo : Memo} {i : Nat} {work : List Nat} {between after : Memo}
      {l : List Nat} {fault : Option HierarchyFault} (unseen : Unseen active memo i)
      (clear : Open ns active memo i)
      (above : Visits ns (i :: active) memo (missing ns memo i) between none)
      (h : combine ns between i = .ok l)
      (rest : Visits ns active (between.insert i l) work after fault) :
      Visits ns active memo (i :: work) after fault

/-! ## Turns of the search -/

section Turns

variable {i : Nat} (rest : List Nat)

theorem run_nil (active : List Nat) (memo : Memo) : run ns ⟨[], active, memo⟩ = (memo, none) := by
  rw [run]

theorem run_of_turn_ok {t : Search} (h : turn ns ⟨i :: rest, active, memo⟩ i rest = .ok t) :
    run ns ⟨i :: rest, active, memo⟩ = run ns t := by
  rw [run]
  simp only
  split
  · rename_i u hu
    rw [h] at hu
    cases hu
    rfl
  · rename_i f hf
    rw [h] at hf
    cases hf

theorem run_of_turn_error {f : HierarchyFault}
    (h : turn ns ⟨i :: rest, active, memo⟩ i rest = .error f) :
    run ns ⟨i :: rest, active, memo⟩ = (memo, some f) := by
  rw [run]
  simp only
  split
  · rename_i u hu
    rw [h] at hu
    cases hu
  · rename_i g hg
    rw [h] at hg
    cases hg
    rfl

theorem turn_known (h : memo.has i = true) :
    turn ns ⟨i :: rest, active, memo⟩ i rest = .ok ⟨rest, active, memo⟩ := by
  rw [turn, if_pos h]

/-- A node that was not under way and has missing parents is started. -/
theorem turn_starts (unseen : Unseen active memo i) (hmissing : missing ns memo i ≠ []) :
    turn ns ⟨i :: rest, active, memo⟩ i rest =
      match closing? ns ⟨[], active, memo⟩ i with
      | some p => .error (.cycle p i)
      | none => .ok ⟨missing ns memo i ++ i :: rest, i :: active, memo⟩ := by
  have hknown : ¬ memo.has i = true := by simp [unseen.unknown]
  have hnew : (!active.contains i && !(missing ns memo i).isEmpty) = true := by
    simp [unseen.inactive, hmissing]
  rw [turn, if_neg hknown]
  simp only
  rw [if_pos hnew]
  rfl

/-- A node whose parents are all known, or that comes up again, is linearized. -/
theorem turn_combines (hknown : memo.has i = false)
    (hready : missing ns memo i = [] ∨ i ∈ active) :
    turn ns ⟨i :: rest, active, memo⟩ i rest =
      match combine ns memo i with
      | .ok l => .ok ⟨rest, active.erase i, memo.insert i l⟩
      | .error f => .error f := by
  have hknown' : ¬ memo.has i = true := by simp [hknown]
  have hold : ¬ (!active.contains i && !(missing ns memo i).isEmpty) = true := by
    rcases hready with h | h <;> simp [h]
  unfold turn
  cases hcombine : combine ns memo i <;> simp only [if_neg hknown', if_neg hold]

theorem run_of_ready (hknown : memo.has i = false)
    (hready : missing ns memo i = [] ∨ i ∈ active) :
    run ns ⟨i :: rest, active, memo⟩ =
      match combine ns memo i with
      | .ok l => run ns ⟨rest, active.erase i, memo.insert i l⟩
      | .error f => (memo, some f) := by
  have hturn := turn_combines rest hknown hready
  cases hcombine : combine ns memo i with
  | ok l =>
    rw [hcombine] at hturn
    exact run_of_turn_ok rest hturn
  | error f =>
    rw [hcombine] at hturn
    exact run_of_turn_error rest hturn

theorem freshCount_le (ns : Nodes) (active stack stack' : List Nat)
    (h : ∀ k, memo.has k = true → after.has k = true) :
    freshCount ns ⟨stack, active, after⟩ ≤ freshCount ns ⟨stack', active, memo⟩ := by
  apply List.countP_mono_left
  intro k _ hk
  simp only [fresh, Bool.and_eq_true, Bool.not_eq_true'] at hk ⊢
  refine ⟨?_, hk.2⟩
  rw [Bool.eq_false_iff] at hk ⊢
  exact fun hmemo => hk.1 (h k hmemo)

/-- Starting a node with missing parents leaves one fresh node less. -/
theorem freshCount_start_lt (stack stack' : List Nat) (unseen : Unseen active memo i)
    (clear : Open ns active memo i) (hmissing : missing ns memo i ≠ []) :
    freshCount ns ⟨stack, i :: active, memo⟩ < freshCount ns ⟨stack', active, memo⟩ := by
  have hturn := turn_starts [] unseen hmissing
  rw [clear] at hturn
  rcases turn_decreases rfl hturn with hlt | ⟨_, hlen⟩
  · exact hlt
  · -- the stack has grown, so the progress cannot lie there
    simp only [List.length_append, List.length_cons] at hlen
    omega

end Turns

/-! ## What a visit keeps -/

namespace Visits

/-- The nodes under way are not memoized while other nodes are visited. -/
theorem frame (h : Visits ns active memo work after fault) {k : Nat} (hk : k ∈ active) :
    after.get? k = memo.get? k := by
  induction h with
  | done => rfl
  | known _ _ ih => exact ih hk
  | closes _ _ => rfl
  | fails _ _ _ ih => exact ih (List.mem_cons_of_mem _ hk)
  | blocked _ _ _ _ ih => exact ih (List.mem_cons_of_mem _ hk)
  | @finishes active memo i _ between _ l _ unseen _ _ _ _ ihAbove ihRest =>
    have hne : k ≠ i := by
      rintro rfl
      exact unseen.inactive hk
    rw [ihRest hk, Memo.get?_insert, if_neg hne, ihAbove (List.mem_cons_of_mem _ hk)]

/-- The node that is visited is not memoized before it is linearized. -/
theorem unknown_above {i : Nat} (unseen : Unseen active memo i)
    (h : Visits ns (i :: active) memo work after fault) : after.has i = false := by
  rw [Memo.has, h.frame List.mem_cons_self]
  exact unseen.unknown

/-- What is memoized stays memoized. -/
theorem grows (h : Visits ns active memo work after fault) {k : Nat} {l : List Nat}
    (hk : memo.get? k = some l) : after.get? k = some l := by
  induction h with
  | done => exact hk
  | known _ _ ih => exact ih hk
  | closes _ _ => exact hk
  | fails _ _ _ ih => exact ih hk
  | blocked _ _ _ _ ih => exact ih hk
  | @finishes _ _ i _ between _ _ _ unseen _ above _ _ ihAbove ihRest =>
    have hne : k ≠ i := by
      rintro rfl
      have hunknown := above.unknown_above unseen
      rw [Memo.has_of_get? (ihAbove hk)] at hunknown
      cases hunknown
    refine ihRest ?_
    rw [Memo.get?_insert, if_neg hne]
    exact ihAbove hk

theorem has_mono (h : Visits ns active memo work after fault) {k : Nat} (hk : memo.has k = true) :
    after.has k = true := by
  obtain ⟨l, hl⟩ := Option.isSome_iff_exists.1 hk
  exact Memo.has_of_get? (h.grows hl)

/-- A visit without a fault leaves every node known that waited. -/
theorem known_of_mem (h : Visits ns active memo work after fault) (hfault : fault = none) {k : Nat}
    (hk : k ∈ work) : after.has k = true := by
  induction h with
  | done => cases hk
  | known hi rest ih =>
    rcases List.mem_cons.1 hk with rfl | hk
    · exact rest.has_mono hi
    · exact ih hfault hk
  | closes _ _ => cases hfault
  | fails _ _ _ _ => cases hfault
  | blocked _ _ _ _ _ => cases hfault
  | @finishes _ _ i _ _ _ l _ _ _ _ _ rest _ ihRest =>
    rcases List.mem_cons.1 hk with rfl | hk
    · refine rest.has_mono ?_
      simp [Memo.has_insert]
    · exact ihRest hfault hk

/-- Once the missing parents have been visited, every parent is known. -/
theorem parents_known {i : Nat} (h : Visits ns active memo (missing ns memo i) after none) :
    ∀ p ∈ ns.parents i, after.has p = true := by
  intro p hp
  by_cases hknown : memo.has p = true
  · exact h.has_mono hknown
  · refine h.known_of_mem rfl (List.mem_filter.2 ⟨hp, ?_⟩)
    simpa using hknown

end Visits

/-! ## The stack and the recursion -/

/-- What becomes of the search once the nodes on top of its stack have been visited: it goes on with
what lies below them, unless a fault was met. -/
def resume (ns : Nodes) (rest active : List Nat) (after : Memo) :
    Option HierarchyFault → Memo × Option HierarchyFault
  | none => run ns ⟨rest, active, after⟩
  | some f => (after, some f)

/-- A node that is started has its missing parents visited, and is then combined. -/
theorem run_of_started {i : Nat} {rest : List Nat} (unseen : Unseen active memo i)
    (clear : Open ns active memo i)
    (hparents : missing ns memo i ≠ [] → ∃ between fault,
      Visits ns (i :: active) memo (missing ns memo i) between fault ∧
        run ns ⟨missing ns memo i ++ i :: rest, i :: active, memo⟩ =
          resume ns (i :: rest) (i :: active) between fault) :
    ∃ between fault, Visits ns (i :: active) memo (missing ns memo i) between fault ∧
      run ns ⟨i :: rest, active, memo⟩ =
        match fault, combine ns between i with
        | some f, _ => (between, some f)
        | none, .error f => (between, some f)
        | none, .ok l => run ns ⟨rest, active, between.insert i l⟩ := by
  by_cases hmissing : missing ns memo i = []
  · -- no parent is missing, so the node is combined in the same turn
    have hready : run ns ⟨i :: rest, active, memo⟩ = _ :=
      run_of_ready rest unseen.unknown (Or.inl hmissing)
    rw [List.erase_of_not_mem unseen.inactive] at hready
    refine ⟨memo, none, by rw [hmissing]; exact .done, ?_⟩
    rw [hready]
    cases combine ns memo i <;> rfl
  · obtain ⟨between, fault, habove, hrun⟩ := hparents hmissing
    have hturn := turn_starts rest unseen hmissing
    rw [clear] at hturn
    refine ⟨between, fault, habove, ?_⟩
    rw [run_of_turn_ok rest hturn, hrun]
    cases fault with
    | some f => rfl
    | none =>
      -- the node comes up again, with all its parents known
      have hready := run_of_ready rest (habove.unknown_above unseen)
        (Or.inr List.mem_cons_self : missing ns between i = [] ∨ i ∈ i :: active)
      rw [List.erase_cons_head] at hready
      show run ns ⟨i :: rest, i :: active, between⟩ = _
      rw [hready]
      cases combine ns between i <;> rfl

/-- The search with some nodes on top of its stack visits these nodes; then it goes on with what
lies below them, unless it met a fault. -/
theorem run_eq_visits (ns : Nodes) (active : List Nat) (memo : Memo) (work rest : List Nat)
    (hwork : ∀ i ∈ work, i ∈ active → memo.has i = true) :
    ∃ after fault, Visits ns active memo work after fault ∧
      run ns ⟨work ++ rest, active, memo⟩ = resume ns rest active after fault := by
  -- each visit leaves a fresh node less, or as many and a shorter stack
  match work with
  | [] => exact ⟨memo, none, .done, rfl⟩
  | i :: work =>
    have hrest : ∀ j ∈ work, j ∈ active → memo.has j = true :=
      fun j hj => hwork j (List.mem_cons_of_mem i hj)
    by_cases hknown : memo.has i = true
    · obtain ⟨after, fault, hvisits, hrun⟩ := run_eq_visits ns active memo work rest hrest
      have hturn : turn ns ⟨i :: (work ++ rest), active, memo⟩ i (work ++ rest) = _ :=
        turn_known (work ++ rest) hknown
      exact ⟨after, fault, .known hknown hvisits, (run_of_turn_ok _ hturn).trans hrun⟩
    · have unseen : Unseen active memo i :=
        ⟨by simpa using hknown, fun hi => hknown (hwork i List.mem_cons_self hi)⟩
      cases hclosing : closing? ns ⟨[], active, memo⟩ i with
      | some p =>
        have hmissing : missing ns memo i ≠ [] := by
          intro hnil
          rw [closing?, hnil] at hclosing
          cases hclosing
        have hturn := turn_starts (work ++ rest) unseen hmissing
        rw [hclosing] at hturn
        exact ⟨memo, some (.cycle p i), .closes unseen hclosing, run_of_turn_error _ hturn⟩
      | none =>
        have hinactive : ∀ p ∈ missing ns memo i, p ∈ i :: active → memo.has p = true :=
          fun p hp hactive => absurd hactive (Open.inactive hclosing p hp)
        obtain ⟨between, fault, habove, hrun⟩ :=
          run_of_started unseen hclosing fun hmissing =>
            have hlt := freshCount_start_lt [] [] unseen hclosing hmissing
            run_eq_visits ns (i :: active) memo (missing ns memo i) (i :: (work ++ rest)) hinactive
        cases fault with
        | some f => exact ⟨between, some f, .fails unseen hclosing habove, hrun⟩
        | none =>
          cases hcombine : combine ns between i with
          | error f =>
            rw [hcombine] at hrun
            exact ⟨between, some f, .blocked unseen hclosing habove hcombine, hrun⟩
          | ok l =>
            rw [hcombine] at hrun
            have hmono : ∀ k, memo.has k = true → (between.insert i l).has k = true := by
              intro k hk
              rw [Memo.has_insert, habove.has_mono hk, Bool.or_true]
            have hle := freshCount_le ns active [] [] hmono
            obtain ⟨after, fault, hvisits, hrun'⟩ := run_eq_visits ns active (between.insert i l)
              work rest fun j hj hactive => hmono j (hrest j hj hactive)
            exact ⟨after, fault, .finishes unseen hclosing habove hcombine hvisits,
              hrun.trans hrun'⟩
termination_by (freshCount ns ⟨[], active, memo⟩, work.length)
decreasing_by
  · exact Prod.Lex.right _ (Nat.lt_succ_self _)
  · exact Prod.Lex.left _ _ hlt
  · exact Prod.Lex.right' _ hle (Nat.lt_succ_self _)

/-! ## What is found follows the rule -/

section Rule

variable {i : Nat} {l : List Nat}

/-- The shortcuts for no parent and for one parent give what the merge would, unless the only parent
is memoized with repeats. -/
theorem combine_eq_merge_of_nodup (hknown : ∀ p ∈ ns.parents i, memo.has p = true)
    (hnodup : ∀ p ∈ ns.parents i, ∀ l, memo.get? p = some l → l.Nodup) :
    combine ns memo i =
      match merge ((ns.parents i).map fun p => (memo.get? p).getD []) with
      | .ok l => .ok (i :: l)
      | .error stuck => .error (.blocked i stuck) := by
  have hget : ∀ p ∈ ns.parents i, memo.get? p = some ((memo.get? p).getD []) :=
    fun p hp => Memo.get?_of_has (hknown p hp)
  have hlists : (ns.parents i).filterMap memo.get? =
      (ns.parents i).map fun p => (memo.get? p).getD [] := by
    rw [← List.filterMap_eq_map]
    exact List.filterMap_congr hget
  rw [combine, hlists]
  split
  · rename_i hnil
    rw [hnil, merge_eq_ok_iff.2 merges_nil]
  · rename_i l hsingle
    have hl : l ∈ (ns.parents i).map fun p => (memo.get? p).getD [] := by
      rw [hsingle]
      exact List.mem_singleton_self l
    obtain ⟨p, hp, rfl⟩ := List.mem_map.1 hl
    rw [hsingle, merge_eq_ok_iff.2 (merges_singleton (hnodup p hp _ (hget p hp)))]
  · rfl

theorem combine_eq_merge (hfollows : Follows ns memo)
    (hknown : ∀ p ∈ ns.parents i, memo.has p = true) :
    combine ns memo i =
      match merge ((ns.parents i).map fun p => (memo.get? p).getD []) with
      | .ok l => .ok (i :: l)
      | .error stuck => .error (.blocked i stuck) :=
  combine_eq_merge_of_nodup hknown fun p _ l hl => (hfollows p l hl).nodup

theorem combine_ne_cycle (ns : Nodes) (memo : Memo) (i p k : Nat) :
    combine ns memo i ≠ .error (.cycle p k) := by
  intro h
  unfold combine at h
  split at h
  · cases h
  · cases h
  · split at h <;> cases h

section Combine

variable (hknown : ∀ p ∈ ns.parents i, memo.has p = true)
  (hparents : FollowsOn (· ∈ ns.parents i) ns memo)

include hknown hparents

theorem linearizes_parents :
    ∀ p ∈ ns.parents i, Linearizes ns.parents p ((memo.get? p).getD []) :=
  fun p hp => hparents p hp _ (Memo.get?_of_has (hknown p hp))

/-- Once the parents are known, a node is linearized as the rule says, unless the merge is
blocked. -/
theorem combine_spec :
    (∃ l, combine ns memo i = .ok l ∧ Linearizes ns.parents i l) ∨
      ∃ stuck, combine ns memo i = .error (.blocked i stuck) ∧
        merge ((ns.parents i).map fun p => (memo.get? p).getD []) = .error stuck := by
  have hnodup : ∀ p ∈ ns.parents i, ∀ l, memo.get? p = some l → l.Nodup :=
    fun p hp l hl => (hparents p hp l hl).nodup
  rw [combine_eq_merge_of_nodup hknown hnodup]
  cases hmerge : merge ((ns.parents i).map fun p => (memo.get? p).getD []) with
  | ok m =>
    have hof := linearizes_parents hknown hparents
    exact Or.inl ⟨i :: m, rfl, (Linearizes.iff_merge _ hof).2 ⟨m, hmerge, rfl⟩⟩
  | error stuck => exact Or.inr ⟨stuck, rfl, rfl⟩

theorem linearizes_of_combine (h : combine ns memo i = .ok l) : Linearizes ns.parents i l := by
  rcases combine_spec hknown hparents with ⟨m, hm, hl⟩ | ⟨stuck, hstuck, _⟩
  · rw [h] at hm
    cases hm
    exact hl
  · rw [h] at hstuck
    cases hstuck

/-- If there is no linearization, then it is the merge that is at fault. -/
theorem cause_of_combine {f : HierarchyFault} (clear : ∀ q ∈ ns.parents i, q ∉ i :: active)
    (h : combine ns memo i = .error f) : Cause ns active i f := by
  rcases combine_spec hknown hparents with ⟨m, hm, _⟩ | ⟨stuck, hstuck, hmerge⟩
  · rw [h] at hm
    cases hm
  · rw [h] at hstuck
    cases hstuck
    exact .blocked clear _ (linearizes_parents hknown hparents) hmerge

end Combine

theorem FollowsOn.insert {S : Nat → Prop} (h : FollowsOn S ns memo)
    (hl : S i → Linearizes ns.parents i l) : FollowsOn S ns (memo.insert i l) := by
  intro k hk m hm
  rw [Memo.get?_insert] at hm
  split at hm
  · rename_i hki
    cases hm
    rw [hki] at hk ⊢
    exact hl hk
  · exact h k hk m hm

theorem Follows.on (h : Follows ns memo) (S : Nat → Prop) : FollowsOn S ns memo :=
  fun i _ => h i

theorem Follows.insert (h : Follows ns memo) (hl : Linearizes ns.parents i l) :
    Follows ns (memo.insert i l) :=
  fun k m hm => (h.on fun _ => True).insert (fun _ => hl) k trivial m hm

theorem Follows.linearizable (h : Follows ns memo) (hi : memo.has i = true) :
    Linearizable ns.parents i := by
  obtain ⟨l, hl⟩ := Option.isSome_iff_exists.1 hi
  exact ⟨l, h i l hl⟩

theorem follows_empty (ns : Nodes) : Follows ns {} := by
  intro i l h
  cases h

end Rule

namespace Visits

/-- Whatever is memoized on the way follows the rule, also on the way to a fault, for the nodes
above which all that was memoized before follows it. -/
theorem followsOn {S : Nat → Prop} (hclosed : ∀ i, S i → ∀ p ∈ ns.parents i, S p)
    (h : Visits ns active memo work after fault) (hfollows : FollowsOn S ns memo) :
    FollowsOn S ns after := by
  induction h with
  | done => exact hfollows
  | known _ _ ih => exact ih hfollows
  | closes _ _ => exact hfollows
  | fails _ _ _ ih => exact ih hfollows
  | blocked _ _ _ _ ih => exact ih hfollows
  | @finishes active memo i _ _ _ _ _ _ _ above h _ ihAbove ihRest =>
    have hbetween := ihAbove hfollows
    refine ihRest (hbetween.insert fun hi => ?_)
    exact linearizes_of_combine above.parents_known (fun p hp => hbetween p (hclosed i hi p hp)) h

theorem follows (h : Visits ns active memo work after fault) (hfollows : Follows ns memo) :
    Follows ns after :=
  fun i l hl =>
    h.followsOn (S := fun _ => True) (fun _ _ _ _ => trivial) (hfollows.on _) i trivial l hl

section Faults

variable {i : Nat} (hfollows : Follows ns memo) (unseen : Unseen active memo i)
  (hbelow : ∀ x ∈ active, TransGen (Step ns.parents) x i)

include hfollows unseen hbelow

/-- A known parent is not under way, since it has a linearization. -/
theorem inactive_of_known {q : Nat} (hq : q ∈ ns.parents i) (hknown : memo.has q = true) :
    q ∉ i :: active := by
  intro hactive
  obtain ⟨l, hl⟩ := hfollows.linearizable hknown
  rcases List.mem_cons.1 hactive with rfl | hactive
  · rw [unseen.unknown] at hknown
    cases hknown
  · exact hl.not_cyclic ((hbelow q hactive).tail hq)

/-- Which parent closes a cycle does not depend on which parents are known. -/
theorem closing?_eq :
    closing? ns ⟨[], active, memo⟩ i =
      (ns.parents i).reverse.find? fun q => (i :: active).contains q := by
  have hmissing : (missing ns memo i).reverse = (ns.parents i).reverse.filter (!memo.has ·) := by
    rw [missing, List.filter_reverse]
  rw [closing?, hmissing, List.find?_filter, ← List.head?_filter, ← List.head?_filter]
  congr 1
  apply List.filter_congr
  intro q hq
  cases hknown : memo.has q with
  | false => simp
  | true =>
    have hinactive := inactive_of_known hfollows unseen hbelow (List.mem_reverse.1 hq) hknown
    simpa using hinactive

/-- An open node has no parent under way at all. -/
theorem clear_of_open (clear : Open ns active memo i) : ∀ q ∈ ns.parents i, q ∉ i :: active := by
  rw [Open, closing?_eq hfollows unseen hbelow, List.find?_eq_none] at clear
  intro q hq hactive
  exact clear q (List.mem_reverse.2 hq) (List.contains_iff_mem.2 hactive)

end Faults

/-- The first node that waits and has no linearization is the cause of the fault. -/
theorem cause (h : Visits ns active memo work after fault) (hfollows : Follows ns memo)
    (hbelow : ∀ x ∈ active, ∀ w ∈ work, TransGen (Step ns.parents) x w) {f : HierarchyFault}
    (hf : fault = some f) :
    ∃ w, firstStuck? ns.parents work = some w ∧ Cause ns active w f := by
  induction h with
  | done => cases hf
  | @known active memo i work after fault hi rest ih =>
    rw [firstStuck?_cons_of_linearizable (hfollows.linearizable hi)]
    exact ih hfollows (fun x hx w hw => hbelow x hx w (List.mem_cons_of_mem i hw)) hf
  | @closes active memo i p work unseen hp =>
    cases hf
    have hbelow : ∀ x ∈ active, TransGen (Step ns.parents) x i :=
      fun x hx => hbelow x hx i List.mem_cons_self
    rw [closing?_eq hfollows unseen hbelow] at hp
    have hcause : Cause ns active i (.cycle p i) := .cycle hp
    exact ⟨i, firstStuck?_cons_of_stuck (hcause.culprit.asked_stuck hbelow) work, hcause⟩
  | @fails active memo i work after f' unseen clear above ih =>
    cases hf
    have hbelow : ∀ x ∈ active, TransGen (Step ns.parents) x i :=
      fun x hx => hbelow x hx i List.mem_cons_self
    -- what is under way lies below the missing parents as well
    have hmissing : ∀ x ∈ i :: active, ∀ w ∈ missing ns memo i, TransGen (Step ns.parents) x w :=
      fun x hx w hw => Step.paths_to_successor hbelow (List.mem_filter.1 hw).1 x hx
    obtain ⟨w, hw, hcause⟩ := ih hfollows hmissing rfl
    have hfirst : firstStuck? ns.parents (ns.parents i) = some w := by
      rw [← hw, missing, firstStuck?_filter]
      intro q _ hq
      exact hfollows.linearizable (by simpa using hq)
    have hcause : Cause ns active i f :=
      .above (clear_of_open hfollows unseen hbelow clear) hfirst hcause
    exact ⟨i, firstStuck?_cons_of_stuck (hcause.culprit.asked_stuck hbelow) work, hcause⟩
  | @blocked active memo i work after f' unseen clear above h ih =>
    cases hf
    have hbelow : ∀ x ∈ active, TransGen (Step ns.parents) x i :=
      fun x hx => hbelow x hx i List.mem_cons_self
    have hcause : Cause ns active i f :=
      cause_of_combine above.parents_known ((above.follows hfollows).on _)
        (clear_of_open hfollows unseen hbelow clear) h
    exact ⟨i, firstStuck?_cons_of_stuck (hcause.culprit.asked_stuck hbelow) work, hcause⟩
  | @finishes active memo i work between after l fault unseen clear above h rest ihAbove ihRest =>
    have hbetween := above.follows hfollows
    have hl := linearizes_of_combine above.parents_known (hbetween.on _) h
    rw [firstStuck?_cons_of_linearizable ⟨l, hl⟩]
    exact ihRest (hbetween.insert hl)
      (fun x hx w hw => hbelow x hx w (List.mem_cons_of_mem i hw)) hf

/-- A cycle is only reported if the parent that closes it lies on one. -/
theorem cycle_of_fault (h : Visits ns active memo work after fault)
    (hbelow : ∀ x ∈ active, ∀ w ∈ work, TransGen (Step ns.parents) x w) {p k : Nat}
    (hf : fault = some (.cycle p k)) : TransGen (Step ns.parents) p p := by
  induction h with
  | done => cases hf
  | known _ _ ih => exact ih (fun x hx w hw => hbelow x hx w (List.mem_cons_of_mem _ hw)) hf
  | @closes active memo i q work _ hq =>
    cases hf
    obtain ⟨hmissing, hactive⟩ := mem_of_closing? hq
    have hmem : p ∈ ns.parents k := (List.mem_filter.1 hmissing).1
    rcases List.mem_cons.1 hactive with rfl | hactive
    · exact .single hmem
    · exact (hbelow p hactive k List.mem_cons_self).tail hmem
  | @fails active memo i work after f _ _ _ ih =>
    refine ih (fun x hx w hw => ?_) hf
    have hi : ∀ x ∈ active, TransGen (Step ns.parents) x i :=
      fun x hx => hbelow x hx i List.mem_cons_self
    exact Step.paths_to_successor hi (List.mem_filter.1 hw).1 x hx
  | @blocked active memo i work after f _ _ _ h _ =>
    rw [Option.some.inj hf] at h
    exact absurd h (combine_ne_cycle ns after i p k)
  | finishes _ _ _ _ _ _ ih =>
    exact ih (fun x hx w hw => hbelow x hx w (List.mem_cons_of_mem _ hw)) hf

end Visits

/-! ## Linearizing a node -/

section Linearize

variable {i : Nat} {l : List Nat}

/-- An index beyond the registry has no parents, so its linearization is there. -/
theorem lt_size_of_not_linearizable (h : ¬ Linearizable ns.parents i) : i < ns.size := by
  by_contra hbeyond
  have hnone := Nodes.parents_of_size_le (Nat.le_of_not_lt hbeyond)
  exact h ⟨_, (Linearizes.iff_of_no_parent hnone).2 rfl⟩

theorem linearize_of_known (h : memo.get? i = some l) : linearize ns memo i = (memo, .ok l) := by
  rw [linearize, h]

/-- The outcome of a request is that of the search for the node, also for one that is known. -/
theorem linearize_of_run {fault : Option HierarchyFault}
    (h : run ns ⟨[i], [], memo⟩ = (after, fault)) :
    linearize ns memo i =
      (after, match fault with
        | none => .ok ((after.get? i).getD [])
        | some f => .error f) := by
  cases hmemo : memo.get? i with
  | none =>
    cases fault with
    | none => simp only [linearize, hmemo, h]
    | some f => simp only [linearize, hmemo, h]
  | some l =>
    rw [run_of_turn_ok [] (turn_known [] (Memo.has_of_get? hmemo)), run_nil] at h
    cases h
    rw [linearize_of_known hmemo]
    simp only [hmemo, Option.getD_some]

/-- The node that is asked for is visited with nothing else under way. -/
theorem linearize_eq_visits (ns : Nodes) (memo : Memo) (i : Nat) :
    ∃ after fault, Visits ns [] memo [i] after fault ∧
      linearize ns memo i =
        match fault with
        | none => (after, .ok ((after.get? i).getD []))
        | some f => (after, .error f) := by
  obtain ⟨after, fault, hvisits, hrun⟩ := run_eq_visits ns [] memo [i] [] (by simp)
  rw [List.append_nil] at hrun
  refine ⟨after, fault, hvisits, ?_⟩
  cases fault with
  | none => rw [linearize_of_run (hrun.trans (run_nil [] after))]
  | some f => rw [linearize_of_run hrun]

/-- A node is linearized as the rule says or reported with the fault that there is a cause for; in
both cases what is memoized still follows the rule. -/
theorem linearize_spec (hfollows : Follows ns memo) (i : Nat) :
    Follows ns (linearize ns memo i).1 ∧
      ((∃ l, (linearize ns memo i).2 = .ok l ∧ Linearizes ns.parents i l) ∨
        ∃ f, (linearize ns memo i).2 = .error f ∧ Cause ns [] i f) := by
  obtain ⟨after, fault, hvisits, heq⟩ := linearize_eq_visits ns memo i
  have hafter := hvisits.follows hfollows
  rw [heq]
  cases fault with
  | none =>
    obtain ⟨l, hl⟩ := Option.isSome_iff_exists.1
      (hvisits.known_of_mem rfl (List.mem_singleton_self i))
    refine ⟨hafter, Or.inl ⟨l, ?_, hafter i l hl⟩⟩
    simp only [hl]
    rfl
  | some f =>
    obtain ⟨w, hw, hcause⟩ := hvisits.cause hfollows (by simp) rfl
    obtain rfl := List.mem_singleton.1 (stuck_of_firstStuck? hw).1
    exact ⟨hafter, Or.inr ⟨f, rfl, hcause⟩⟩

theorem Follows.linearize (h : Follows ns memo) (i : Nat) :
    Follows ns (linearize ns memo i).1 :=
  (linearize_spec h i).1

theorem linearize_eq_ok_iff (h : Follows ns memo) :
    (linearize ns memo i).2 = .ok l ↔ Linearizes ns.parents i l := by
  rcases (linearize_spec h i).2 with ⟨m, hm, hrule⟩ | ⟨f, hf, hcause⟩
  · rw [hm]
    constructor
    · intro heq
      cases heq
      exact hrule
    · intro hl
      rw [hrule.unique hl]
  · rw [hf]
    constructor
    · intro heq
      cases heq
    · intro hl
      exact absurd ⟨l, hl⟩ hcause.culprit.not_linearizable

theorem linearize_isOk_iff (h : Follows ns memo) :
    (∃ l, (linearize ns memo i).2 = .ok l) ↔ Linearizable ns.parents i :=
  exists_congr fun _ => linearize_eq_ok_iff h

/-- A linearization fails with the fault that there is a cause for. -/
theorem cause_of_linearize (h : Follows ns memo) {f : HierarchyFault}
    (hf : (linearize ns memo i).2 = .error f) : Cause ns [] i f := by
  rcases (linearize_spec h i).2 with ⟨m, hm, _⟩ | ⟨g, hg, hcause⟩
  · rw [hf] at hm
    cases hm
  · rw [hf] at hg
    cases hg
    exact hcause

/-- A failed linearization names the culprit. -/
theorem culprit_of_linearize (h : Follows ns memo) {f : HierarchyFault}
    (hf : (linearize ns memo i).2 = .error f) : Culprit ns.parents [] i f.node :=
  (cause_of_linearize h hf).culprit

/-- What has been memoized by the rule makes no difference to what is answered for a node, be it a
linearization or a fault. -/
theorem linearize_congr (h : Follows ns memo) {memo' : Memo} (h' : Follows ns memo') (i : Nat) :
    (linearize ns memo i).2 = (linearize ns memo' i).2 := by
  rcases (linearize_spec h i).2 with ⟨l, hl, hrule⟩ | ⟨f, hf, hcause⟩
  · rw [hl, (linearize_eq_ok_iff h').2 hrule]
  · rcases (linearize_spec h' i).2 with ⟨l, hl, hrule⟩ | ⟨f', hf', hcause'⟩
    · exact absurd ⟨l, hrule⟩ hcause.culprit.not_linearizable
    · rw [hf, hf', hcause.unique hcause']

/-- Whatever has been memoized, no cycle is reported where there is none. -/
theorem cycle_of_linearize {p k : Nat} (h : (linearize ns memo i).2 = .error (.cycle p k)) :
    TransGen (Step ns.parents) p p := by
  obtain ⟨after, fault, hvisits, heq⟩ := linearize_eq_visits ns memo i
  rw [heq] at h
  cases fault with
  | none => cases h
  | some f => exact hvisits.cycle_of_fault (by simp) (congrArg some (Except.error.inj h))

theorem linearize_isError_iff (h : Follows ns memo) :
    (∃ f, (linearize ns memo i).2 = .error f) ↔ ¬ Linearizable ns.parents i := by
  rw [← linearize_isOk_iff h]
  cases (linearize ns memo i).2 <;> simp

/-- Whatever has been memoized by the rule, a node is linearized exactly as the rule says, and it
is found inconsistent exactly if the rule has no linearization for it. The shortcuts for few
parents and the repeats among the parents make no difference to either. -/
theorem linearize_agrees_with_rule (h : Follows ns memo) (i : Nat) :
    (∀ l, (linearize ns memo i).2 = .ok l ↔ Linearizes ns.parents i l) ∧
      ((∃ f, (linearize ns memo i).2 = .error f) ↔ ¬ ∃ l, Linearizes ns.parents i l) ∧
      (ns.parents i = [] → (linearize ns memo i).2 = .ok [i]) ∧
      (∀ p, (ns.parents i).eraseDups = [p] → ∀ l, (linearize ns memo i).2 = .ok l ↔
        ∃ m, Linearizes ns.parents p m ∧ l = i :: m) ∧
      ((∀ p ∈ ns.parents i, memo.has p = true) → combine ns memo i =
        match merge ((ns.parents i).map fun p => (memo.get? p).getD []) with
        | .ok l => .ok (i :: l)
        | .error stuck => .error (.blocked i stuck)) ∧
      ∀ ns' memo', Follows ns' memo' → (∀ j, SameFirsts (ns'.parents j) (ns.parents j)) →
        ∀ l, (linearize ns' memo' i).2 = .ok l ↔ (linearize ns memo i).2 = .ok l := by
  refine ⟨fun l => linearize_eq_ok_iff h, linearize_isError_iff h, ?_, ?_, ?_, ?_⟩
  · intro hnone
    rw [linearize_eq_ok_iff h, Linearizes.iff_of_no_parent hnone]
  · intro p hp l
    rw [linearize_eq_ok_iff h, Linearizes.iff_of_single_parent hp]
  · intro hknown
    exact combine_eq_merge h hknown
  · intro ns' memo' h' hsame l
    rw [linearize_eq_ok_iff h, linearize_eq_ok_iff h']
    exact ⟨Linearizes.congr fun j => (hsame j).symm, Linearizes.congr hsame⟩

/-- A class that inherits twice from another one whose linearization is memoized. -/
theorem linearize_agrees_with_rule_repeated_parent :
    Follows #[{ name := "A" }, { name := "B", parents := [0, 0] }] ⟨[(0, [0])]⟩ ∧
      (linearize #[{ name := "A" }, { name := "B", parents := [0, 0] }] ⟨[(0, [0])]⟩ 1).2
        = .ok [1, 0] := by
  have hzero : Linearizes
      (Nodes.parents #[{ name := "A" }, { name := "B", parents := [0, 0] }]) 0 [0] :=
    (Linearizes.iff_of_no_parent rfl).2 rfl
  have h := (follows_empty #[{ name := "A" }, { name := "B", parents := [0, 0] }]).insert hzero
  obtain ⟨_, _, _, single, _⟩ := linearize_agrees_with_rule h 1
  exact ⟨h, (single 0 rfl _).2 ⟨[0], hzero, rfl⟩⟩

end Linearize

end Lineage.Linearization
