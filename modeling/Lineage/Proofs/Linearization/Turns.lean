import Lineage.Proofs.Graph.Rotation
import Lineage.Proofs.Linearization.Search
import Mathlib.Algebra.Order.BigOperators.Group.Finset

/-!
# The turns of a search

A search takes one turn after the other until its stack is empty or a fault is met. What holds on
the way is told here of the stack itself, for any links between the nodes and for any memo at the
start (`orderly_search`).

The stack is piled up in layers (`Layers`). Each node under way carries those of its parents that
wait, and one of these is the next node under way. So the nodes under way are a path; a node that
comes up again has no parent left that waits, and then all of them are known; and a parent that is
under way already closes a cycle with the end of the path. Every turn uses up a part of a budget, in
which each node and each link counts once.
-/

namespace Lineage

/-! ## Paths -/

theorem isChain_concat {α : Type} {r : α → α → Prop} {b c : α} {l : List α} (h : l.IsChain r)
    (hlast : l.getLast? = some b) (hbc : r b c) : (l ++ [c]).IsChain r := by
  refine h.append (List.isChain_singleton c) ?_
  intro x hx y hy
  rw [hlast, Option.mem_some] at hx
  rw [List.head?_singleton, Option.mem_some] at hy
  exact hx ▸ hy ▸ hbc

/-- The vertices of a path from one vertex to another, of which none is met twice. -/
structure SimplePath {α : Type} (r : α → α → Prop) (a b : α) (l : List α) : Prop where
  chain : l.IsChain r
  nodup : l.Nodup
  head : l.head? = some a
  last : l.getLast? = some b

namespace SimplePath

variable {α : Type} {r : α → α → Prop} {a b c : α} {l : List α}

theorem single (r : α → α → Prop) (a : α) : SimplePath r a a [a] :=
  ⟨List.isChain_singleton a, List.nodup_singleton a, rfl, rfl⟩

/-- A path goes on to a vertex that it has not met. -/
theorem concat (h : SimplePath r a b l) (hbc : r b c) (hc : c ∉ l) :
    SimplePath r a c (l ++ [c]) := by
  have hne : l ≠ [] := by
    rintro rfl
    cases h.head
  refine ⟨isChain_concat h.chain h.last hbc, ?_, ?_, ?_⟩
  · rw [← List.concat_eq_append]
    exact h.nodup.concat hc
  · rw [List.head?_append_of_ne_nil l hne]
    exact h.head
  · rw [List.getLast?_concat]

/-- Where the end of a path leads back to one of its vertices, the path ends in a cycle. -/
theorem exists_cycle (h : SimplePath r a b l) (hc : c ∈ l) (hbc : r b c) :
    ∃ k, k <:+ l ∧ ElementaryCycle r k ∧ k.head? = some c ∧ k.getLast? = some b := by
  obtain ⟨s, t, rfl⟩ := List.append_of_mem hc
  have hlast : (c :: t).getLast? = some b := by
    rw [← h.last, List.getLast?_append_of_ne_nil s (List.cons_ne_nil c t)]
  have hchain : (c :: t).IsChain r := h.chain.right_of_append
  refine ⟨c :: t, List.suffix_append s (c :: t), ?_, rfl, hlast⟩
  rw [elementaryCycle_cons_iff]
  exact ⟨isChain_concat hchain hlast hbc, (List.nodup_append.1 h.nodup).2.1⟩

end SimplePath

namespace Linearization

variable {ns : Nodes} {before memo after : Memo} {requested i k : Nat} {s t : Search}
  {stack rest active waiting : List Nat}

/-! ## One turn -/

/-- What one turn makes of a search that goes on. -/
inductive Takes (ns : Nodes) : Search → Search → Prop where
  /-- The node on top is known, so it is taken off. -/
  | drops {i : Nat} {rest active : List Nat} {memo : Memo} (known : memo.has i = true) :
      Takes ns ⟨i :: rest, active, memo⟩ ⟨rest, active, memo⟩
  /-- The node on top is started, and its missing parents are put on it. -/
  | starts {i : Nat} {rest active : List Nat} {memo : Memo} (unseen : Unseen active memo i)
      (clear : Open ns active memo i) (nonempty : missing ns memo i ≠ []) :
      Takes ns ⟨i :: rest, active, memo⟩ ⟨missing ns memo i ++ i :: rest, i :: active, memo⟩
  /-- The node on top is linearized and taken off. -/
  | combines {i : Nat} {rest active l : List Nat} {memo : Memo} (unknown : memo.has i = false)
      (ready : missing ns memo i = [] ∨ i ∈ active) (h : combine ns memo i = .ok l) :
      Takes ns ⟨i :: rest, active, memo⟩ ⟨rest, active.erase i, memo.insert i l⟩

theorem takes_of_turn (hs : s.stack = i :: rest) (h : turn ns s i rest = .ok t) :
    Takes ns s t := by
  obtain ⟨stack, active, memo⟩ := s
  obtain rfl : stack = i :: rest := hs
  cases hknown : memo.has i with
  | true =>
    rw [turn_known rest hknown] at h
    cases h
    exact .drops hknown
  | false =>
    by_cases hready : missing ns memo i = [] ∨ i ∈ active
    · rw [turn_combines rest hknown hready] at h
      cases hcombine : combine ns memo i with
      | error f =>
        rw [hcombine] at h
        cases h
      | ok l =>
        rw [hcombine] at h
        cases h
        exact .combines hknown hready hcombine
    · obtain ⟨hmissing, hactive⟩ := not_or.1 hready
      have unseen : Unseen active memo i := ⟨hknown, hactive⟩
      rw [turn_starts rest unseen hmissing] at h
      cases hclosing : closing? ns ⟨[], active, memo⟩ i with
      | some p =>
        rw [hclosing] at h
        cases h
      | none =>
        rw [hclosing] at h
        cases h
        exact .starts unseen hclosing hmissing

/-- The states that a search for a node gets into, by the number of turns taken. -/
inductive Reached (ns : Nodes) (before : Memo) (requested : Nat) : Nat → Search → Prop where
  | start : Reached ns before requested 0 ⟨[requested], [], before⟩
  | next {k : Nat} {s t : Search} {i : Nat} {rest : List Nat}
      (earlier : Reached ns before requested k s) (top : s.stack = i :: rest)
      (taken : turn ns s i rest = .ok t) : Reached ns before requested (k + 1) t

/-! ## The budget -/

/-- The fresh nodes of the registry. -/
def freshNodes (ns : Nodes) (s : Search) : Finset Nat :=
  (Finset.range ns.size).filter fun i => fresh s i

/-- How many turns a search has left at most: one for each entry of its stack, and for each fresh
node one to start it and one for each of its parents. -/
def budget (ns : Nodes) (s : Search) : Nat :=
  s.stack.length + ∑ i ∈ freshNodes ns s, ((ns.parents i).length + 1)

theorem mem_freshNodes :
    i ∈ freshNodes ns s ↔ i < ns.size ∧ s.memo.has i = false ∧ i ∉ s.active := by
  simp [freshNodes, fresh]

/-- Every turn uses up a part of the budget. -/
theorem Takes.budget_lt (h : Takes ns s t) : budget ns t < budget ns s := by
  cases h with
  | @drops i rest active memo known =>
    have hsame : freshNodes ns ⟨rest, active, memo⟩ = freshNodes ns ⟨i :: rest, active, memo⟩ := rfl
    rw [budget, budget, hsame]
    exact Nat.add_lt_add_right (Nat.lt_succ_self _) _
  | @starts i rest active memo unseen clear nonempty =>
    have hi : i < ns.size := by
      by_contra hbeyond
      exact nonempty (missing_eq_nil_of_size_le (Nat.le_of_not_lt hbeyond))
    have hfresh : i ∈ freshNodes ns ⟨i :: rest, active, memo⟩ :=
      mem_freshNodes.2 ⟨hi, unseen.unknown, unseen.inactive⟩
    have hsub : freshNodes ns ⟨missing ns memo i ++ i :: rest, i :: active, memo⟩ ⊆
        (freshNodes ns ⟨i :: rest, active, memo⟩).erase i := by
      intro j hj
      obtain ⟨hsize, hunknown, hinactive⟩ := mem_freshNodes.1 hj
      obtain ⟨hne, hold⟩ := List.ne_and_not_mem_of_not_mem_cons hinactive
      exact Finset.mem_erase.2 ⟨hne, mem_freshNodes.2 ⟨hsize, hunknown, hold⟩⟩
    -- what the node had in the budget pays for its parents on the stack and for this turn
    have hpay := Finset.add_sum_erase _ (fun i => (ns.parents i).length + 1) hfresh
    have hle := Finset.sum_le_sum_of_subset (f := fun i => (ns.parents i).length + 1) hsub
    have hmissing : (missing ns memo i).length ≤ (ns.parents i).length :=
      List.length_filter_le _ _
    simp only [budget, List.length_append, List.length_cons] at hpay hle ⊢
    omega
  | @combines i rest active l memo unknown ready h =>
    have hsub : freshNodes ns ⟨rest, active.erase i, memo.insert i l⟩ ⊆
        freshNodes ns ⟨i :: rest, active, memo⟩ := by
      intro j hj
      obtain ⟨hsize, hunknown, hinactive⟩ := mem_freshNodes.1 hj
      rw [Memo.has_insert, Bool.or_eq_false_iff, decide_eq_false_iff_not] at hunknown
      refine mem_freshNodes.2 ⟨hsize, hunknown.2, fun hj => hinactive ?_⟩
      exact (List.mem_erase_of_ne hunknown.1).2 hj
    have hle := Finset.sum_le_sum_of_subset (f := fun i => (ns.parents i).length + 1) hsub
    simp only [budget, List.length_cons] at hle ⊢
    omega

theorem Reached.budget_le (h : Reached ns before requested k s) :
    k + budget ns s ≤ budget ns ⟨[requested], [], before⟩ := by
  induction h with
  | start => exact Nat.le_of_eq (Nat.zero_add _)
  | next _ top taken ih =>
    have hlt := (takes_of_turn top taken).budget_lt
    omega

/-- In the turns that are taken and the entries that still wait, each node and each link counts at
most once. -/
theorem Reached.turns_le (h : Reached ns before requested k s) :
    k + s.stack.length ≤ 1 + ∑ j ∈ Finset.range ns.size, ((ns.parents j).length + 1) := by
  have hbudget := h.budget_le
  have hle : ∑ j ∈ freshNodes ns ⟨[requested], [], before⟩, ((ns.parents j).length + 1) ≤
      ∑ j ∈ Finset.range ns.size, ((ns.parents j).length + 1) :=
    Finset.sum_le_sum_of_subset (Finset.filter_subset _ _)
  simp only [budget, List.length_singleton] at hbudget
  omega

/-! ## The layers of the stack -/

/-- The nodes among which the next one under way is found: the parents of the latest one, or at
first the requested node. -/
def upNext (ns : Nodes) (requested : Nat) : List Nat → List Nat
  | [] => [requested]
  | a :: _ => ns.parents a

/-- The nodes that wait on top of the latest one under way. -/
structure Waiting (ns : Nodes) (memo : Memo) (requested : Nat) (active waiting : List Nat) :
    Prop where
  next : ∀ w ∈ waiting, w ∈ upNext ns requested active
  inactive : ∀ w ∈ waiting, w ∉ active
  /-- What neither waits nor is under way is known. -/
  covers : ∀ p ∈ upNext ns requested active, memo.has p = true ∨ p ∈ waiting

/-- The stack of a search, layer by layer: each node under way, the latest first, lies below the
nodes that wait for it, on top of the layer from which it was started. -/
def Layers (ns : Nodes) (memo : Memo) (requested : Nat) : List Nat → List Nat → Prop
  | [], stack => Waiting ns memo requested [] stack
  | a :: active, stack =>
    ∃ waiting below, stack = waiting ++ a :: below ∧
      Waiting ns memo requested (a :: active) waiting ∧ Unseen active memo a ∧
        Layers ns memo requested active (a :: below)

theorem Waiting.mono (h : Waiting ns memo requested active waiting)
    (hmono : ∀ k, memo.has k = true → after.has k = true) :
    Waiting ns after requested active waiting :=
  ⟨h.next, h.inactive, fun p hp => (h.covers p hp).imp_left (hmono p)⟩

theorem Waiting.tail (h : Waiting ns memo requested active (i :: waiting))
    (hi : memo.has i = true) : Waiting ns memo requested active waiting := by
  refine ⟨fun w hw => h.next w (List.mem_cons_of_mem i hw),
    fun w hw => h.inactive w (List.mem_cons_of_mem i hw), ?_⟩
  intro p hp
  rcases h.covers p hp with hknown | hp
  · exact Or.inl hknown
  · rcases List.mem_cons.1 hp with rfl | hp
    · exact Or.inl hi
    · exact Or.inr hp

/-- The missing parents wait for a node that is started. -/
theorem waiting_missing (clear : Open ns active memo i) :
    Waiting ns memo requested (i :: active) (missing ns memo i) := by
  refine ⟨fun w hw => (List.mem_filter.1 hw).1, clear.inactive, ?_⟩
  intro p hp
  cases hknown : memo.has p with
  | true => exact Or.inl rfl
  | false => exact Or.inr (List.mem_filter.2 ⟨hp, by simp [hknown]⟩)

namespace Layers

theorem start (ns : Nodes) (memo : Memo) (requested : Nat) :
    Layers ns memo requested [] [requested] :=
  ⟨fun _ hw => hw, fun _ _ => List.not_mem_nil, fun _ hp => Or.inr hp⟩

/-- The node on top either waits, or it is the latest one under way; then all of its parents are
known. -/
theorem cases_top (h : Layers ns memo requested active (i :: rest)) :
    (i ∉ active ∧ i ∈ upNext ns requested active ∧
        (memo.has i = true → Layers ns memo requested active rest)) ∨
      ∃ lower, active = i :: lower ∧ Unseen lower memo i ∧
        (∀ p ∈ ns.parents i, memo.has p = true) ∧ Layers ns memo requested lower (i :: rest) := by
  cases active with
  | nil => exact Or.inl ⟨List.not_mem_nil, Waiting.next h i List.mem_cons_self, Waiting.tail h⟩
  | cons a lower =>
    obtain ⟨waiting, below, hstack, hwaiting, unseen, hlower⟩ := h
    cases waiting with
    | nil =>
      obtain ⟨rfl, rfl⟩ := List.cons.inj hstack
      refine Or.inr ⟨lower, rfl, unseen, ?_, hlower⟩
      intro p hp
      exact (hwaiting.covers p hp).resolve_right List.not_mem_nil
    | cons w waiting =>
      obtain ⟨rfl, rfl⟩ := List.cons.inj hstack
      refine Or.inl ⟨hwaiting.inactive i List.mem_cons_self,
        hwaiting.next i List.mem_cons_self, ?_⟩
      intro hi
      exact ⟨waiting, below, rfl, hwaiting.tail hi, unseen, hlower⟩

/-- A node that is under way comes up again only when its parents are known. -/
theorem parents_known (h : Layers ns memo requested active (i :: rest)) (hi : i ∈ active) :
    ∀ p ∈ ns.parents i, memo.has p = true := by
  rcases h.cases_top with ⟨hinactive, _⟩ | ⟨lower, _, _, hparents, _⟩
  · exact absurd hi hinactive
  · exact hparents

theorem inactive_of_missing (h : Layers ns memo requested active (i :: rest))
    (hparents : ¬ (ns.parents i).all memo.has = true) : i ∉ active :=
  fun hi => hparents (List.all_eq_true.2 (h.parents_known hi))

/-- The nodes under way are not known. -/
theorem unknown (h : Layers ns memo requested active stack) :
    ∀ a ∈ active, memo.has a = false := by
  induction active generalizing stack with
  | nil =>
    intro a ha
    cases ha
  | cons b active ih =>
    obtain ⟨_, below, _, _, unseen, hlower⟩ := h
    intro a ha
    rcases List.mem_cons.1 ha with rfl | ha
    · exact unseen.unknown
    · exact ih hlower a ha

/-- On an empty stack nothing is under way. -/
theorem active_eq_nil (h : Layers ns memo requested active []) : active = [] := by
  cases active with
  | nil => rfl
  | cons a active =>
    obtain ⟨waiting, below, hstack, _⟩ := h
    exact absurd hstack.symm (List.append_ne_nil_of_right_ne_nil waiting (List.cons_ne_nil a below))

/-- Once the stack is empty, the requested node is known. -/
theorem known_of_empty (h : Layers ns memo requested [] []) : memo.has requested = true :=
  (Waiting.covers h requested (List.mem_singleton_self requested)).resolve_right List.not_mem_nil

theorem mono (h : Layers ns memo requested active stack)
    (hmono : ∀ k, memo.has k = true → after.has k = true)
    (hactive : ∀ a ∈ active, after.has a = false) : Layers ns after requested active stack := by
  induction active generalizing stack with
  | nil => exact Waiting.mono h hmono
  | cons a active ih =>
    obtain ⟨waiting, below, hstack, hwaiting, unseen, hlower⟩ := h
    obtain ⟨ha, hactive⟩ := List.forall_mem_cons.1 hactive
    exact ⟨waiting, below, hstack, hwaiting.mono hmono, ⟨ha, unseen.inactive⟩, ih hlower hactive⟩

/-- A node that waits on top may be linearized and taken off. -/
theorem insert (h : Layers ns memo requested active (i :: rest)) (hi : i ∉ active)
    (l : List Nat) : Layers ns (memo.insert i l) requested active rest := by
  have hkept : Layers ns (memo.insert i l) requested active (i :: rest) := by
    refine h.mono ?_ ?_
    · intro k hk
      rw [Memo.has_insert, hk, Bool.or_true]
    · intro a ha
      rw [Memo.has_insert, h.unknown a ha, Bool.or_false, decide_eq_false_iff_not]
      rintro rfl
      exact hi ha
  rcases hkept.cases_top with ⟨_, _, hrest⟩ | ⟨lower, rfl, _⟩
  · exact hrest (by simp [Memo.has_insert])
  · exact absurd List.mem_cons_self hi

theorem next_of_inactive (h : Layers ns memo requested active (i :: rest)) (hi : i ∉ active) :
    i ∈ upNext ns requested active := by
  rcases h.cases_top with ⟨_, hnext, _⟩ | ⟨lower, rfl, _⟩
  · exact hnext
  · exact absurd List.mem_cons_self hi

/-- The nodes under way lead from the requested node to the one that waits on top. -/
theorem path (h : Layers ns memo requested active (i :: rest)) (hi : i ∉ active) :
    SimplePath (Step ns.parents) requested i (i :: active).reverse := by
  have hnext := h.next_of_inactive hi
  induction active generalizing i rest with
  | nil =>
    obtain rfl := List.mem_singleton.1 hnext
    exact .single _ i
  | cons a active ih =>
    obtain ⟨_, below, _, _, unseen, hlower⟩ := h
    have hpath := ih hlower unseen.inactive (hlower.next_of_inactive unseen.inactive)
    rw [List.reverse_cons]
    exact hpath.concat hnext fun hmem => hi (List.mem_reverse.1 hmem)

end Layers

/-- Every turn keeps the stack in layers. -/
theorem Takes.layers (h : Takes ns s t) (hs : Layers ns s.memo requested s.active s.stack) :
    Layers ns t.memo requested t.active t.stack := by
  cases h with
  | drops known =>
    rcases hs.cases_top with ⟨_, _, hrest⟩ | ⟨lower, _, unseen, _⟩
    · exact hrest known
    · rw [unseen.unknown] at known
      cases known
  | @starts i rest active memo unseen clear _ =>
    exact ⟨missing ns memo i, rest, rfl, waiting_missing clear, unseen, hs⟩
  | @combines i rest active l memo unknown _ _ =>
    rcases hs.cases_top with ⟨hi, _⟩ | ⟨lower, hactive, unseen, _, hlower⟩
    · have herase : active.erase i = active := List.erase_of_not_mem hi
      show Layers ns (memo.insert i l) requested (active.erase i) rest
      rw [herase]
      exact Layers.insert hs hi l
    · obtain rfl : active = i :: lower := hactive
      show Layers ns (memo.insert i l) requested ((i :: lower).erase i) rest
      rw [List.erase_cons_head]
      exact hlower.insert unseen.inactive l

theorem Reached.layers (h : Reached ns before requested k s) :
    Layers ns s.memo requested s.active s.stack := by
  induction h with
  | start => exact Layers.start ns before requested
  | next _ top taken ih => exact (takes_of_turn top taken).layers ih

/-! ## What a turn does -/

/-- What is memoized stays memoized. -/
theorem Takes.grows (h : Takes ns s t) {j : Nat} {l : List Nat} (hj : s.memo.get? j = some l) :
    t.memo.get? j = some l := by
  cases h with
  | drops _ => exact hj
  | starts _ _ _ => exact hj
  | @combines i _ _ m memo unknown _ _ =>
    have hne : j ≠ i := by
      rintro rfl
      rw [Memo.has_of_get? hj] at unknown
      cases unknown
    show (memo.insert i m).get? j = some l
    rw [Memo.get?_insert, if_neg hne]
    exact hj

theorem Reached.grows (h : Reached ns before requested k s) {j : Nat} {l : List Nat}
    (hj : before.get? j = some l) : s.memo.get? j = some l := by
  induction h with
  | start => exact hj
  | next _ top taken ih => exact (takes_of_turn top taken).grows ih

theorem missing_eq_nil_iff :
    missing ns memo i = [] ↔ (ns.parents i).all memo.has = true := by
  simp [missing, List.filter_eq_nil_iff]

/-- On a stack in layers a turn linearizes a node only if all of its parents are known. Whether the
node is under way need not be asked. -/
theorem Layers.turn_eq (h : Layers ns memo requested active (i :: rest)) :
    turn ns ⟨i :: rest, active, memo⟩ i rest =
      if memo.has i then .ok ⟨rest, active, memo⟩
      else if (ns.parents i).all memo.has then
        match combine ns memo i with
        | .ok l => .ok ⟨rest, active.erase i, memo.insert i l⟩
        | .error f => .error f
      else
        match closing? ns ⟨[], active, memo⟩ i with
        | some p => .error (.cycle p i)
        | none => .ok ⟨missing ns memo i ++ i :: rest, i :: active, memo⟩ := by
  cases hknown : memo.has i with
  | true =>
    rw [if_pos rfl]
    exact turn_known rest hknown
  | false =>
    rw [if_neg Bool.false_ne_true]
    by_cases hparents : (ns.parents i).all memo.has = true
    · rw [if_pos hparents]
      exact turn_combines rest hknown (Or.inl (missing_eq_nil_iff.2 hparents))
    · rw [if_neg hparents]
      have unseen : Unseen active memo i := ⟨hknown, h.inactive_of_missing hparents⟩
      exact turn_starts rest unseen fun hnil => hparents (missing_eq_nil_iff.1 hnil)

/-- Where all nodes are known, none of their linearizations is left out. -/
theorem mapM_get?_of_known {ps : List Nat} (h : ∀ p ∈ ps, memo.has p = true) :
    ps.mapM memo.get? = some (ps.filterMap memo.get?) := by
  induction ps with
  | nil => rfl
  | cons p ps ih =>
    obtain ⟨hp, hps⟩ := List.forall_mem_cons.1 h
    obtain ⟨l, hl⟩ := Option.isSome_iff_exists.1 hp
    rw [List.mapM_cons, hl, ih hps, List.filterMap_cons_some hl]
    rfl

/-- A fault of the kind of a cycle is met on an elementary cycle of nodes that are not known. The
parent that is named comes first on it, and the node at fault last. -/
theorem Layers.cycle_of_turn (h : Layers ns memo requested active (i :: rest)) {p j : Nat}
    (hturn : turn ns ⟨i :: rest, active, memo⟩ i rest = .error (.cycle p j)) :
    j = i ∧ ∃ c, ElementaryCycle (Step ns.parents) c ∧ c.head? = some p ∧ c.getLast? = some i ∧
      ∀ a ∈ c, memo.has a = false := by
  rw [h.turn_eq] at hturn
  split at hturn
  · cases hturn
  · rename_i hunknown
    split at hturn
    · -- a merge that is blocked is no cycle
      split at hturn
      · cases hturn
      · rename_i f hcombine
        cases hturn
        exact absurd hcombine (combine_ne_cycle ns memo i p j)
    · rename_i hparents
      split at hturn
      · rename_i q hclosing
        cases hturn
        obtain ⟨hmissing, hactive⟩ := mem_of_closing? hclosing
        have hpath := h.path (h.inactive_of_missing hparents)
        obtain ⟨c, hsuffix, hcycle, hhead, hlast⟩ := hpath.exists_cycle
          (List.mem_reverse.2 hactive) (List.mem_filter.1 hmissing).1
        refine ⟨rfl, c, hcycle, hhead, hlast, ?_⟩
        intro a ha
        rcases List.mem_cons.1 (List.mem_reverse.1 (hsuffix.subset ha)) with rfl | ha
        · simpa using hunknown
        · exact h.unknown a ha
      · cases hturn

/-! ## The end of a search -/

theorem Reached.run_eq (h : Reached ns before requested k s) :
    run ns ⟨[requested], [], before⟩ = run ns s := by
  induction h with
  | start => rfl
  | @next _ s t i rest _ top taken ih =>
    obtain ⟨stack, active, memo⟩ := s
    obtain rfl : stack = i :: rest := top
    rw [ih, run_of_turn_ok rest taken]

/-- A search that has been reached is carried on until its stack is empty or its turn meets a
fault. -/
theorem Reached.exists_last (h : Reached ns before requested k s) :
    ∃ n t, Reached ns before requested n t ∧
      (t.stack = [] ∨ ∃ j rest f, t.stack = j :: rest ∧ turn ns t j rest = .error f) := by
  -- what is left of the budget shrinks from turn to turn
  induction hb : budget ns s using Nat.strong_induction_on generalizing k s with
  | _ b ih =>
    subst hb
    cases hs : s.stack with
    | nil => exact ⟨k, s, h, Or.inl hs⟩
    | cons j rest =>
      cases hturn : turn ns s j rest with
      | error f => exact ⟨k, s, h, Or.inr ⟨j, rest, f, hs, hturn⟩⟩
      | ok t => exact ih _ (takes_of_turn hs hturn).budget_lt (h.next hs hturn) rfl

/-- What holds when a search has its turn, with `i` on top of the stack and `rest` under it. -/
structure Orderly (ns : Nodes) (before : Memo) (requested : Nat) (s : Search) (i : Nat)
    (rest : List Nat) : Prop where
  /-- What was memoized before the search still is. -/
  kept : ∀ j l, before.get? j = some l → s.memo.get? j = some l
  /-- The nodes under way are a path from the requested node to the one on top, which is the last of
  them or would follow it. -/
  path : SimplePath (Step ns.parents) requested i
    (if i ∈ s.active then s.active.reverse else (i :: s.active).reverse)
  /-- No node under way is known. -/
  unknown : ∀ a ∈ s.active, s.memo.has a = false
  /-- A node that is about to be linearized, since it comes up again or no parent was missing, has
  parents that are all known. -/
  ready : s.memo.has i = false →
    (!s.active.contains i && !(missing ns s.memo i).isEmpty) = false →
    ∀ p ∈ ns.parents i, s.memo.has p = true
  /-- The linearizations that are then put together are those of all the parents. -/
  combined : (∀ p ∈ ns.parents i, s.memo.has p = true) →
    (ns.parents i).mapM s.memo.get? = some ((ns.parents i).filterMap s.memo.get?)
  /-- What `combine` makes of a node with a missing parent makes no difference to a turn. -/
  turn_eq : turn ns s i rest =
    if s.memo.has i then .ok ⟨rest, s.active, s.memo⟩
    else if (ns.parents i).all s.memo.has then
      match combine ns s.memo i with
      | .ok l => .ok ⟨rest, s.active.erase i, s.memo.insert i l⟩
      | .error f => .error f
    else
      match closing? ns s i with
      | some p => .error (.cycle p i)
      | none => .ok ⟨missing ns s.memo i ++ i :: rest, i :: s.active, s.memo⟩
  /-- Where a cycle is reported, the parent and the node that are named lie on one, none of whose
  nodes is known. -/
  cycle : ∀ p j, turn ns s i rest = .error (.cycle p j) →
    j = i ∧ ∃ c, ElementaryCycle (Step ns.parents) c ∧ c.head? = some p ∧ c.getLast? = some i ∧
      ∀ a ∈ c, s.memo.has a = false

theorem Reached.orderly (h : Reached ns before requested k s) (hs : s.stack = i :: rest) :
    Orderly ns before requested s i rest := by
  have hlayers := h.layers
  have hkept : ∀ j l, before.get? j = some l → s.memo.get? j = some l := fun j l => h.grows
  obtain ⟨stack, active, memo⟩ := s
  obtain rfl : stack = i :: rest := hs
  refine ⟨hkept, ?_, hlayers.unknown, ?_, fun hknown => mapM_get?_of_known hknown, hlayers.turn_eq,
    fun p j => hlayers.cycle_of_turn⟩
  · rcases hlayers.cases_top with ⟨hi, _⟩ | ⟨lower, hactive, unseen, _, hlower⟩
    · rw [if_neg hi]
      exact hlayers.path hi
    · obtain rfl : active = i :: lower := hactive
      rw [if_pos List.mem_cons_self]
      exact hlower.path unseen.inactive
  · intro _ hready
    rw [Bool.and_eq_false_iff, Bool.not_eq_false', Bool.not_eq_false'] at hready
    rcases hready with hactive | hnil
    · exact hlayers.parents_known (List.contains_iff_mem.1 hactive)
    · exact List.all_eq_true.1 (missing_eq_nil_iff.1 (List.isEmpty_iff.1 hnil))

/-- Over nodes with any links and with any memo, a search comes to its end, in at most as many turns
as there are nodes and links, and one more. Whenever it has its turn, the nodes under way are a path
from the requested node to the one on top of the stack, a node is linearized only from the known
linearizations of all of its parents, and a cycle is reported only where there is one of nodes that
are not known. At the end nothing is under way and the requested node is known, unless a fault was
met; this is what is answered. -/
theorem orderly_search (ns : Nodes) (memo : Memo) (i : Nat) :
    (∀ k s, Reached ns memo i k s →
      k + s.stack.length ≤ 1 + ∑ j ∈ Finset.range ns.size, ((ns.parents j).length + 1) ∧
        ∀ j rest, s.stack = j :: rest → Orderly ns memo i s j rest) ∧
      ∃ k s, Reached ns memo i k s ∧ (linearize ns memo i).1 = s.memo ∧
        ((s.stack = [] ∧ s.active = [] ∧
            ∃ l, s.memo.get? i = some l ∧ (linearize ns memo i).2 = .ok l) ∨
          ∃ j rest f, s.stack = j :: rest ∧ turn ns s j rest = .error f ∧
            (linearize ns memo i).2 = .error f) := by
  refine ⟨fun k s h => ⟨h.turns_le, fun j rest => h.orderly⟩, ?_⟩
  obtain ⟨k, s, h, hend⟩ := Reached.exists_last (.start : Reached ns memo i 0 _)
  have hrun := h.run_eq
  have hlayers := h.layers
  refine ⟨k, s, h, ?_⟩
  obtain ⟨stack, active, after⟩ := s
  rcases hend with hstack | ⟨j, rest, f, hstack, hturn⟩
  · obtain rfl : stack = [] := hstack
    obtain rfl : active = [] := hlayers.active_eq_nil
    obtain ⟨l, hl⟩ := Option.isSome_iff_exists.1 hlayers.known_of_empty
    rw [linearize_of_run (hrun.trans (run_nil [] after))]
    refine ⟨rfl, Or.inl ⟨rfl, rfl, l, hl, ?_⟩⟩
    simp only [hl, Option.getD_some]
  · obtain rfl : stack = j :: rest := hstack
    rw [linearize_of_run (hrun.trans (run_of_turn_error rest hturn))]
    exact ⟨rfl, Or.inr ⟨j, rest, f, rfl, hturn, rfl⟩⟩

/-- A class that inherits from a known one, and twice from one that inherits from it. -/
def entangled : Nodes :=
  #[{ name := "A", parents := [1, 2, 2] }, { name := "B" }, { name := "C", parents := [1, 0] }]

/-- The search for the class has started it when it meets the cycle. -/
theorem orderly_search_entangled :
    Reached entangled ⟨[(1, [1])]⟩ 0 1 ⟨[2, 2, 0], [0], ⟨[(1, [1])]⟩⟩ ∧
      SimplePath (Step entangled.parents) 0 2 [0, 2] ∧
      turn entangled ⟨[2, 2, 0], [0], ⟨[(1, [1])]⟩⟩ 2 [2, 0] = .error (.cycle 0 2) ∧
      ∃ c, ElementaryCycle (Step entangled.parents) c ∧ c.head? = some 0 ∧ c.getLast? = some 2 ∧
        ∀ a ∈ c, Memo.has ⟨[(1, [1])]⟩ a = false := by
  have hreached : Reached entangled ⟨[(1, [1])]⟩ 0 1 ⟨[2, 2, 0], [0], ⟨[(1, [1])]⟩⟩ :=
    .next .start rfl rfl
  have hturn : turn entangled ⟨[2, 2, 0], [0], ⟨[(1, [1])]⟩⟩ 2 [2, 0] = .error (.cycle 0 2) := rfl
  obtain ⟨hstates, _⟩ := orderly_search entangled ⟨[(1, [1])]⟩ 0
  have horderly := (hstates 1 _ hreached).2 2 [2, 0] rfl
  exact ⟨hreached, horderly.path, hturn, (horderly.cycle 0 2 hturn).2⟩

end Linearization

end Lineage
