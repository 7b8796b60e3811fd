import Lineage.Graph.Build
import Lineage.Proofs.Graph.View
import Lineage.Proofs.Unfolding

/-!
# Handing down the parents of roles

The roles that a node composes are drained from a worklist. Without a cycle among the roles the
budget suffices, and what is drained is the unfolding of the node by its roles
(`composed?_of_unfolds`).

The nodes are flattened one after the other, so some roles have been given parents already when
their own parents are handed down, and others have not. Up to repeats this makes no difference:
in the end every node has the parents that it and the roles it unfolds to were declared with
(`flattenRoles_spec`).
-/

open Relation (TransGen ReflTransGen)

namespace Lineage

/-- What a view becomes when each name gets the parents of all roles that it unfolds to. -/
def View.flattened (v : View) (of : Text → List Text) : View :=
  v.withParents fun t => (of t).flatMap v.parents

namespace Graph

variable {ns : Nodes} {of : Nat → List Nat}

/-! ## Draining the roles -/

theorem drain_of_unfolds (h : Unfolds ns.roles of) (fuel : Nat) (work taken : List Nat)
    (hfuel : (work.flatMap of).length ≤ fuel) :
    drain ns fuel work taken = some (taken.reverse ++ work.flatMap of) := by
  induction fuel generalizing work taken with
  | zero =>
    cases work with
    | nil =>
      unfold drain
      simp
    | cons r rest =>
      rw [List.flatMap_cons, h r] at hfuel
      simp at hfuel
  | succ fuel ih =>
    cases work with
    | nil =>
      unfold drain
      simp
    | cons r rest =>
      -- the roles of the role take its place on the worklist
      have hwork : (r :: rest).flatMap of = r :: ((ns.roles r).reverse ++ rest).flatMap of := by
        rw [List.flatMap_cons, List.flatMap_append, h r, List.cons_append]
      rw [hwork, List.length_cons] at hfuel
      unfold drain
      rw [ih _ _ (Nat.le_of_succ_le_succ hfuel), hwork, List.reverse_cons, List.append_assoc]
      rfl

theorem length_roles_le (ns : Nodes) (i : Nat) :
    (ns.roles i).length ≤ (ns.toList.flatMap (·.roles)).length := by
  cases hn : ns[i]? with
  | none =>
    rw [Nodes.roles_of_size_le (Array.getElem?_eq_none_iff.1 hn)]
    exact Nat.zero_le _
  | some n =>
    rw [Nodes.roles_of_getElem? hn]
    have hmem : n ∈ ns.toList := Array.mem_toList_iff.2 (Array.mem_of_getElem? hn)
    exact (List.sublist_flatten_of_mem (List.mem_map_of_mem hmem)).length_le

/-- The budget suffices, and what is drained is the unfolding behind the node itself. -/
theorem composed?_of_unfolds (h : Unfolds ns.roles of) (i : Nat) :
    composed? ns i = some ((ns.roles i).reverse.flatMap of) := by
  have hbound : (of i).length ≤ drainBudget ns := by
    have hpow := h.length_le_pow (fun j => Nat.lt_succ_of_le (length_roles_le ns j))
      (Finset.range ns.size) i fun j _ hj => ?_
    · rwa [Finset.card_range] at hpow
    · exact Finset.mem_range.2 (Nodes.lt_size_of_roles_ne_nil hj)
  rw [h i, List.length_cons] at hbound
  unfold composed?
  rw [drain_of_unfolds h _ _ _ (Nat.le_of_succ_le hbound)]
  rfl

/-! ## Flattening node by node -/

theorem agreeOn_addParents (ns : Nodes) (i : Nat) (more : List Nat) :
    Nodes.AgreeOn Nodes.core ns (ns.addParents i more) :=
  Nodes.agreeOn_modify fun _ => rfl

theorem parents_addParents (ns : Nodes) (i j : Nat) (more : List Nat) (hi : i < ns.size) :
    (ns.addParents i more).parents j =
      if j = i then ns.parents i ++ more else ns.parents j := by
  obtain ⟨n, hn⟩ := Nodes.exists_of_lt_size hi
  unfold Nodes.addParents
  split
  · rename_i hji
    rw [hji, Nodes.parents_of_getElem? (Nodes.getElem?_modify_self hn),
      Nodes.parents_of_getElem? hn]
  · rename_i hji
    rw [Nodes.parents_eq_getD, Nodes.parents_eq_getD ns, Nodes.getElem?_modify_of_ne (Ne.symm hji)]

/-- The parents of a node are those that it was declared with, or all it is to have. -/
def Underway (of : Nat → List Nat) (old cur : Nat → List Nat) : Prop :=
  ∀ j, cur j = old j ∨ SameFirsts (cur j) ((of j).flatMap old)

/-- One node is flattened: it has all it is to have, and the others stay as they are. -/
theorem flattenOne_spec {old : Nat → List Nat} (h : Unfolds ns.roles of)
    (hcur : Underway of old ns.parents) {i : Nat} (hi : i < ns.size) :
    ∃ ns', flattenOne ns i = some ns' ∧ Nodes.AgreeOn Nodes.core ns ns' ∧
      SameFirsts (ns'.parents i) ((of i).flatMap old) ∧
      ∀ j, j ≠ i → ns'.parents j = ns.parents j := by
  refine ⟨ns.addParents i (((ns.roles i).reverse.flatMap of).flatMap ns.parents), ?_,
    agreeOn_addParents _ _ _, ?_, ?_⟩
  · unfold flattenOne
    rw [composed?_of_unfolds h]
    rfl
  · rw [parents_addParents _ _ _ _ hi, if_pos rfl]
    have hall : ns.parents i ++ ((ns.roles i).reverse.flatMap of).flatMap ns.parents =
        (of i).flatMap ns.parents := by
      rw [h i, List.flatMap_cons]
    rw [hall]
    exact h.sameFirsts_flatMap hcur i
  · intro j hj
    rw [parents_addParents _ _ _ _ hi, if_neg hj]

/-- Flattening nodes one after the other gives each of them all it is to have. -/
theorem flattenEach_spec {old : Nat → List Nat} (is : List Nat) (h : Unfolds ns.roles of)
    (hcur : Underway of old ns.parents) (his : ∀ i ∈ is, i < ns.size) :
    ∃ ns', flattenEach is ns = some ns' ∧ Nodes.AgreeOn Nodes.core ns ns' ∧
      Underway of old ns'.parents ∧
      ∀ j, j ∈ is ∨ SameFirsts (ns.parents j) ((of j).flatMap old) →
        SameFirsts (ns'.parents j) ((of j).flatMap old) := by
  induction is generalizing ns with
  | nil =>
    refine ⟨ns, rfl, Nodes.AgreeOn.refl _ _, hcur, ?_⟩
    rintro j (hj | hj)
    · cases hj
    · exact hj
  | cons i is ih =>
    obtain ⟨ns₁, hone, hagree₁, hi₁, hothers⟩ :=
      flattenOne_spec h hcur (his i List.mem_cons_self)
    have hcur₁ : Underway of old ns₁.parents := by
      intro j
      by_cases hj : j = i
      · rw [hj]
        exact Or.inr hi₁
      · rw [hothers j hj]
        exact hcur j
    have his₁ : ∀ k ∈ is, k < ns₁.size := by
      intro k hk
      rw [hagree₁.size_eq]
      exact his k (List.mem_cons_of_mem i hk)
    obtain ⟨ns₂, heach, hagree₂, hcur₂, hdone⟩ := ih (hagree₁.core_roles ▸ h) hcur₁ his₁
    refine ⟨ns₂, ?_, hagree₁.trans hagree₂, hcur₂, ?_⟩
    · unfold flattenEach
      rw [hone]
      exact heach
    · intro j hj
      refine hdone j ?_
      by_cases hji : j = i
      · rw [hji]
        exact Or.inr hi₁
      · rw [hothers j hji]
        rcases hj with hj | hj
        · exact Or.inl (List.mem_of_ne_of_mem hji hj)
        · exact Or.inr hj

/-! ## The pass as a whole -/

variable {g : Graph}

/-- Roles that compose each other without a cycle can be unfolded. -/
theorem exists_unfolds_roles (h : Acyclic ns.roles) : ∃ of, Unfolds ns.roles of :=
  h.exists_unfolds (Finset.range ns.size) fun _ hi =>
    Finset.mem_range.2 (Nodes.lt_size_of_roles_ne_nil hi)

/-- The pass succeeds if the roles compose without a cycle. It gives each node the parents that it
and the roles it unfolds to were declared with, and changes nothing else. -/
theorem flattenRoles_spec (wf : g.nodes.WellFormed) (h : Unfolds g.nodes.roles of) :
    ∃ g' : Graph, g.flattenRoles = some g' ∧ SameBesidesNodes g g' ∧ g'.nodes.WellFormed ∧
      Nodes.AgreeOn Nodes.core g.nodes g'.nodes ∧
      ∀ j, SameFirsts (g'.nodes.parents j) ((of j).flatMap g.nodes.parents) := by
  obtain ⟨ns', heach, hagree, _, hdone⟩ :=
    flattenEach_spec (List.range g.nodes.size) h (fun _ => Or.inl rfl) fun i hi =>
      List.mem_range.1 hi
  have hsame : ∀ j, SameFirsts (ns'.parents j) ((of j).flatMap g.nodes.parents) := by
    intro j
    by_cases hj : j < g.nodes.size
    · exact hdone j (Or.inl (List.mem_range.2 hj))
    · -- beyond the registry there are neither roles nor parents
      have hle := Nat.le_of_not_lt hj
      refine hdone j (Or.inr ?_)
      rw [h j, Nodes.roles_of_size_le hle, Nodes.parents_of_size_le hle, List.flatMap_cons,
        Nodes.parents_of_size_le hle]
      exact .refl _
  refine ⟨{ g with nodes := ns' }, ?_, sameBesidesNodes_withNodes g ns', ?_, hagree, hsame⟩
  · unfold flattenRoles
    show (flattenEach (List.range g.nodes.size) g.nodes).map _ = _
    rw [heach]
    rfl
  · refine hagree.wellFormed wf ?_
    intro i p hp
    -- handed down parents are parents of some node
    rw [(hsame i).mem_iff] at hp
    obtain ⟨j, _, hp⟩ := List.mem_flatMap.1 hp
    exact wf.parents_closed j p hp

/-- By name, the parents that a node is to have are those of the names that it unfolds to. -/
theorem flatMap_view_parents {ofNames : Text → List Text} (wf : ns.WellFormed)
    (h : Unfolds ns.roles of) (hnames : Unfolds ns.view.roles ofNames) {i : Nat}
    (hi : i < ns.size) :
    (ofNames (ns.name i)).flatMap ns.view.parents = ns.names ((of i).flatMap ns.parents) := by
  have hunfold : ofNames (ns.name i) = (of i).map ns.name :=
    h.map hnames (fun j _ => wf.roles_closed j) (fun j hj => Nodes.view_roles wf hj) i hi
  have hreach : ∀ j ∈ of i, j < ns.size := h.closed (fun j _ => wf.roles_closed j) i hi
  rw [hunfold, List.flatMap_map]
  unfold Nodes.names
  rw [List.map_flatMap]
  apply List.flatMap_congr
  intro j hj
  exact Nodes.view_parents wf (hreach j hj)

/-- By name, the pass gives each name the parents of all names that it unfolds to. -/
theorem flattenRoles_view {g' : Graph} {ofNames : Text → List Text} (wf : g.nodes.WellFormed)
    (wf' : g'.nodes.WellFormed) (h : Unfolds g.nodes.roles of)
    (hnames : Unfolds g.nodes.view.roles ofNames)
    (hagree : Nodes.AgreeOn Nodes.core g.nodes g'.nodes)
    (hparents : ∀ j, SameFirsts (g'.nodes.parents j) ((of j).flatMap g.nodes.parents)) :
    g'.nodes.view.firsts = (g.nodes.view.flattened ofNames).firsts := by
  refine hagree.view_firsts wf wf' _ ?_
  intro i hi
  rw [flatMap_view_parents wf h hnames hi]
  unfold Nodes.names
  rw [hagree.core_name]
  exact (hparents i).map _

end Graph

end Lineage
