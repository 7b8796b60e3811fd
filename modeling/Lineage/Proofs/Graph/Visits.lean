import Lineage.Proofs.Graph.Order

/-!
# The dependency order as a recursion

The order of the nodes is that of a plain recursion. Visiting a node does nothing if it has been
visited; otherwise the node is marked, its parents and then its roles are visited, and the node is
emitted. The nodes to start from are visited in the order of their names, those of one name as they
were given (`sort_eq_visits`).

The recursion ends although the nodes may depend on each other in cycles: a visit that goes on marks
one more node, or it is the visit of a node beyond the registry, which leads nowhere.
-/

namespace Lineage.Order

variable {ns ns' : Nodes} {is : List Nat}

/-! ## Visits -/

/-- What is left by visits that begin with some nodes marked. -/
structure Visited (before : List Nat) where
  /-- The nodes that are marked in the end. -/
  marked : List Nat
  /-- The nodes that were emitted, the first one first. -/
  emitted : List Nat
  kept : before ⊆ marked

mutual
/-- Visits a node unless it is marked: marks it, visits its parents and its roles, and emits it. -/
def visit (ns : Nodes) (marked : List Nat) (i : Nat) : Visited marked :=
  if i ∈ marked then ⟨marked, [], List.Subset.refl marked⟩
  else
    let below := visitEach ns (i :: marked) (ns.parents i ++ ns.roles i)
    ⟨below.marked, below.emitted ++ [i], fun _ hj => below.kept (List.mem_cons_of_mem i hj)⟩
termination_by (unvisited ns ⟨marked, [], []⟩, 1)
decreasing_by
  rename_i hi
  rcases unvisited_enter ns hi with hlt | hnil
  · exact Prod.Lex.left _ _ hlt
  · -- beyond the registry there is nothing to visit
    rw [show ns.parents i ++ ns.roles i = [] from hnil]
    exact Prod.Lex.right' _ (unvisited_le ns (fun j hj => List.mem_cons_of_mem i hj) _ _ _ _)
      Nat.one_pos

/-- Visits the nodes one after the other. -/
def visitEach (ns : Nodes) (marked : List Nat) (is : List Nat) : Visited marked :=
  match is with
  | [] => ⟨marked, [], List.Subset.refl marked⟩
  | i :: rest =>
    let first := visit ns marked i
    let others := visitEach ns first.marked rest
    ⟨others.marked, first.emitted ++ others.emitted, fun _ hj => others.kept (first.kept hj)⟩
termination_by (unvisited ns ⟨marked, [], []⟩, 2 * is.length)
decreasing_by
  · exact Prod.Lex.right _ (by rw [List.length_cons]; omega)
  · exact Prod.Lex.right' _ (unvisited_le ns (fun j hj => first.kept hj) _ _ _ _)
      (by rw [List.length_cons]; omega)
end

/-- The recursion walks as the walk through its nodes does. -/
theorem walks_visitEach (ns : Nodes) (marked is : List Nat) :
    Walks ns.dependencies marked is (visitEach ns marked is).marked
      (visitEach ns marked is).emitted := by
  -- a visit begins any walk that goes on from the nodes it has marked
  refine visitEach.induct ns
    (fun marked i => ∀ rest after out,
      Walks ns.dependencies (visit ns marked i).marked rest after out →
        Walks ns.dependencies marked (i :: rest) after ((visit ns marked i).emitted ++ out))
    (fun marked is => Walks ns.dependencies marked is (visitEach ns marked is).marked
      (visitEach ns marked is).emitted) ?skip ?enter ?nil ?cons marked is
  case skip =>
    intro marked i hi rest after out hrest
    rw [visit, if_pos hi] at hrest ⊢
    exact .skip hi hrest
  case enter =>
    intro marked i hi hbelow rest after out hrest
    rw [visit, if_neg hi] at hrest ⊢
    rw [List.append_assoc]
    exact .enter hi hbelow hrest
  case nil =>
    intro marked
    rw [visitEach]
    exact .done
  case cons =>
    intro marked i rest first hfirst hothers _
    rw [visitEach]
    exact hfirst rest _ _ hothers

/-! ## The nodes to start from -/

/-- `starts` are the nodes in the order of their names, those of one name as they stand in `is`. -/
structure StablySorted (ns : Nodes) (is starts : List Nat) : Prop where
  perm : starts.Perm is
  ascending : starts.Pairwise fun i j => ns.name i ≤ ns.name j
  stable : ∀ t, starts.filter (ns.name · == t) = is.filter (ns.name · == t)

theorem stablySorted_byName (ns : Nodes) (is : List Nat) :
    StablySorted ns is (byName ns is) where
  perm := byName_perm ns is
  ascending := List.pairwise_map.1 (pairwise_names_byName ns is)
  stable := by
    intro t
    -- sorting keeps what is in order already, such as the nodes of one name
    have hordered : (is.filter (ns.name · == t)).Pairwise
        fun i j => decide (ns.name i ≤ ns.name j) = true := by
      rw [List.pairwise_iff_forall_sublist]
      intro i j hij
      have hname : ∀ {k}, k ∈ [i, j] → ns.name k = t := fun {k} hk =>
        eq_of_beq (List.mem_filter.1 (hij.subset hk)).2
      rw [hname List.mem_cons_self, hname (List.mem_cons_of_mem i List.mem_cons_self)]
      exact decide_eq_true (le_refl t)
    have hsublist : (is.filter (ns.name · == t)).Sublist (byName ns is) :=
      List.sublist_mergeSort (fun i j k => by simpa using le_trans)
        (fun i j => by simpa using le_total _ _) hordered List.filter_sublist
    have hkept : (is.filter (ns.name · == t)).Sublist ((byName ns is).filter (ns.name · == t)) := by
      have hfilter := hsublist.filter (ns.name · == t)
      rw [List.filter_filter] at hfilter
      simpa only [Bool.and_self] using hfilter
    -- the sorted nodes have as many of that name, so there are no others among them
    exact (hkept.eq_of_length ((byName_perm ns is).filter _).length_eq.symm).symm

section Ascending

variable {l m : List Nat}

theorem mem_iff_of_filter_eq (h : ∀ t, l.filter (ns.name · == t) = m.filter (ns.name · == t))
    (k : Nat) : k ∈ l ↔ k ∈ m := by
  have hk : k ∈ l.filter (ns.name · == ns.name k) ↔ k ∈ m.filter (ns.name · == ns.name k) := by
    rw [h]
  simpa using hk

/-- Lists in the order of the names are equal if they agree on the nodes of each name. -/
theorem eq_of_ascending (hl : l.Pairwise fun i j => ns.name i ≤ ns.name j)
    (hm : m.Pairwise fun i j => ns.name i ≤ ns.name j)
    (h : ∀ t, l.filter (ns.name · == t) = m.filter (ns.name · == t)) : l = m := by
  induction l generalizing m with
  | nil =>
    have hnone : ∀ k, k ∉ m := fun k hk => List.not_mem_nil ((mem_iff_of_filter_eq h k).2 hk)
    exact (List.eq_nil_iff_forall_not_mem.2 hnone).symm
  | cons i l ih =>
    cases m with
    | nil => exact absurd ((mem_iff_of_filter_eq h i).1 List.mem_cons_self) List.not_mem_nil
    | cons j m =>
      obtain ⟨hi, hlRest⟩ := List.pairwise_cons.1 hl
      obtain ⟨hj, hmRest⟩ := List.pairwise_cons.1 hm
      -- each head occurs in the other list, so neither name comes before the other
      have hij : ns.name i ≤ ns.name j := by
        rcases List.mem_cons.1 ((mem_iff_of_filter_eq h j).2 List.mem_cons_self) with rfl | hmem
        · exact le_refl _
        · exact hi j hmem
      have hji : ns.name j ≤ ns.name i := by
        rcases List.mem_cons.1 ((mem_iff_of_filter_eq h i).1 List.mem_cons_self) with rfl | hmem
        · exact le_refl _
        · exact hj i hmem
      have hname := le_antisymm hij hji
      have hhead : i = j := by
        have hfilter := h (ns.name i)
        simp only [List.filter_cons, hname, beq_self_eq_true, if_true] at hfilter
        exact (List.cons.inj hfilter).1
      subst hhead
      have hrest : ∀ t, l.filter (ns.name · == t) = m.filter (ns.name · == t) := by
        intro t
        have hfilter := h t
        rw [List.filter_cons, List.filter_cons] at hfilter
        split at hfilter
        · exact (List.cons.inj hfilter).2
        · exact hfilter
      exact congrArg (i :: ·) (ih hlRest hmRest hrest)

end Ascending

/-- Sorting stably by name has one result. -/
theorem StablySorted.eq_byName {starts : List Nat} (h : StablySorted ns is starts) :
    starts = byName ns is := by
  have hsorted := stablySorted_byName ns is
  exact eq_of_ascending h.ascending hsorted.ascending fun t =>
    (h.stable t).trans (hsorted.stable t).symm

/-- Where each name is that of one node, the order in which the nodes are given has no effect. -/
theorem byName_eq_of_perm {is' : List Nat}
    (hnames : ∀ i ∈ is, ∀ j ∈ is, ns.name i = ns.name j → i = j) (hperm : is'.Perm is) :
    byName ns is' = byName ns is := by
  have hsame : (byName ns is').Perm (byName ns is) :=
    (byName_perm ns is').trans (hperm.trans (byName_perm ns is).symm)
  refine hsame.eq_of_pairwise ?_ (stablySorted_byName ns is').ascending
    (stablySorted_byName ns is).ascending
  intro i j hi hj hij hji
  have hiMem : i ∈ is := hperm.mem_iff.1 ((byName_perm ns is').mem_iff.1 hi)
  exact hnames i hiMem j ((byName_perm ns is).mem_iff.1 hj) (le_antisymm hij hji)

/-! ## The order -/

theorem sort_eq_emitted (ns : Nodes) (is : List Nat) :
    sort ns is = (visitEach ns [] (byName ns is)).emitted := by
  obtain ⟨after, hwalks⟩ := sort_spec ns is
  exact (hwalks.unique (walks_visitEach ns [] (byName ns is))).2

/-- Repeated dependencies have no effect on the order. -/
theorem sort_congr (hnames : ns'.name = ns.name)
    (hdependencies : ∀ i, SameFirsts (ns'.dependencies i) (ns.dependencies i)) :
    sort ns' is = sort ns is := by
  have hbyName : byName ns' is = byName ns is := by
    unfold byName
    rw [hnames]
  obtain ⟨after, hwalks⟩ := sort_spec ns is
  obtain ⟨after', hwalks'⟩ := sort_spec ns' is
  -- the walk through one registry, read as a walk through the other one under the same indices
  have hren : Renaming ns.dependencies ns'.dependencies id fun _ => True :=
    Renaming.of_sameFirsts (fun _ _ _ _ => trivial) fun i _ => hdependencies i
  have hmap := hwalks.map hren (fun _ _ => trivial) fun _ _ => trivial
  simp only [List.map_id] at hmap
  rw [hbyName] at hwalks'
  exact (hwalks'.unique hmap).2

/-- The nodes are put into the order of the recursion that visits them one after the other, starting
in the order of their names and with those of one name as they were given. Entries that repeat an
earlier parent or role of a node have no effect, and if each name is that of one node, neither has
the order in which the nodes are given. -/
theorem sort_eq_visits (ns : Nodes) (is : List Nat) :
    (∃! starts, StablySorted ns is starts) ∧
      (∀ starts, StablySorted ns is starts → sort ns is = (visitEach ns [] starts).emitted) ∧
      (∀ ns' : Nodes, (∀ i, ns'.name i = ns.name i ∧ SameFirsts (ns'.parents i) (ns.parents i) ∧
        SameFirsts (ns'.roles i) (ns.roles i)) → sort ns' is = sort ns is) ∧
      ((∀ i ∈ is, ∀ j ∈ is, ns.name i = ns.name j → i = j) →
        ∀ is' : List Nat, is'.Perm is → sort ns is' = sort ns is) := by
  refine ⟨⟨byName ns is, stablySorted_byName ns is, fun starts h => h.eq_byName⟩, ?_, ?_, ?_⟩
  · intro starts h
    rw [h.eq_byName]
    exact sort_eq_emitted ns is
  · intro ns' h
    refine sort_congr (funext fun i => (h i).1) fun i => ?_
    obtain ⟨_, hparents, hroles⟩ := h i
    exact hparents.append hroles
  · intro hnames is' hperm
    unfold sort
    rw [byName_eq_of_perm hnames hperm]

/-- Two types inherit from each other, one of them twice from the other. -/
def repeating : Nodes :=
  #[{ name := "A", parents := [1, 2, 1] }, { name := "B", parents := [0] }, { name := "C" }]

/-- The nodes stand in the order of their names. They are visited in that order as well when they
are given in another one. -/
theorem sort_eq_visits_repeating :
    StablySorted repeating [0, 1, 2] [0, 1, 2] ∧
      sort repeating [0, 1, 2] = (visitEach repeating [] [0, 1, 2]).emitted ∧
      sort (repeating.modify 0 fun n => { n with parents := [1, 2] }) [0, 1, 2] =
        sort repeating [0, 1, 2] ∧
      sort repeating [2, 0, 1] = sort repeating [0, 1, 2] := by
  obtain ⟨_, hvisits, hrepeats, hperm⟩ := sort_eq_visits repeating [0, 1, 2]
  have hstarts : StablySorted repeating [0, 1, 2] [0, 1, 2] :=
    ⟨.refl _, by decide, fun _ => rfl⟩
  refine ⟨hstarts, hvisits _ hstarts, hrepeats _ fun i => ?_, hperm (by decide) _ (by decide)⟩
  by_cases hi : i = 0
  · rw [hi]
    exact ⟨rfl, by unfold SameFirsts; decide, .refl _⟩
  · -- the other nodes stay as they are
    have hother : (repeating.modify 0 fun n => { n with parents := [1, 2] })[i]? = repeating[i]? :=
      Nodes.getElem?_modify_of_ne (Ne.symm hi)
    unfold Nodes.name Nodes.parents Nodes.roles
    rw [hother]
    exact ⟨rfl, .refl _, .refl _⟩

end Lineage.Order
