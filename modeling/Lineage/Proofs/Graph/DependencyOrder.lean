import Lineage.Proofs.Graph.Order

/-!
# Dependencies come first

The walk that puts the nodes into order enters no node twice, so a cycle of dependencies is cut
short at some node, which then stands before one of its dependencies. All other dependencies come
first: what has been visited when a node is entered has been emitted already, or it leads to the
node (`Walks.ready_forward`). So a node stands behind each of its dependencies that does not lead
back to it, and without a cycle behind all of them.
-/

open Relation (TransGen ReflTransGen)

namespace Lineage.Order

variable {α : Type} {next : α → List α}

/-- Every vertex of the list has its successors before it, in the list or among those that are
`done`. -/
def Ready (next : α → List α) : (done list : List α) → Prop
  | _, [] => True
  | done, a :: rest => (∀ p ∈ next a, p ∈ done) ∧ Ready next (a :: done) rest

theorem ready_append {done l m : List α} :
    Ready next done (l ++ m) ↔ Ready next done l ∧ Ready next (l.reverse ++ done) m := by
  induction l generalizing done with
  | nil => simp [Ready]
  | cons a l ih => simp [Ready, ih, and_assoc]

/-- A vertex stands behind each of its successors, those aside that are done. -/
theorem Ready.idxOf_lt [BEq α] [LawfulBEq α] {done l : List α} (h : Ready next done l) {a p : α}
    (ha : a ∈ l) (hp : p ∈ next a) (hnew : p ∉ done) : l.idxOf p < l.idxOf a := by
  induction l generalizing done with
  | nil => cases ha
  | cons b l ih =>
    obtain ⟨hb, hrest⟩ := h
    have hab : b ≠ a := by
      rintro rfl
      exact hnew (hb p hp)
    rw [List.idxOf_cons_ne l hab]
    by_cases hbp : b = p
    · rw [hbp, List.idxOf_cons_self]
      exact Nat.succ_pos _
    · have hnew' : p ∉ b :: done := List.not_mem_cons_of_ne_of_not_mem (Ne.symm hbp) hnew
      rw [List.idxOf_cons_ne l hbp]
      exact Nat.succ_lt_succ (ih hrest ((List.mem_cons.1 ha).resolve_left hab.symm) hnew')

/-- What counts as done matters only where a vertex has it as a successor. -/
theorem Ready.mono {done done' l : List α} (h : Ready next done l)
    (hdone : ∀ a ∈ l, ∀ p ∈ next a, p ∈ done → p ∈ done') : Ready next done' l := by
  induction l generalizing done done' with
  | nil => trivial
  | cons a l ih =>
    obtain ⟨ha, hrest⟩ := h
    refine ⟨fun p hp => hdone a List.mem_cons_self p hp (ha p hp), ih hrest ?_⟩
    intro b hb p hp hmem
    rcases List.mem_cons.1 hmem with rfl | hmem
    · exact List.mem_cons_self
    · exact List.mem_cons_of_mem a (hdone b (List.mem_cons_of_mem a hb) p hp hmem)

open Classical in
/-- The successors of a vertex that do not lead back to it. -/
noncomputable def forward (next : α → List α) (a : α) : List α :=
  (next a).filter fun p => ¬ ReflTransGen (Step next) p a

theorem mem_forward {a p : α} :
    p ∈ forward next a ↔ p ∈ next a ∧ ¬ ReflTransGen (Step next) p a := by
  unfold forward
  simp only [List.mem_filter, decide_eq_true_eq]

namespace Walks

variable {visited work after out : List α}

/-- What is emitted has its successors visited in the end. -/
theorem next_mem_after (h : Walks next visited work after out) {a p : α} (ha : a ∈ out)
    (hp : p ∈ next a) : p ∈ after := by
  induction h with
  | done => cases ha
  | skip _ _ ih => exact ih ha
  | enter _ above rest ihAbove ihRest =>
    rcases List.mem_append.1 ha with ha | ha
    · exact rest.mem_after_of_visited (ihAbove ha)
    · rcases List.mem_cons.1 ha with rfl | ha
      · exact rest.mem_after_of_visited (above.mem_after_of_work hp)
      · exact ihRest ha

/-- A walk emits every vertex behind those of its successors that do not lead back to it, but for
what was visited before. -/
theorem ready_forward (h : Walks next visited work after out) :
    Ready (forward next) visited out := by
  induction h with
  | done => trivial
  | skip _ _ ih => exact ih
  | @enter visited work between after below out a _ above _ ihAbove ihRest =>
    have hbelow : Ready (forward next) visited below := by
      -- whatever is emitted below the vertex can be reached from it
      have hreach : ∀ b ∈ below, ReflTransGen (Step next) a b :=
        above.closed (fun b hb q hq => hb.tail hq) fun p hp => .single hp
      refine ihAbove.mono fun b hb p hp hmem => (List.mem_cons.1 hmem).resolve_left ?_
      rintro rfl
      exact (mem_forward.1 hp).2 (hreach b hb)
    have hready : ∀ p ∈ forward next a, p ∈ below.reverse ++ visited := by
      intro p hp
      obtain ⟨hnext, hback⟩ := mem_forward.1 hp
      rw [List.mem_append, List.mem_reverse]
      rcases (above.mem_after_iff p).1 (above.mem_after_of_work hnext) with hpv | hpb
      · refine Or.inr ((List.mem_cons.1 hpv).resolve_left ?_)
        rintro rfl
        exact hback .refl
      · exact Or.inl hpb
    have hrest : Ready (forward next) (a :: (below.reverse ++ visited)) out := by
      -- the vertex and all below it have been emitted, so they count as done from here on
      refine ihRest.mono fun b _ p _ hmem => ?_
      rw [List.mem_cons, List.mem_append, List.mem_reverse]
      rcases (above.mem_after_iff p).1 hmem with hpv | hpb
      · exact (List.mem_cons.1 hpv).imp_right Or.inr
      · exact Or.inr (Or.inl hpb)
    exact ready_append.2 ⟨hbelow, hready, hrest⟩

end Walks

/-! ## The order of some nodes -/

section Reachable

variable {ns : Nodes} {is : List Nat} {i d : Nat}

theorem nodup_sort (ns : Nodes) (is : List Nat) : (sort ns is).Nodup := by
  obtain ⟨after, hwalks⟩ := sort_spec ns is
  exact hwalks.nodup_out.1

/-- What can be reached from the nodes is put into order, and nothing else. -/
theorem mem_sort_iff : i ∈ sort ns is ↔ ∃ s ∈ is, ReflTransGen (Step ns.dependencies) s i := by
  obtain ⟨after, hwalks⟩ := sort_spec ns is
  have hstart : ∀ s, s ∈ byName ns is ↔ s ∈ is := fun s => (byName_perm ns is).mem_iff
  have hafter : ∀ {j}, j ∈ after → j ∈ sort ns is := fun {j} hj =>
    ((hwalks.mem_after_iff j).1 hj).resolve_left List.not_mem_nil
  constructor
  · refine hwalks.closed (S := fun j => ∃ s ∈ is, ReflTransGen (Step ns.dependencies) s j) ?_ ?_ i
    · rintro j ⟨s, hs, hsj⟩ q hq
      exact ⟨s, hs, hsj.tail hq⟩
    · exact fun s hs => ⟨s, (hstart s).1 hs, .refl⟩
  · rintro ⟨s, hs, hsi⟩
    induction hsi with
    | refl => exact hafter (hwalks.mem_after_of_work ((hstart s).2 hs))
    | tail _ hstep ih => exact hafter (hwalks.next_mem_after ih hstep)

/-- A node stands behind each of its dependencies that does not lead back to it. -/
theorem idxOf_sort_lt (hi : i ∈ sort ns is) (hd : d ∈ ns.dependencies i)
    (hback : ¬ ReflTransGen (Step ns.dependencies) d i) :
    (sort ns is).idxOf d < (sort ns is).idxOf i := by
  obtain ⟨after, hwalks⟩ := sort_spec ns is
  exact hwalks.ready_forward.idxOf_lt hi (mem_forward.2 ⟨hd, hback⟩) List.not_mem_nil

/-- Without a cycle a node stands behind all that it leads to. -/
theorem idxOf_sort_lt_of_acyclic (hacyclic : Acyclic ns.dependencies) (hi : i ∈ sort ns is)
    (hd : TransGen (Step ns.dependencies) i d) : (sort ns is).idxOf d < (sort ns is).idxOf i := by
  have hstep : ∀ {j p}, j ∈ sort ns is → p ∈ ns.dependencies j →
      (sort ns is).idxOf p < (sort ns is).idxOf j := fun {j p} hj hp =>
    idxOf_sort_lt hj hp fun hback => hacyclic p (Step.cycle_at_successor hp hback)
  obtain ⟨s, hs, hsi⟩ := mem_sort_iff.1 hi
  induction hd with
  | single hd => exact hstep hi hd
  | tail hij hd ih =>
    exact Nat.lt_trans (hstep (mem_sort_iff.2 ⟨s, hs, hsi.trans hij.to_reflTransGen⟩) hd) ih

/-- Without a cycle no node leads to one behind it. -/
theorem pairwise_sort_of_acyclic (hacyclic : Acyclic ns.dependencies) (is : List Nat) :
    (sort ns is).Pairwise fun i j => ¬ TransGen (Step ns.dependencies) i j := by
  have hnodup := nodup_sort ns is
  rw [List.pairwise_iff_getElem]
  intro m n hm hn hmn hpath
  have hlt := idxOf_sort_lt_of_acyclic hacyclic (List.getElem_mem hm) hpath
  rw [hnodup.idxOf_getElem n hn, hnodup.idxOf_getElem m hm] at hlt
  exact Nat.lt_asymm hmn hlt

/-- The nodes that can be reached from the given ones are put into order, each once, and every node
stands behind each of its dependencies that does not lead back to it. So without a cycle every node
stands behind all that it leads to, and a dependency stands behind a node only if both lie on a
common cycle. -/
theorem sort_in_dependency_order (ns : Nodes) (is : List Nat) :
    (sort ns is).Nodup ∧
      (∀ i, i ∈ sort ns is ↔ ∃ s ∈ is, ReflTransGen (Step ns.dependencies) s i) ∧
      (∀ i ∈ sort ns is, ∀ d ∈ ns.dependencies i, ¬ ReflTransGen (Step ns.dependencies) d i →
        (sort ns is).idxOf d < (sort ns is).idxOf i) ∧
      (Acyclic ns.dependencies → ∀ i ∈ sort ns is, ∀ d, TransGen (Step ns.dependencies) i d →
        (sort ns is).idxOf d < (sort ns is).idxOf i) ∧
      ∀ i ∈ sort ns is, ∀ d ∈ ns.dependencies i,
        (sort ns is).idxOf i ≤ (sort ns is).idxOf d →
          ReflTransGen (Step ns.dependencies) i d ∧ ReflTransGen (Step ns.dependencies) d i := by
  refine ⟨nodup_sort ns is, fun i => mem_sort_iff, fun i hi d => idxOf_sort_lt hi,
    fun hacyclic i hi d => idxOf_sort_lt_of_acyclic hacyclic hi, ?_⟩
  intro i hi d hd hle
  refine ⟨.single hd, ?_⟩
  by_contra hback
  exact Nat.not_lt_of_le hle (idxOf_sort_lt hi hd hback)

/-- Two types inherit from each other, and the second one composes a role. -/
def crossing : Nodes :=
  #[{ name := "A", parents := [1] }, { name := "B", parents := [0], roles := [2] },
    { name := "R", kind := .ofRole }]

/-- The role comes before the type that composes it. The first type comes behind the second one,
which inherits from it, but the first one leads to the second one as well. -/
theorem sort_in_dependency_order_crossing :
    2 ∈ crossing.dependencies 1 ∧ ¬ ReflTransGen (Step crossing.dependencies) 2 1 ∧
      (sort crossing [0]).idxOf 2 < (sort crossing [0]).idxOf 1 ∧
      0 ∈ crossing.dependencies 1 ∧ (sort crossing [0]).idxOf 1 ≤ (sort crossing [0]).idxOf 0 ∧
      ReflTransGen (Step crossing.dependencies) 0 1 := by
  obtain ⟨_, hmem, hlt, _, hcycle⟩ := sort_in_dependency_order crossing [0]
  have hstep : 1 ∈ crossing.dependencies 0 := by decide
  have hone : 1 ∈ sort crossing [0] := (hmem 1).2 ⟨0, by decide, .single hstep⟩
  have hback : ¬ ReflTransGen (Step crossing.dependencies) 2 1 := by
    intro h
    -- the role has no dependencies
    rcases ReflTransGen.cases_head h with heq | ⟨p, hp, _⟩
    · cases heq
    · cases hp
  have hle : (sort crossing [0]).idxOf 1 ≤ (sort crossing [0]).idxOf 0 := by cbv
  exact ⟨by decide, hback, hlt 1 hone 2 (by decide) hback, by decide, hle,
    (hcycle 1 hone 0 (by decide) hle).2⟩

end Reachable

/-- In the order of a registry every node stands behind its dependencies exactly if no node depends
on itself. -/
theorem idxOf_sort_lt_iff {ns : Nodes} (wf : ns.WellFormed) :
    (∀ i < ns.size, ∀ d ∈ ns.dependencies i, (sort ns (List.range ns.size)).idxOf d <
      (sort ns (List.range ns.size)).idxOf i) ↔ Acyclic ns.dependencies := by
  constructor
  · intro hlt
    refine acyclic_of_rank (sort ns (List.range ns.size)).idxOf fun i d hd => ?_
    exact hlt i (Nodes.lt_size_of_dependencies_ne_nil (List.ne_nil_of_mem hd)) d hd
  · intro hacyclic i hi d hd
    have hmem : i ∈ sort ns (List.range ns.size) :=
      (sort_range_perm wf).mem_iff.2 (List.mem_range.2 hi)
    exact idxOf_sort_lt_of_acyclic hacyclic hmem (.single hd)

end Lineage.Order

namespace Lineage

/-- Every type stands in the global order behind all its parents and roles. -/
def Graph.DependencyOrdered (g : Graph) : Prop :=
  ∀ i < g.size, ∀ d ∈ g.nodes.dependencies i, g.sorted.idxOf d < g.sorted.idxOf i

end Lineage
