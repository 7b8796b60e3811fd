import Lineage.Proofs.Check.Acyclic
import Lineage.Proofs.Check.Termination

/-!
# Which types the linearization check reports

Of the types without a linearization the check reports those at fault. Such a type lies on a cycle
of parents, or all its parents have linearizations and it is their merge that fails. A type of the
second kind is always found: it is at fault itself, whatever has been asked for before. If neither
parents nor roles have a cycle, there are no others, and the global order meets each of them before
the types that fail because of it (`reportsCulprits_of_build`).
-/

open Relation (TransGen ReflTransGen)

namespace Lineage

open Linearization

/-! ## Failed merges -/

namespace Graph

variable {g : Graph} {i j : Nat} {f : HierarchyFault}

/-- All parents of the node have linearizations, but these have no merge. -/
def MergeFails (g : Graph) (i : Nat) : Prop :=
  ∃ of : Nat → List Nat, (∀ p ∈ g.nodes.parents i, (g.linearize p).2 = .ok (of p)) ∧
    ∃ heads, merge ((g.nodes.parents i).map of) = .error heads

theorem mergeFails_iff (hmemo : Recorded g.nodes g.memo) :
    g.MergeFails i ↔ (∀ p ∈ g.nodes.parents i, Linearizable g.nodes.parents p) ∧
      ¬ Linearizable g.nodes.parents i := by
  have hanswer : ∀ {p l}, (g.linearize p).2 = .ok l ↔ Linearizes g.nodes.parents p l :=
    linearize_eq_ok_iff hmemo.follows
  constructor
  · rintro ⟨of, hof, heads, hheads⟩
    refine ⟨fun p hp => ⟨of p, hanswer.1 (hof p hp)⟩, ?_⟩
    rintro ⟨l, hl⟩
    obtain ⟨m, hm, _⟩ := (Linearizes.iff_merge of fun p hp => hanswer.1 (hof p hp)).1 hl
    rw [hheads] at hm
    cases hm
  · rintro ⟨hparents, hstuck⟩
    choose! of hof using hparents
    refine ⟨of, fun p hp => hanswer.2 (hof p hp), ?_⟩
    cases hmerge : merge ((g.nodes.parents i).map of) with
    | ok m => exact absurd ⟨_, (Linearizes.iff_merge of hof).2 ⟨m, hmerge, rfl⟩⟩ hstuck
    | error heads => exact ⟨heads, rfl⟩

theorem MergeFails.lt_size (hmemo : Recorded g.nodes g.memo) (h : g.MergeFails i) :
    i < g.nodes.size :=
  lt_size_of_not_linearizable ((mergeFails_iff hmemo).1 h).2

/-- A node whose merge fails is at fault itself. -/
theorem MergeFails.culprit (hmemo : Recorded g.nodes g.memo) (h : g.MergeFails i) :
    Culprit g.nodes.parents [] i i := by
  obtain ⟨hparents, hstuck⟩ := (mergeFails_iff hmemo).1 h
  exact Culprit.of_merge hparents hstuck

/-- A node at fault lies on a cycle of parents, or its merge fails. -/
theorem on_cycle_or_mergeFails (hmemo : Recorded g.nodes g.memo)
    (h : Culprit g.nodes.parents [] i j) :
    TransGen (Step g.nodes.parents) j j ∨ g.MergeFails j := by
  refine (h.on_cycle_or_merge (by simp)).imp_right fun hparents => ?_
  exact (mergeFails_iff hmemo).2 ⟨hparents, (h.stuck (by simp)).2⟩

/-! ## The faults -/

/-- The faults come in the global order of the nodes that were asked for. -/
theorem faults_sublist (hmemo : Recorded g.nodes g.memo) :
    (g.faults.2.map (·.1)).Sublist g.sorted := by
  obtain ⟨hfst, _⟩ := linearizeAll_spec hmemo g.sorted
  rw [← hfst]
  simp only [faults]
  generalize (g.linearizeAll g.sorted).2 = answers
  induction answers with
  | nil => exact List.Sublist.refl _
  | cons answer answers ih =>
    obtain ⟨i, r⟩ := answer
    cases r with
    | ok l => exact ih.cons _
    | error f => exact ih.cons_cons _

theorem culprit_of_mem_faults (hmemo : Recorded g.nodes g.memo) (h : (i, f) ∈ g.faults.2) :
    Culprit g.nodes.parents [] i f.node := by
  obtain ⟨_, memo, hrecorded, hf⟩ := mem_faults hmemo h
  exact culprit_of_linearize hrecorded.follows hf

/-- Faults that are reported under one name have the same culprit. -/
theorem node_eq_of_name_report_eq (wf : g.nodes.WellFormed) (hmemo : Recorded g.nodes g.memo)
    {x y : Nat × HierarchyFault} (hx : x ∈ g.faults.2) (hy : y ∈ g.faults.2)
    (h : (y.2.report g.nodes y.1).name = (x.2.report g.nodes x.1).name) : y.2.node = x.2.node := by
  have hlt : ∀ z ∈ g.faults.2, z.2.node < g.nodes.size := fun z hz =>
    lt_size_of_not_linearizable ((culprit_of_mem_faults hmemo hz).stuck (by simp)).2
  rw [HierarchyFault.name_report, HierarchyFault.name_report] at h
  exact wf.injective _ _ (hlt y hy) (hlt x hx) h

end Graph

namespace Check

open Lineage.Graph

/-! ## The first reports -/

section FirstReports

variable {α : Type} {report : α → HierarchyReport} {seen : List Text}

theorem nodup_names_firstReports (seen : List Text) (rs : List HierarchyReport) :
    ((firstReports seen rs).map (·.name)).Nodup ∧
      ∀ r ∈ firstReports seen rs, r.name ∉ seen := by
  induction rs generalizing seen with
  | nil => exact ⟨List.nodup_nil, by simp [firstReports]⟩
  | cons r rs ih =>
    unfold firstReports
    split
    · exact ih seen
    · rename_i hr
      obtain ⟨hnodup, hnew⟩ := ih (r.name :: seen)
      have hseen : r.name ∉ seen := by simpa using hr
      constructor
      · refine List.nodup_cons.2 ⟨fun hmem => ?_, hnodup⟩
        obtain ⟨s, hs, hname⟩ := List.mem_map.1 hmem
        exact hnew s hs (hname ▸ List.mem_cons_self)
      · refine List.forall_mem_cons.2 ⟨hseen, fun s hs hmem => ?_⟩
        exact hnew s hs (List.mem_cons_of_mem _ hmem)

/-- If it can be told apart which reports are on a name for the first time, those are left. -/
theorem firstReports_map_eq_filter {first : α → Bool} {xs : List α}
    (h : ∀ l x m, xs = l ++ x :: m → (first x = true ↔
      (report x).name ∉ seen ∧ ∀ y ∈ l, (report y).name ≠ (report x).name)) :
    firstReports seen (xs.map report) = (xs.filter first).map report := by
  induction xs generalizing seen with
  | nil => rfl
  | cons x xs ih =>
    have hx : first x = true ↔ (report x).name ∉ seen := by
      simpa using h [] x xs rfl
    rw [List.map_cons, firstReports]
    split
    · rename_i hseen
      have hseen : (report x).name ∈ seen := List.contains_iff_mem.1 hseen
      rw [List.filter_cons_of_neg fun hfirst => hx.1 hfirst hseen]
      refine ih fun l y m hm => ?_
      rw [h (x :: l) y m (congrArg (x :: ·) hm), List.forall_mem_cons]
      refine and_congr_right fun hy => and_iff_right ?_
      rintro heq
      exact hy (heq ▸ hseen)
    · rename_i hseen
      have hnew : first x = true := hx.2 (by simpa using hseen)
      rw [List.filter_cons_of_pos hnew, List.map_cons]
      refine congrArg (report x :: ·) (ih fun l y m hm => ?_)
      rw [h (x :: l) y m (congrArg (x :: ·) hm), List.forall_mem_cons, List.mem_cons, not_or,
        and_assoc, and_left_comm]
      exact and_congr_left' (Ne.eq_def _ _ ▸ ne_comm)

end FirstReports

/-! ## The report -/

/-- What the linearization check reports of a graph. -/
structure ReportsCulprits (g : Graph) (issues : List Issue) : Prop where
  /-- No type is reported twice. -/
  nodup : (issues.map (·.subject)).Nodup
  /-- A reported type lies on a cycle of parents, or its merge fails. -/
  at_fault : ∀ issue ∈ issues, ∃ i < g.size, issue.subject = some (g.nodes.name i) ∧
    (TransGen (Step g.nodes.parents) i i ∨ g.MergeFails i)
  /-- Every type whose merge fails is reported. -/
  complete : ∀ i, g.MergeFails i → some (g.nodes.name i) ∈ issues.map (·.subject)
  /-- A type that only fails because one above it does is not reported. -/
  descendants : ∀ i < g.size, ¬ TransGen (Step g.nodes.parents) i i →
    (∃ p ∈ g.nodes.parents i, ∃ f, (g.linearize p).2 = .error f) →
      some (g.nodes.name i) ∉ issues.map (·.subject)
  /-- Without a cycle, the types whose merge fails are reported as they come in the global order,
  each as the one that was asked for. -/
  ordered : Acyclic g.nodes.dependencies → ∃ is : List Nat, is.Sublist g.sorted ∧
    (∀ i, i ∈ is ↔ g.MergeFails i) ∧
    issues.map (fun issue => (issue.subject, issue.details)) =
      is.map fun i => (some (g.nodes.name i), [(("requested" : Text), Json.text (g.nodes.name i))])

section Culprits

variable {g : Graph} {i : Nat} {f : HierarchyFault} {issue : Issue}

theorem subjects_linearization (g : Graph) :
    (linearization g).2.issues.map (·.subject) =
      ((firstReports [] (g.faults.2.map fun (i, f) => f.report g.nodes i)).map (·.name)).map
        some := by
  rw [issues_linearization, List.map_map, List.map_map]
  rfl

theorem nodup_subjects (g : Graph) : ((linearization g).2.issues.map (·.subject)).Nodup := by
  rw [subjects_linearization]
  exact (nodup_names_firstReports [] _).1.map (Option.some_injective Text)

/-- An issue is about the node at fault in some request. -/
theorem culprit_of_mem_issues (hmemo : Recorded g.nodes g.memo)
    (h : issue ∈ (linearization g).2.issues) :
    ∃ i c, issue.subject = some (g.nodes.name c) ∧ Culprit g.nodes.parents [] i c := by
  rw [issues_linearization] at h
  obtain ⟨r, hr, rfl⟩ := List.mem_map.1 h
  obtain ⟨⟨i, f⟩, hfault, rfl⟩ := List.mem_map.1 (firstReports_subset r hr)
  refine ⟨i, f.node, ?_, culprit_of_mem_faults hmemo hfault⟩
  exact congrArg some (HierarchyFault.name_report g.nodes i f)

/-- A listed node that is at fault itself is reported. -/
theorem mem_subjects_of_culprit (hmemo : Recorded g.nodes g.memo) (hi : i ∈ g.sorted)
    (hc : Culprit g.nodes.parents [] i i) :
    some (g.nodes.name i) ∈ (linearization g).2.issues.map (·.subject) := by
  obtain ⟨f, hf⟩ := (linearize_isError_iff hmemo.follows).2 hc.not_linearizable
  obtain ⟨issue, hissue, _, hsubject⟩ := exists_issue_of_fault hmemo hmemo hi hf
  have hnode : f.node = i := (culprit_of_linearize hmemo.follows hf).unique hc
  rw [HierarchyFault.name_report, hnode] at hsubject
  exact hsubject ▸ List.mem_map_of_mem hissue

/-- In an order where no node leads to a later one, a fault is the first one with its culprit
exactly if the culprit is the node that was asked for. -/
theorem first_iff_culprit (wf : g.nodes.WellFormed) (hmemo : Recorded g.nodes g.memo)
    (hsorted : g.sorted.Perm (List.range g.nodes.size)) (hacyclic : Acyclic g.nodes.parents)
    (horder : g.sorted.Pairwise fun i j => ¬ TransGen (Step g.nodes.parents) i j)
    {l m : List (Nat × HierarchyFault)} {x : Nat × HierarchyFault}
    (hsplit : g.faults.2 = l ++ x :: m) :
    x.2.node = x.1 ↔
      ∀ y ∈ l, (y.2.report g.nodes y.1).name ≠ (x.2.report g.nodes x.1).name := by
  obtain ⟨i, f⟩ := x
  have hculprit : ∀ {j f'}, (j, f') ∈ g.faults.2 → Culprit g.nodes.parents [] j f'.node :=
    fun h => culprit_of_mem_faults hmemo h
  have hx : (i, f) ∈ g.faults.2 := by simp [hsplit]
  -- the nodes that were asked for come in order and without repeats
  have hlisted := faults_sublist hmemo
  rw [hsplit, List.map_append, List.map_cons] at hlisted
  have hnodup := hlisted.nodup (hsorted.nodup_iff.2 List.nodup_range)
  have hbefore := List.pairwise_append.1 (horder.sublist hlisted)
  constructor
  · intro hown ⟨j, f'⟩ hy hname
    have hfault : (j, f') ∈ g.faults.2 := by simp [hsplit, hy]
    -- an earlier fault with this culprit would lead to it
    have hjc := hculprit hfault
    rw [(node_eq_of_name_report_eq wf hmemo hx hfault hname).trans hown] at hjc
    have hj : j ∈ l.map (·.1) := List.mem_map_of_mem hy
    rcases Relation.reflTransGen_iff_eq_or_transGen.1 (hjc.stuck (by simp)).1 with heq | hpath
    · exact (List.nodup_append.1 hnodup).2.2 j hj i List.mem_cons_self heq.symm
    · exact hbefore.2.2 j hj i List.mem_cons_self hpath
  · intro hfirst
    by_contra hother
    obtain ⟨hpath, hstuck⟩ := (hculprit hx).stuck (by simp)
    have hpath : TransGen (Step g.nodes.parents) i f.node :=
      (Relation.reflTransGen_iff_eq_or_transGen.1 hpath).resolve_left hother
    -- the culprit is asked for as well, and is its own culprit
    have hown : Culprit g.nodes.parents [] f.node f.node :=
      Culprit.of_merge (((hculprit hx).on_cycle_or_merge (by simp)).resolve_left
        (hacyclic f.node)) hstuck
    obtain ⟨f', hf'⟩ := exists_mem_faults hmemo
      (hsorted.mem_iff.2 (List.mem_range.2 (lt_size_of_not_linearizable hstuck))) hstuck
    have hnode : f'.node = f.node := (hculprit hf').unique hown
    rw [hsplit, List.mem_append, List.mem_cons] at hf'
    rcases hf' with hmem | heq | hmem
    · refine hfirst _ hmem ?_
      rw [HierarchyFault.name_report, HierarchyFault.name_report, hnode]
    · exact hother (congrArg Prod.fst heq)
    · refine (List.pairwise_cons.1 hbefore.2.1).1 f.node ?_ hpath
      exact List.mem_map_of_mem hmem

/-- The reports on an acyclic graph, in order. -/
theorem firstReports_of_acyclic (wf : g.nodes.WellFormed) (hmemo : Recorded g.nodes g.memo)
    (hsorted : g.sorted.Perm (List.range g.nodes.size)) (hacyclic : Acyclic g.nodes.parents)
    (horder : g.sorted.Pairwise fun i j => ¬ TransGen (Step g.nodes.parents) i j) :
    firstReports [] (g.faults.2.map fun (i, f) => f.report g.nodes i) =
      (g.faults.2.filter fun (i, f) => f.node = i).map fun (i, f) => f.report g.nodes i := by
  refine firstReports_map_eq_filter fun l x m hsplit => ?_
  rw [decide_eq_true_iff, and_iff_right List.not_mem_nil]
  exact first_iff_culprit wf hmemo hsorted hacyclic horder hsplit

theorem ordered_of_acyclic (wf : g.nodes.WellFormed) (hmemo : Recorded g.nodes g.memo)
    (hsorted : g.sorted.Perm (List.range g.nodes.size)) (hacyclic : Acyclic g.nodes.parents)
    (horder : g.sorted.Pairwise fun i j => ¬ TransGen (Step g.nodes.parents) i j) :
    ∃ is : List Nat, is.Sublist g.sorted ∧ (∀ i, i ∈ is ↔ g.MergeFails i) ∧
      (linearization g).2.issues.map (fun issue => (issue.subject, issue.details)) =
        is.map fun i =>
          (some (g.nodes.name i), [(("requested" : Text), Json.text (g.nodes.name i))]) := by
  refine ⟨(g.faults.2.filter fun (i, f) => f.node = i).map (·.1), ?_, fun i => ?_, ?_⟩
  · exact (List.filter_sublist.map _).trans (faults_sublist hmemo)
  · constructor
    · intro hi
      obtain ⟨⟨j, f⟩, hmem, rfl⟩ := List.mem_map.1 hi
      obtain ⟨hfault, hown⟩ := List.mem_filter.1 hmem
      have hc := culprit_of_mem_faults hmemo hfault
      rw [of_decide_eq_true hown] at hc
      exact (on_cycle_or_mergeFails hmemo hc).resolve_left (hacyclic j)
    · intro hfails
      have hlisted : i ∈ g.sorted :=
        hsorted.mem_iff.2 (List.mem_range.2 (hfails.lt_size hmemo))
      obtain ⟨f, hfault⟩ :=
        exists_mem_faults hmemo hlisted ((mergeFails_iff hmemo).1 hfails).2
      have hown : f.node = i :=
        (culprit_of_mem_faults hmemo hfault).unique (hfails.culprit hmemo)
      exact List.mem_map.2 ⟨(i, f), List.mem_filter.2 ⟨hfault, decide_eq_true hown⟩, rfl⟩
  · rw [issues_linearization, firstReports_of_acyclic wf hmemo hsorted hacyclic horder,
      List.map_map, List.map_map, List.map_map]
    refine List.map_congr_left fun ⟨i, f⟩ hmem => ?_
    have hown : f.node = i := of_decide_eq_true (List.mem_filter.1 hmem).2
    have hname : (f.report g.nodes i).name = g.nodes.name i := by
      rw [HierarchyFault.name_report, hown]
    have hrequested : (f.report g.nodes i).requested = g.nodes.name i := by
      rw [HierarchyFault.requested_report, hown, ite_self]
    show (some (f.report g.nodes i).name, [(("requested" : Text),
      Json.text (f.report g.nodes i).requested)]) = _
    rw [hname, hrequested]
    rfl

end Culprits

/-- Without a cycle of dependencies, no node leads by its parents to a later one. -/
theorem Built.pairwise_sorted {m : Model} {c : Config} {g : Graph} (h : Built m c g)
    (hacyclic : Acyclic g.nodes.dependencies) :
    Acyclic g.nodes.parents ∧
      g.sorted.Pairwise fun i j => ¬ TransGen (Step g.nodes.parents) i j := by
  have hmono : ∀ i j, TransGen (Step g.nodes.parents) i j →
      TransGen (Step g.nodes.dependencies) i j :=
    fun i j => TransGen.mono (fun _ _ => List.mem_append_left _) i j
  refine ⟨fun i hi => hacyclic i (hmono i i hi), ?_⟩
  rw [h.sorted_eq]
  exact (Order.pairwise_sort_of_acyclic hacyclic _).imp fun hno hpath => hno (hmono _ _ hpath)

/-- Whatever has been asked for before, the check of a graph that has been built reports the types
at fault. -/
theorem reportsCulprits_of_build {ds : List Declaration} {c : Config} {g : Graph}
    (hg : Graph.build ds c = some (.ok g)) (asked : List Nat) :
    ReportsCulprits g (linearization (g.linearizeAll asked).1).2.issues := by
  have hbuilt := built_of_build hg
  have hrecorded := hbuilt.recorded.linearizeAll asked
  obtain ⟨memo, hmemo⟩ := g.linearizeAll_eq asked
  rw [hmemo] at hrecorded ⊢
  -- what is memoized does not matter to the merges
  have hfails : ∀ i, ({ g with memo } : Graph).MergeFails i ↔ g.MergeFails i := fun i =>
    (mergeFails_iff (g := { g with memo }) hrecorded).trans (mergeFails_iff hbuilt.recorded).symm
  have hat : ∀ issue ∈ (linearization { g with memo }).2.issues,
      ∃ i < g.size, issue.subject = some (g.nodes.name i) ∧
        (TransGen (Step g.nodes.parents) i i ∨ g.MergeFails i) := by
    intro issue hissue
    obtain ⟨j, i, hsubject, hc⟩ := culprit_of_mem_issues hrecorded hissue
    refine ⟨i, lt_size_of_not_linearizable (hc.stuck (by simp)).2, hsubject, ?_⟩
    exact on_cycle_or_mergeFails hbuilt.recorded hc
  exact {
    nodup := nodup_subjects _
    at_fault := hat
    complete := by
      intro i hi
      have hlisted : i ∈ g.sorted :=
        hbuilt.sorted.mem_iff.2 (List.mem_range.2 (hi.lt_size hbuilt.recorded))
      have hc : Culprit g.nodes.parents [] i i := hi.culprit hbuilt.recorded
      exact mem_subjects_of_culprit (g := { g with memo }) hrecorded hlisted hc
    descendants := by
      intro i hi hcycle ⟨p, hp, f, hf⟩ hmem
      obtain ⟨issue, hissue, hsubject⟩ := List.mem_map.1 hmem
      obtain ⟨j, hj, hname, hfault⟩ := hat issue hissue
      -- no other node has the name
      obtain rfl : j = i :=
        hbuilt.wellFormed.injective j i hj hi (Option.some.inj (hname.symm.trans hsubject))
      have hparents := ((mergeFails_iff hbuilt.recorded).1 (hfault.resolve_left hcycle)).1
      exact (linearize_isError_iff hbuilt.recorded.follows).1 ⟨f, hf⟩ (hparents p hp)
    ordered := by
      intro hacyclic
      obtain ⟨hparents, horder⟩ := hbuilt.pairwise_sorted hacyclic
      obtain ⟨is, hsub, hmem, hissues⟩ := ordered_of_acyclic (g := { g with memo })
        hbuilt.wellFormed hrecorded hbuilt.sorted hparents horder
      exact ⟨is, hsub, fun i => (hmem i).trans (hfails i), hissues⟩ }

/-- Two classes inherit from the same types in opposite orders, a third one inherits from both, and
a fourth one from that. -/
def crossed : List Declaration :=
  [{ name := "X", parents := ["A", "B"] }, { name := "Y", parents := ["B", "A"] },
    { name := "Z", parents := ["X", "Y"] }, { name := "W", parents := ["Z"] }]

/-- What they are built into. -/
def crossedGraph : Graph where
  nodes := #[{ name := "X", parents := [1, 2], children := [4] },
    { name := "A", parents := [6], children := [0, 3] },
    { name := "B", parents := [6], children := [0, 3] },
    { name := "Y", parents := [2, 1], children := [4] },
    { name := "Z", parents := [0, 3], children := [5] }, { name := "W", parents := [4] },
    { name := "Any", children := [1, 2] }]
  sorted := [6, 1, 2, 0, 3, 4, 5]
  frozen := true

theorem mergeFails_crossedGraph : crossedGraph.MergeFails 4 := by
  have hbase : Linearizes crossedGraph.nodes.parents 6 [6] :=
    (Linearizes.iff_of_no_parent rfl).2 rfl
  have hA : Linearizes crossedGraph.nodes.parents 1 [1, 6] :=
    (Linearizes.iff_of_single_parent rfl).2 ⟨_, hbase, rfl⟩
  have hB : Linearizes crossedGraph.nodes.parents 2 [2, 6] :=
    (Linearizes.iff_of_single_parent rfl).2 ⟨_, hbase, rfl⟩
  have hplain : ∀ p, p = 1 ∨ p = 2 → Linearizes crossedGraph.nodes.parents p [p, 6] := by
    rintro p (rfl | rfl)
    · exact hA
    · exact hB
  have hX : Linearizes crossedGraph.nodes.parents 0 [0, 1, 2, 6] :=
    (Linearizes.iff_merge (fun i => [i, 6]) fun p hp => hplain p
      (by simpa [crossedGraph, Nodes.parents] using hp)).2 ⟨_, by cbv, rfl⟩
  have hY : Linearizes crossedGraph.nodes.parents 3 [3, 2, 1, 6] :=
    (Linearizes.iff_merge (fun i => [i, 6]) fun p hp => hplain p
      (by simpa [crossedGraph, Nodes.parents, or_comm] using hp)).2 ⟨_, by cbv, rfl⟩
  have hanswer : ∀ {i l}, Linearizes crossedGraph.nodes.parents i l →
      (crossedGraph.linearize i).2 = .ok l := (linearize_eq_ok_iff (follows_empty _)).2
  refine ⟨fun i => if i = 0 then [0, 1, 2, 6] else [3, 2, 1, 6], ?_, [1, 2], by cbv⟩
  exact List.forall_mem_cons.2 ⟨hanswer hX, List.forall_mem_singleton.2 (hanswer hY)⟩

/-- After a request that failed, the third class is reported and the fourth one is not. -/
theorem reportsCulprits_of_build_crossed :
    Graph.build crossed {} = some (.ok crossedGraph) ∧
      some ("Z" : Text) ∈ (linearization (crossedGraph.linearizeAll [5]).1).2.issues.map (·.subject) ∧
      some ("W" : Text) ∉ (linearization (crossedGraph.linearizeAll [5]).1).2.issues.map (·.subject) := by
  have hg : Graph.build crossed {} = some (.ok crossedGraph) := by cbv
  have hreport := reportsCulprits_of_build hg [5]
  have hrank : ∀ i < 7, ∀ p ∈ crossedGraph.nodes.parents i,
      crossedGraph.sorted.idxOf p < crossedGraph.sorted.idxOf i := by decide
  have hacyclic : Acyclic crossedGraph.nodes.parents :=
    acyclic_of_rank crossedGraph.sorted.idxOf fun i p hp =>
      hrank i (Nodes.lt_size_of_parents_ne_nil (List.ne_nil_of_mem hp)) p hp
  have hstuck := (mergeFails_iff .empty).1 mergeFails_crossedGraph
  refine ⟨hg, hreport.complete 4 mergeFails_crossedGraph, ?_⟩
  refine hreport.descendants 5 (by decide) (hacyclic 5) ⟨4, by decide, ?_⟩
  exact (linearize_isError_iff (follows_empty _)).2 hstuck.2

end Check

end Lineage
