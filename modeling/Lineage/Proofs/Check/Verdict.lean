import Lineage.Check.Run
import Lineage.Proofs.Check.References
import Lineage.Proofs.Graph.Cycles
import Lineage.Proofs.Linearization.History

/-!
# The verdict of a validation

A validation finds an error exactly if the roles compose each other in a cycle, so that no graph
is built, or some type of the graph has no linearization (`isValid_run_iff`). Two things have to
fit together for this.

* A cycle of declared parents is found without the graph. It survives the flattening and the
  default parents, so all the types on it have no linearization
  (`not_linearizable_of_declared_cycle`).
* Faults are reported once for each type at fault. A fault that is left out has its type reported
  already, so some error remains (`exists_issue_of_fault`).
-/

open Relation (TransGen ReflTransGen)

namespace Lineage

/-! ## Valid reports -/

namespace Report

theorem isValid_iff {r : Report} : r.isValid = true ↔ ∀ i ∈ r.issues, i.severity ≠ .error := by
  unfold isValid hasErrors errors ofSeverity
  rw [Bool.not_not, List.isEmpty_iff, List.filter_eq_nil_iff]
  simp

theorem isValid_merge_iff {r s : Report} :
    (r.merge s).isValid = true ↔ r.isValid = true ∧ s.isValid = true := by
  rw [isValid_iff, isValid_iff, isValid_iff]
  exact List.forall_mem_append

end Report

namespace Check

/-! ## The checks of the declarations -/

section Declarations

variable {m : Model} {r : Relation} {issue : Issue}

theorem acyclic_references_iff :
    Acyclic (m.references r).targetsOf ↔ ∀ t, ¬ TransGen (DeclaredEdge m.declarations r) t t := by
  unfold Acyclic
  rw [Model.step_references]

/-- A cycle check is content exactly if the declared edges have no cycle. -/
theorem isValid_cycles_iff :
    (cycles r m).isValid = true ↔ ∀ t, ¬ TransGen (DeclaredEdge m.declarations r) t t := by
  rw [← acyclic_references_iff, ← Cycles.ofNames_eq_nil_iff Model.ends_mem_references,
    Report.isValid_iff]
  unfold cycles
  rw [List.forall_mem_map, List.eq_nil_iff_forall_not_mem]
  constructor
  · intro h c hc
    exact h c hc rfl
  · intro h c hc
    exact absurd hc (h c)

theorem issues_cycles_eq_nil_iff : (cycles r m).issues = [] ↔ (cycles r m).isValid = true := by
  rw [Report.isValid_iff]
  constructor
  · intro h
    rw [h]
    simp
  · intro h
    rw [List.eq_nil_iff_forall_not_mem]
    intro i hi
    obtain ⟨_, _, rfl⟩ := List.mem_map.1 hi
    exact h _ hi rfl

/-- An error of a cycle check is about a name on a cycle. -/
theorem cycle_of_mem_cycles (h : issue ∈ (cycles r m).issues) :
    ∃ t, issue.subject = some t ∧ TransGen (DeclaredEdge m.declarations r) t t := by
  obtain ⟨c, hc, rfl⟩ := List.mem_map.1 h
  obtain ⟨hne, hcycle⟩ := Cycles.cycle_of_mem_ofNames hc
  cases c with
  | nil => exact absurd rfl hne
  | cons t c =>
    refine ⟨t, rfl, ?_⟩
    refine TransGen.mono (fun a b => Model.mem_targetsOf_references.1) t t ?_
    exact hcycle t List.mem_cons_self

theorem isValid_references (c : Config) : (references m c).isValid = true := by
  rw [Report.isValid_iff]
  unfold references
  rw [List.forall_mem_map]
  intro f _ herror
  cases herror

theorem isValid_kindChanges : (kindChanges m).isValid = true := by
  rw [Report.isValid_iff]
  intro i hi herror
  obtain ⟨_, _, _, rfl⟩ := mem_kindChangesFrom hi
  cases herror

/-- The checks of the declarations find an error exactly if one of the relations has a cycle. -/
theorem isValid_declarations_iff (c : Config) :
    (declarations m c).isValid = true ↔
      (roleCycles m).isValid = true ∧ (inheritanceCycles m).isValid = true := by
  unfold declarations
  rw [Report.isValid_merge_iff, Report.isValid_merge_iff, Report.isValid_merge_iff]
  simp only [isValid_references, isValid_kindChanges, and_true]

end Declarations

end Check

/-! ## Faults -/

namespace Graph

open Linearization

variable {g : Graph} {i : Nat} {f : HierarchyFault}

/-- Each of several nodes is answered for as it would have been answered at some time. -/
theorem linearizeAll_spec (hmemo : Recorded g.nodes g.memo) (is : List Nat) :
    (g.linearizeAll is).2.map (·.1) = is ∧
      ∀ x ∈ (g.linearizeAll is).2, ∃ memo, Recorded g.nodes memo ∧
        x.2 = (Linearization.linearize g.nodes memo x.1).2 := by
  induction is generalizing g with
  | nil =>
    refine ⟨rfl, ?_⟩
    intro x hx
    cases hx
  | cons i is ih =>
    obtain ⟨hfst, hall⟩ := @ih (g.linearize i).1 (hmemo.linearize i)
    refine ⟨congrArg (i :: ·) hfst, ?_⟩
    intro x hx
    rcases List.mem_cons.1 hx with rfl | hx
    · exact ⟨g.memo, hmemo, rfl⟩
    · exact hall x hx

/-- The faults are those of the listed nodes that have no linearization. -/
theorem mem_faults (hmemo : Recorded g.nodes g.memo) (h : (i, f) ∈ g.faults.2) :
    i ∈ g.sorted ∧ ∃ memo, Recorded g.nodes memo ∧
      (Linearization.linearize g.nodes memo i).2 = .error f := by
  obtain ⟨hfst, hall⟩ := linearizeAll_spec hmemo g.sorted
  obtain ⟨x, hx, hxf⟩ := List.mem_filterMap.1 h
  obtain ⟨memo, hrecorded, hanswer⟩ := hall x hx
  have hmem : x.1 ∈ g.sorted := by
    rw [← hfst]
    exact List.mem_map_of_mem hx
  obtain ⟨j, r⟩ := x
  cases r with
  | ok l => cases hxf
  | error f' =>
    cases hxf
    exact ⟨hmem, memo, hrecorded, hanswer.symm⟩

theorem exists_mem_faults (hmemo : Recorded g.nodes g.memo) (hi : i ∈ g.sorted)
    (hstuck : ¬ Linearizable g.nodes.parents i) : ∃ f, (i, f) ∈ g.faults.2 := by
  obtain ⟨hfst, hall⟩ := linearizeAll_spec hmemo g.sorted
  rw [← hfst] at hi
  obtain ⟨⟨j, r⟩, hx, rfl⟩ := List.mem_map.1 hi
  obtain ⟨memo, hrecorded, hanswer⟩ := hall _ hx
  obtain ⟨f, hf⟩ := (linearize_isError_iff hrecorded.follows).2 hstuck
  refine ⟨f, List.mem_filterMap.2 ⟨(j, r), hx, ?_⟩⟩
  rw [show r = .error f from hanswer.trans hf]

end Graph

namespace Check

open Linearization

theorem firstReports_subset {seen : List Text} {rs : List HierarchyReport} :
    ∀ r ∈ firstReports seen rs, r ∈ rs := by
  induction rs generalizing seen with
  | nil =>
    intro r hr
    cases hr
  | cons s rs ih =>
    intro r hr
    unfold firstReports at hr
    split at hr
    · exact List.mem_cons_of_mem _ (ih r hr)
    · rcases List.mem_cons.1 hr with rfl | hr
      · exact List.mem_cons_self
      · exact List.mem_cons_of_mem _ (ih r hr)

/-- A report is only left out for one of the same type. -/
theorem exists_firstReport {seen : List Text} {rs : List HierarchyReport} {r : HierarchyReport}
    (h : r ∈ rs) : r.name ∈ seen ∨ ∃ s ∈ firstReports seen rs, s.name = r.name := by
  induction rs generalizing seen with
  | nil => cases h
  | cons s rs ih =>
    unfold firstReports
    split
    · rename_i hs
      rcases List.mem_cons.1 h with rfl | h
      · exact Or.inl (List.contains_iff_mem.1 hs)
      · exact ih h
    · rcases List.mem_cons.1 h with rfl | h
      · exact Or.inr ⟨r, List.mem_cons_self, rfl⟩
      · rcases @ih (s.name :: seen) h with hseen | ⟨t, ht, hname⟩
        · rcases List.mem_cons.1 hseen with heq | hseen
          · exact Or.inr ⟨s, List.mem_cons_self, heq.symm⟩
          · exact Or.inl hseen
        · exact Or.inr ⟨t, List.mem_cons_of_mem _ ht, hname⟩

section Linearization

variable {g : Graph} {i : Nat} {f : HierarchyFault}

theorem issues_linearization (g : Graph) :
    (linearization g).2.issues =
      (firstReports [] (g.faults.2.map fun (i, f) => f.report g.nodes i)).map hierarchyIssue := by
  unfold linearization Graph.report
  rw [← g.nodes_linearizeAll g.sorted]
  rfl

/-- Whenever a type turns out to have no linearization, the type at fault is reported. -/
theorem exists_issue_of_fault (hmemo : Recorded g.nodes g.memo) {memo : Memo}
    (hrecorded : Recorded g.nodes memo) (hi : i ∈ g.sorted)
    (hf : (Linearization.linearize g.nodes memo i).2 = .error f) :
    ∃ issue ∈ (linearization g).2.issues, issue.severity = .error ∧
      issue.subject = some (f.report g.nodes i).name := by
  have hstuck := (linearize_isError_iff hrecorded.follows).1 ⟨f, hf⟩
  -- the check meets the type again, after others have been asked for
  obtain ⟨f', hfault⟩ := Graph.exists_mem_faults hmemo hi hstuck
  obtain ⟨_, memo', hrecorded', hf'⟩ := Graph.mem_faults hmemo hfault
  -- whatever has been asked for before, the type at fault is the same
  have hnode : f'.node = f.node := (culprit_of_linearize hrecorded'.follows hf').unique
    (culprit_of_linearize hrecorded.follows hf)
  have hmem : f'.report g.nodes i ∈ g.faults.2.map fun (i, f) => f.report g.nodes i :=
    List.mem_map_of_mem hfault
  rcases @exists_firstReport [] _ _ hmem with hnil | ⟨r, hr, hname⟩
  · cases hnil
  · refine ⟨hierarchyIssue r, ?_, rfl, ?_⟩
    · rw [issues_linearization g]
      exact List.mem_map_of_mem hr
    · show some r.name = some (f.report g.nodes i).name
      rw [hname, HierarchyFault.name_report, HierarchyFault.name_report, hnode]

/-- The check is content exactly if every listed type has a linearization. -/
theorem isValid_linearization_iff (hmemo : Recorded g.nodes g.memo) :
    (linearization g).2.isValid = true ↔ ∀ i ∈ g.sorted, Linearizable g.nodes.parents i := by
  rw [Report.isValid_iff]
  constructor
  · intro h i hi
    by_contra hstuck
    obtain ⟨f, hf⟩ := (linearize_isError_iff hmemo.follows).2 hstuck
    obtain ⟨issue, hissue, herror, _⟩ := exists_issue_of_fault hmemo hmemo hi hf
    exact h issue hissue herror
  · intro h issue hissue
    rw [issues_linearization g] at hissue
    obtain ⟨r, hr, rfl⟩ := List.mem_map.1 hissue
    obtain ⟨⟨i, f⟩, hfault, rfl⟩ := List.mem_map.1 (firstReports_subset r hr)
    obtain ⟨hi, memo, hrecorded, hf⟩ := Graph.mem_faults hmemo hfault
    exact absurd (h i hi) ((linearize_isError_iff hrecorded.follows).1 ⟨f, hf⟩)

end Linearization

end Check

/-! ## Declared cycles -/

/-- The types on a cycle of declared parents have no linearization in the graph. -/
theorem Graph.not_linearizable_of_declared_cycle {g : Graph} {ds : List Declaration} {c : Config}
    {of : Text → List Text} (wf : g.nodes.WellFormed) (hof : Unfolds (declared ds).roles of)
    (hview : g.nodes.view.firsts = (((declared ds).flattened of).rooted c).firsts) {t : Text}
    (h : TransGen (DeclaredEdge ds .inherits) t t) :
    ∃ i < g.nodes.size, g.nodes.name i = t ∧
      ¬ Linearization.Linearizable g.nodes.parents i := by
  have hedge : ∀ a b, DeclaredEdge ds .inherits a b →
      b ∈ (((declared ds).flattened of).rooted c).parents a := fun a b hab =>
    View.mem_parents_rooted (View.mem_parents_flattened hof (step_parents_declared_iff.2 hab))
  have hcycle : TransGen (Step (((declared ds).flattened of).rooted c).parents) t t :=
    TransGen.mono hedge t t h
  obtain ⟨p, hp, _⟩ := Step.mem_next_of_path hcycle
  obtain ⟨i, hi, rfl⟩ := Nodes.exists_of_dependencies_ne_nil wf hview
    (List.ne_nil_of_mem (List.mem_append_left _ hp))
  refine ⟨i, hi, rfl, ?_⟩
  -- the nodes lie on a cycle since their names do
  rintro ⟨l, hl⟩
  exact hl.not_cyclic (((Nodes.renaming_parents wf hview).cycle_iff hi).1 hcycle)

/-! ## The whole validation -/

open Linearization (Recorded)

/-- Every type of the graph is linearized, whatever has been asked for before. -/
def Graph.Consistent (g : Graph) : Prop :=
  ∀ i < g.size, ∀ memo, Recorded g.nodes memo →
    ∃ l, (Linearization.linearize g.nodes memo i).2 = .ok l

theorem Graph.consistent_iff {g : Graph} :
    g.Consistent ↔ ∀ i < g.nodes.size, Linearization.Linearizable g.nodes.parents i := by
  constructor
  · intro h i hi
    obtain ⟨l, hl⟩ := h i hi {} .empty
    exact ⟨l, (Linearization.linearize_eq_ok_iff (Linearization.follows_empty _)).1 hl⟩
  · intro h i hi memo hmemo
    obtain ⟨l, hl⟩ := h i hi
    exact ⟨l, (Linearization.linearize_eq_ok_iff hmemo.follows).2 hl⟩

namespace Check

variable {m : Model} {c : Config} {g : Graph} {issue : Issue}

/-- The graph that is built from a model whose roles compose without a cycle. -/
structure Built (m : Model) (c : Config) (g : Graph) : Prop where
  roles_valid : (roleCycles m).isValid = true
  build : Graph.build m.declarations c = some (.ok g)
  wellFormed : g.nodes.WellFormed
  recorded : Linearization.Recorded g.nodes g.memo
  sorted : g.sorted.Perm (List.range g.nodes.size)
  /-- The nodes are the declarations, flattened and rooted. -/
  exists_view : ∃ of, Unfolds (declared m.declarations).roles of ∧
    g.nodes.view.firsts = (((declared m.declarations).flattened of).rooted c).firsts

theorem exists_built (c : Config) (hvalid : (roleCycles m).isValid = true) :
    ∃ g, Built m c g := by
  have hacyclic : Acyclic (declared m.declarations).roles :=
    acyclic_roles_declared_iff.2 (isValid_cycles_iff.1 hvalid)
  obtain ⟨of, hof⟩ := Graph.exists_unfolds_declared hacyclic
  obtain ⟨g, hg, wf, _, _, hsorted, hview⟩ := Graph.build_spec m.declarations c hof
  have hperm : g.sorted.Perm (List.range g.nodes.size) := by
    rw [hsorted]
    exact Order.sort_range_perm wf
  exact ⟨g, hvalid, hg, wf, Linearization.recorded_of_build hg, hperm, of, hof, hview⟩

theorem Built.eq_of_build (h : Built m c g) {g' : Graph}
    (hbuild : Graph.build m.declarations c = some (.ok g')) : g' = g := by
  rw [h.build] at hbuild
  cases hbuild
  rfl

theorem Built.buildIfSafe (h : Built m c g) : buildIfSafe m c = some (.ok g) := by
  unfold Check.buildIfSafe
  rw [if_pos h.roles_valid]
  exact h.build

theorem buildIfSafe_eq_none (c : Config) (hinvalid : (roleCycles m).isValid = false) :
    buildIfSafe m c = none := by
  unfold buildIfSafe
  rw [hinvalid]
  rfl

/-- A type on a cycle of declared parents is in the graph, and has no linearization there. -/
theorem Built.not_linearizable_of_cycle (h : Built m c g) {t : Text}
    (hcycle : TransGen (DeclaredEdge m.declarations .inherits) t t) :
    ∃ i < g.nodes.size, g.nodes.name i = t ∧
      ¬ Linearization.Linearizable g.nodes.parents i := by
  obtain ⟨of, hof, hview⟩ := h.exists_view
  exact Graph.not_linearizable_of_declared_cycle h.wellFormed hof hview hcycle

/-- A valid report holds the warnings of the declarations only. -/
theorem mem_issues_run (hvalid : (run m (some g) c).2.isValid = true) :
    issue ∈ (run m (some g) c).2.issues ↔
      issue ∈ (references m c).issues ∨ issue ∈ (kindChanges m).issues := by
  have hissues : (run m (some g) c).2.issues =
      (((roleCycles m).issues ++ (inheritanceCycles m).issues) ++ (references m c).issues ++
        (kindChanges m).issues) ++ (linearization g).2.issues := rfl
  rw [Report.isValid_iff, hissues] at hvalid
  rw [hissues]
  simp only [List.mem_append] at hvalid ⊢
  constructor
  · intro h
    -- cycles and faults are errors, and there are none
    have hno : issue.severity ≠ .error := hvalid issue h
    rcases h with (((h | h) | h) | h) | h
    · obtain ⟨_, _, rfl⟩ := List.mem_map.1 h
      exact absurd rfl hno
    · obtain ⟨_, _, rfl⟩ := List.mem_map.1 h
      exact absurd rfl hno
    · exact Or.inl h
    · exact Or.inr h
    · rw [issues_linearization g] at h
      obtain ⟨_, _, rfl⟩ := List.mem_map.1 h
      exact absurd rfl hno
  · rintro (h | h)
    · exact Or.inl (Or.inl (Or.inr h))
    · exact Or.inl (Or.inr h)

/-- With a graph that has been built, no error is found exactly if the graph is consistent. -/
theorem isValid_run_iff (h : Built m c g) :
    (run m (some g) c).2.isValid = true ↔ g.Consistent := by
  have hall : (∀ i ∈ g.sorted, Linearization.Linearizable g.nodes.parents i) ↔
      ∀ i < g.nodes.size, Linearization.Linearizable g.nodes.parents i := by
    simp only [h.sorted.mem_iff, List.mem_range]
  show ((declarations m c).merge (linearization g).2).isValid = true ↔ _
  rw [Report.isValid_merge_iff, isValid_declarations_iff, isValid_linearization_iff h.recorded,
    hall, Graph.consistent_iff]
  constructor
  · exact And.right
  · intro hlinearizable
    -- a cycle of declared parents would leave types without a linearization
    refine ⟨⟨h.roles_valid, isValid_cycles_iff.2 ?_⟩, hlinearizable⟩
    intro t ht
    obtain ⟨i, hi, _, hstuck⟩ := h.not_linearizable_of_cycle ht
    exact hstuck (hlinearizable i hi)

/-- While the roles compose each other in a cycle, the validation finds an error. -/
theorem isValid_run_none (c : Config) (hinvalid : (roleCycles m).isValid = false) :
    (run m none c).2.isValid = false := by
  rw [← Bool.not_eq_true, show (run m none c).2 = declarations m c from rfl,
    isValid_declarations_iff, hinvalid]
  simp

/-! ## What a validation tells -/

/-- What the report of a validation tells of a model. -/
structure Verdict (m : Model) (c : Config) (built : Option Graph) (r : Report) : Prop where
  /-- A graph comes with the report unless the roles compose each other in a cycle. -/
  isSome_built : built.isSome = true ↔ (roleCycles m).issues = []
  exists_graph : (roleCycles m).issues = [] → ∃ g, Graph.build m.declarations c = some (.ok g)
  /-- No error is found exactly if the graph is built and consistent. -/
  no_error_iff : (∀ issue ∈ r.issues, issue.severity ≠ .error) ↔
    (roleCycles m).issues = [] ∧
      ∃ g, Graph.build m.declarations c = some (.ok g) ∧ g.Consistent
  /-- A type that is reported for a cycle of declared parents is never linearized. -/
  cycle_fails : ∀ g, (roleCycles m).issues = [] →
    Graph.build m.declarations c = some (.ok g) → ∀ issue ∈ (inheritanceCycles m).issues,
      ∃ i < g.size, issue.subject = some (g.nodes.name i) ∧ ∀ memo, Recorded g.nodes memo →
        ∃ f, (Linearization.linearize g.nodes memo i).2 = .error f
  /-- When a type fails to be linearized, the type at fault is reported. -/
  fault_reported : ∀ g, (roleCycles m).issues = [] →
    Graph.build m.declarations c = some (.ok g) → ∀ i < g.size, ∀ memo f,
      Recorded g.nodes memo → (Linearization.linearize g.nodes memo i).2 = .error f →
        ∃ issue ∈ r.issues, issue.severity = .error ∧
          issue.subject = some (f.report g.nodes i).name

theorem verdict_of_cycles (c : Config) (hinvalid : (roleCycles m).isValid = false) :
    Verdict m c (run m none c).1 (run m none c).2 := by
  have hcycles : (roleCycles m).issues ≠ [] := by
    intro hnone
    have hvalid : (roleCycles m).isValid = true := issues_cycles_eq_nil_iff.1 hnone
    rw [hinvalid] at hvalid
    cases hvalid
  constructor
  · exact iff_of_false Bool.false_ne_true hcycles
  · exact fun h => absurd h hcycles
  · rw [← Report.isValid_iff, isValid_run_none c hinvalid]
    exact iff_of_false Bool.false_ne_true fun h => hcycles h.1
  · exact fun _ h => absurd h hcycles
  · exact fun _ h => absurd h hcycles

theorem Built.verdict (h : Built m c g) :
    Verdict m c (run m (some g) c).1 (run m (some g) c).2 := by
  have hnone : (roleCycles m).issues = [] := issues_cycles_eq_nil_iff.2 h.roles_valid
  constructor
  · exact iff_of_true rfl hnone
  · exact fun _ => ⟨g, h.build⟩
  · rw [← Report.isValid_iff, isValid_run_iff h]
    constructor
    · exact fun hg => ⟨hnone, g, h.build, hg⟩
    · rintro ⟨_, g', hg', hconsistent⟩
      exact h.eq_of_build hg' ▸ hconsistent
  · intro g' _ hg' issue hissue
    obtain rfl := h.eq_of_build hg'
    obtain ⟨t, hsubject, hcycle⟩ := cycle_of_mem_cycles hissue
    obtain ⟨i, hi, hname, hstuck⟩ := h.not_linearizable_of_cycle hcycle
    refine ⟨i, hi, hname ▸ hsubject, fun memo hmemo => ?_⟩
    exact (Linearization.linearize_isError_iff hmemo.follows).2 hstuck
  · intro g' _ hg' i hi memo f hmemo hf
    obtain rfl := h.eq_of_build hg'
    have hlisted : i ∈ g'.sorted := h.sorted.mem_iff.2 (List.mem_range.2 hi)
    obtain ⟨issue, hissue, hsevere, hsubject⟩ :=
      exists_issue_of_fault h.recorded hmemo hlisted hf
    exact ⟨issue, List.mem_append_right _ hissue, hsevere, hsubject⟩

/-- Every model is given a verdict. -/
theorem exists_verdict (m : Model) (c : Config) :
    ∃ built r, validate m c = .ok (built, r) ∧ Verdict m c built r := by
  unfold validate
  cases hvalid : (roleCycles m).isValid with
  | false =>
    rw [buildIfSafe_eq_none c hvalid]
    exact ⟨_, _, rfl, verdict_of_cycles c hvalid⟩
  | true =>
    obtain ⟨g, hg⟩ := exists_built c hvalid
    rw [hg.buildIfSafe]
    exact ⟨_, _, rfl, hg.verdict⟩

end Check

end Lineage
