import Mathlib
import Lineage.Proofs.Check.Verdict
import Lineage.Proofs.Graph.DependencyOrder
import Lineage.Proofs.Graph.Edges

/-!
# What a validation without errors excludes

Each cycle check looks at one kind of reference only. A cycle that mixes roles and parents passes
both, but flattening contracts it to a cycle of parents in the graph, where no type has a
linearization. So a validation without errors leaves no cycle of references at all
(`acyclic_links_of_valid`).

The edges to the base are not among the references. They may still close a cycle with the roles of
the base, and then the global order is none of dependencies. It is one exactly if no type that takes
the base is reached from it (`dependencyOrdered_iff_of_valid`).
-/

open Relation (TransGen)

namespace Lineage

/-! ## Graphs without a fault -/

namespace Graph

variable {g : Graph}

/-- Where every type is linearized, the parents have no cycle. -/
theorem Consistent.acyclic_parents (h : g.Consistent) : Acyclic g.nodes.parents := by
  intro i hi
  obtain ⟨p, hp, _⟩ := Step.mem_next_of_path hi
  have hlt : i < g.nodes.size := Nodes.lt_size_of_parents_ne_nil (List.ne_nil_of_mem hp)
  obtain ⟨l, hl⟩ := consistent_iff.1 h i hlt
  exact hl.not_cyclic hi

end Graph

namespace Check

variable {m : Model} {c : Config} {g : Graph} {built : Option Graph} {r : Report}

/-- A validation without errors has built a graph and linearized all its types. -/
theorem built_of_valid (h : validate m c = .ok (built, r))
    (hvalid : ∀ issue ∈ r.issues, issue.severity ≠ .error) :
    ∃ g, Built m c g ∧ g.Consistent ∧ built = some (linearization g).1 := by
  rw [← Report.isValid_iff] at hvalid
  unfold validate at h
  cases hroles : (roleCycles m).isValid with
  | false =>
    rw [buildIfSafe_eq_none c hroles] at h
    cases h
    exact absurd hvalid (Bool.eq_false_iff.1 (isValid_run_none c hroles))
  | true =>
    obtain ⟨g, hg⟩ := exists_built c hroles
    rw [hg.buildIfSafe] at h
    cases h
    exact ⟨g, hg, (isValid_run_iff hg).1 hvalid, rfl⟩

/-- Every model gets an answer; if that is valid, no error is found. -/
theorem exists_valid (h : (validate m c).map (·.2.isValid) = .ok true) :
    ∃ built r, validate m c = .ok (built, r) ∧ ∀ issue ∈ r.issues, issue.severity ≠ .error := by
  obtain ⟨built, r, hr, _⟩ := exists_verdict m c
  rw [hr] at h
  exact ⟨built, r, hr, Report.isValid_iff.1 (Except.ok.inj h)⟩

/-! ## Mixed cycles -/

theorem Built.acyclic_links (h : Built m c g) (hconsistent : g.Consistent) :
    ∀ t, ¬ TransGen (DeclaredLink m.declarations) t t := by
  obtain ⟨of, hof, hview⟩ := h.exists_view
  have hparents := (Nodes.acyclic_parents_iff h.wellFormed hview).1 hconsistent.acyclic_parents
  intro t ht
  -- without a cycle of roles, the cycle is contracted to one of inherited parents
  obtain ⟨x, hx⟩ := exists_cycle_of_mixed (isValid_cycles_iff.1 h.roles_valid) ht
  exact hparents x (TransGen.mono (fun a p hap => (step_parents_iff hof).2 (Or.inl hap)) x x hx)

/-- If a validation finds no error, then no chain of declared parents and roles leads from a name
back to it. -/
theorem acyclic_links_of_valid (h : validate m c = .ok (built, r))
    (hvalid : ∀ issue ∈ r.issues, issue.severity ≠ .error) :
    ∀ t, ¬ TransGen (DeclaredLink m.declarations) t t := by
  obtain ⟨g, hg, hconsistent, _⟩ := built_of_valid h hvalid
  exact hg.acyclic_links hconsistent

/-- A class composes a role that has a parent and a role itself. -/
def petModel : Model :=
  ⟨[{ name := "Dog", roles := ["Pet"] },
    { name := "Pet", kind := .ofRole, parents := ["Owned"], roles := ["Named"] },
    { name := "Named", kind := .ofRole }]⟩

theorem acyclic_links_of_valid_pet :
    ∃ built r, validate petModel {} = .ok (built, r) ∧
      (∀ issue ∈ r.issues, issue.severity ≠ .error) ∧
      ∀ t, ¬ TransGen (DeclaredLink petModel.declarations) t t := by
  have hresult : (validate petModel {}).map (·.2.isValid) = .ok true := by cbv
  obtain ⟨built, r, h, hvalid⟩ := exists_valid hresult
  exact ⟨built, r, h, hvalid, acyclic_links_of_valid h hvalid⟩

/-! ## The global order -/

theorem Built.sorted_eq (h : Built m c g) :
    g.sorted = Order.sort g.nodes (List.range g.nodes.size) := by
  obtain ⟨of, hof, _⟩ := h.exists_view
  obtain ⟨g', hg', _, _, _, hsorted, _⟩ := Graph.build_spec m.declarations c hof
  exact h.eq_of_build hg' ▸ hsorted

theorem Built.dependencyOrdered_iff (h : Built m c g)
    (hlinks : ∀ t, ¬ TransGen (DeclaredLink m.declarations) t t) :
    g.DependencyOrdered ↔ ∀ t, TakesBase m.declarations c t →
      ¬ TransGen (DeclaredLink m.declarations) c.base t := by
  obtain ⟨of, hof, hview⟩ := h.exists_view
  unfold Graph.DependencyOrdered
  rw [h.sorted_eq, ← acyclic_dependencies_iff hlinks hof,
    ← Nodes.acyclic_dependencies_iff h.wellFormed hview]
  exact Order.idxOf_sort_lt_iff h.wellFormed

/-- If a validation finds no error, then its graph lists every type once. The types stand behind all
their parents and roles exactly if the base refers, directly or through others, to no type that
takes the base. -/
theorem dependencyOrdered_iff_of_valid (h : validate m c = .ok (built, r))
    (hvalid : ∀ issue ∈ r.issues, issue.severity ≠ .error) :
    ∃ g, Graph.build m.declarations c = some (.ok g) ∧ (∃ memo, built = some { g with memo }) ∧
      g.sorted.Perm (List.range g.size) ∧
      (g.DependencyOrdered ↔ ∀ t, TakesBase m.declarations c t →
        ¬ TransGen (DeclaredLink m.declarations) c.base t) := by
  obtain ⟨g, hg, hconsistent, rfl⟩ := built_of_valid h hvalid
  obtain ⟨memo, hmemo⟩ := g.linearizeAll_eq g.sorted
  exact ⟨g, hg.build, ⟨memo, congrArg some hmemo⟩, hg.sorted,
    hg.dependencyOrdered_iff (hg.acyclic_links hconsistent)⟩

/-- The base composes a class. -/
def composingBase : Model :=
  ⟨[{ name := "Any", roles := ["Foo"] }, { name := "Foo" }]⟩

theorem takesBase_composingBase : TakesBase composingBase.declarations {} "Foo" where
  mentioned := ⟨_, List.mem_cons_of_mem _ List.mem_cons_self, Or.inl rfl⟩
  not_role := by decide
  no_parent := by
    rintro p ⟨r, _, d, hd, _, hp⟩
    simp only [composingBase, List.mem_cons, List.not_mem_nil, or_false] at hd
    rcases hd with rfl | rfl <;> cases hp
  ne_root := by decide
  ne_base := by decide

/-- No error is found, and yet the types do not stand behind their parents and roles: the class
takes the base, which composes it. -/
theorem dependencyOrdered_iff_of_valid_composing_base :
    ∃ (built : Option Graph) (r : Report) (g : Graph) (memo : Memo),
      validate composingBase {} = .ok (built, r) ∧
      (∀ issue ∈ r.issues, issue.severity ≠ .error) ∧ built = some { g with memo } ∧
      g.sorted.Perm (List.range g.size) ∧ ¬ g.DependencyOrdered := by
  have hresult : (validate composingBase {}).map (·.2.isValid) = .ok true := by cbv
  obtain ⟨built, r, h, hvalid⟩ := exists_valid hresult
  obtain ⟨g, _, ⟨memo, hbuilt⟩, hperm, hiff⟩ := dependencyOrdered_iff_of_valid h hvalid
  refine ⟨built, r, g, memo, h, hvalid, hbuilt, hperm, fun hordered => ?_⟩
  refine hiff.1 hordered "Foo" takesBase_composingBase (.single (Or.inl ?_))
  exact ⟨_, List.mem_cons_self, rfl, List.mem_cons_self⟩

end Check

end Lineage
