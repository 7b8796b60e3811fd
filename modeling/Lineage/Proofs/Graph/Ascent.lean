import Lineage.Proofs.Graph.Edges
import Lineage.Proofs.Linearization.Search

/-!
# Going up in a graph

From every type of a graph one goes up along the parents, choosing any of them at each step. If the
declarations link no name to itself, then what flattening adds leads nowhere else than declared
links do. Only the edges to the base can close a cycle: the base itself is never given a parent, but
what it inherits from may be. Up to that case going up always ends (`Ascends`), at the root, the
base or a role, and no linearization meets a cycle.
-/

open Relation (TransGen)

namespace Lineage

/-- A name that is left without a parent when the base has been handed out. -/
theorem View.top_of_rooted {v : View} {c : Config} {t : Text} {e : Entry}
    (h : v.rooted c t = some e) (hnone : e.parents = []) :
    t = c.root ∨ t = c.base ∨ e.kind = .ofRole := by
  unfold View.rooted at h
  cases hv : v t with
  | none =>
    -- a name that has become known is the base
    rw [hv] at h
    simp only [Option.ite_none_right_eq_some] at h
    exact Or.inr (Or.inl h.1.1)
  | some e' =>
    rw [hv] at h
    simp only [Option.some.injEq] at h
    split at h
    · rw [← h] at hnone
      cases hnone
    · rename_i hkept
      rw [h] at hkept
      unfold Entry.isRootless at hkept
      simp only [hnone, List.isEmpty_nil, Bool.and_true, Bool.and_eq_true, bne_iff_ne] at hkept
      tauto

namespace Graph

variable {ds : List Declaration} {c : Config} {g : Graph}

/-- How the types of a graph are ordered by their parents. -/
structure Ascends (ds : List Declaration) (c : Config) (g : Graph) : Prop where
  /-- Going up always ends, exactly if the base inherits from no type that takes the base. -/
  ends_iff : (WellFounded fun p i => p ∈ g.nodes.parents i) ↔
    ∀ t, TakesBase ds c t → ¬ TransGen (Inherited ds) c.base t
  /-- It ends at the root, the base or a role. -/
  top : ∀ n ∈ g.nodes, n.parents = [] → n.name = c.root ∨ n.name = c.base ∨ n.isRole = true
  /-- Then no linearization fails because of a cycle, whatever is memoized. -/
  no_cycle : (WellFounded fun p i => p ∈ g.nodes.parents i) → ∀ i memo p k,
    (Linearization.linearize g.nodes memo i).2 ≠ .error (.cycle p k)

theorem wellFounded_parents_iff (ns : Nodes) :
    (WellFounded fun p i => p ∈ ns.parents i) ↔ Acyclic ns.parents := by
  refine ⟨acyclic_of_wellFounded, fun h => h.wellFounded (Finset.range ns.size) ?_⟩
  exact fun i hi => Finset.mem_range.2 (Nodes.lt_size_of_parents_ne_nil hi)

theorem top_of_view {v : View} (wf : g.nodes.WellFormed)
    (hview : g.nodes.view.firsts = (v.rooted c).firsts) {n : Node} (hn : n ∈ g.nodes)
    (hnone : n.parents = []) : n.name = c.root ∨ n.name = c.base ∨ n.isRole = true := by
  obtain ⟨i, hn⟩ := Array.mem_iff_getElem?.1 hn
  have hname := congrFun hview n.name
  unfold View.firsts at hname
  rw [Nodes.view_of_getElem? wf hn] at hname
  obtain ⟨e, he, hfirsts⟩ := Option.map_eq_some_iff.1 hname.symm
  have hkind : e.kind = n.kind := congrArg Entry.kind hfirsts
  have hparents : e.parents.eraseDups = (g.nodes.names n.parents).eraseDups :=
    congrArg Entry.parents hfirsts
  have hnil : e.parents = [] := by
    rw [hnone] at hparents
    exact (SameFirsts.eraseDups_left e.parents).eq_nil_iff.1 hparents
  refine (View.top_of_rooted he hnil).imp_right fun h => h.imp_right fun hrole => ?_
  unfold Node.isRole
  rw [← hkind, hrole]
  rfl

/-- If no chain of declared parents and roles leads from a name back to it, then a graph is built,
and going up in it ends at the root, the base or a role, unless the base inherits from a type that
takes the base. -/
theorem exists_ascends (h : ∀ t, ¬ TransGen (DeclaredLink ds) t t) (c : Config) :
    ∃ g, build ds c = some (.ok g) ∧ Ascends ds c g := by
  have hroles : ∀ t, ¬ TransGen (DeclaredEdge ds .composes) t t :=
    fun t ht => h t (TransGen.mono (fun a b => Or.inl) t t ht)
  obtain ⟨of, hof⟩ := exists_unfolds_declared (acyclic_roles_declared_iff.2 hroles)
  obtain ⟨g, hg, wf, _, _, _, hview⟩ := build_spec ds c hof
  refine ⟨g, hg, ?_, fun n hn hnone => top_of_view wf hview hn hnone, ?_⟩
  · rw [wellFounded_parents_iff, Nodes.acyclic_parents_iff wf hview]
    exact acyclic_parents_iff h hof
  · intro hends i memo p k hcycle
    exact acyclic_of_wellFounded hends p (Linearization.cycle_of_linearize hcycle)

/-- The base inherits from a class. -/
def inheritingBase : List Declaration :=
  [{ name := "Any", parents := ["Foo"] }, { name := "Foo" }]

theorem link_inheritingBase {a b : Text} (h : DeclaredLink inheritingBase a b) :
    a = "Any" ∧ b = "Foo" := by
  unfold DeclaredLink DeclaredEdge at h
  simpa [inheritingBase, Declaration.targets, eq_comm] using h

theorem takesBase_inheritingBase : TakesBase inheritingBase {} "Foo" where
  mentioned := ⟨_, List.mem_cons_self, Or.inr (Or.inl List.mem_cons_self)⟩
  not_role := by decide
  no_parent := by
    rintro p hp
    -- the class has no link at all
    obtain ⟨q, hq, _⟩ := TransGen.head'_iff.1 (transGen_link_of_inherited (.single hp))
    exact absurd (link_inheritingBase hq).1 (by decide)
  ne_root := by decide
  ne_base := by decide

/-- Nothing is linked to itself, and yet the graph has an endless way up: the class takes the base,
which inherits from it. -/
theorem exists_ascends_inheriting_base :
    (∀ t, ¬ TransGen (DeclaredLink inheritingBase) t t) ∧
      ∃ g, build inheritingBase {} = some (.ok g) ∧
        ¬ WellFounded fun p i => p ∈ g.nodes.parents i := by
  have hlinks : ∀ t, ¬ TransGen (DeclaredLink inheritingBase) t t := by
    intro t ht
    obtain ⟨_, hfirst, _⟩ := TransGen.head'_iff.1 ht
    obtain ⟨_, _, hlast⟩ := TransGen.tail'_iff.1 ht
    have hsame := (link_inheritingBase hfirst).1.symm.trans (link_inheritingBase hlast).2
    exact absurd hsame (by decide)
  obtain ⟨g, hg, hascends⟩ := exists_ascends hlinks {}
  refine ⟨hlinks, g, hg, fun hends => ?_⟩
  refine hascends.ends_iff.1 hends "Foo" takesBase_inheritingBase (.single ⟨"Any", .refl, ?_⟩)
  exact ⟨_, List.mem_cons_self, rfl, List.mem_cons_self⟩

end Graph

end Lineage
