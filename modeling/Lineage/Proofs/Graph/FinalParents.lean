import Lineage.Proofs.Graph.DeclarationOrder
import Lineage.Proofs.Graph.Edges
import Lineage.Proofs.Graph.Names

/-!
# The parents in the graph

What a name inherits can be told from the declarations alone: the parents of its own declarations,
and behind them what its roles inherit, the last role first (`ListsInherited`). If the roles compose
without a cycle, each name has one such list.

The build takes another way. A role hands down the parents that it has at the time, which are more
than its declarations name if it has been flattened before, and it does so once for every path that
leads to it. Up to repeats the graph shows what is inherited all the same, and what inherits nothing
is left to the base (`build_parents`).
-/

open Relation (TransGen ReflTransGen)

namespace Lineage

variable {ds : List Declaration} {c : Config} {of : Text → List Text}
  {inherited : Text → List Text} {t : Text}

/-! ## What is inherited -/

/-- Each name inherits the parents of its declarations, and behind them what the roles of its
declarations inherit, the last role first. -/
def ListsInherited (ds : List Declaration) (inherited : Text → List Text) : Prop :=
  ∀ t, inherited t = (ds.filter (·.name == t)).flatMap (·.parents) ++
    ((ds.filter (·.name == t)).flatMap (·.roles)).reverse.flatMap inherited

/-- Flattening lists what is inherited. -/
theorem listsInherited_flattened (hof : Unfolds (declared ds).roles of) :
    ListsInherited ds ((declared ds).flattened of).parents := by
  intro t
  -- a name unfolds to itself, and behind that to what its roles unfold to
  rw [View.parents_flattened hof, hof t, List.flatMap_cons, List.flatMap_assoc, ← parents_declared,
    ← roles_declared]
  congr 1
  exact List.flatMap_congr fun r _ => (View.parents_flattened hof r).symm

theorem ListsInherited.unique (hof : Unfolds (declared ds).roles of)
    (h : ListsInherited ds inherited) {inherited' : Text → List Text}
    (h' : ListsInherited ds inherited') : inherited = inherited' := by
  funext t
  induction t using hof.induction with
  | step t ih =>
    rw [h t, h' t]
    congr 1
    refine List.flatMap_congr fun r hr => ih r ?_
    rw [roles_declared]
    exact List.mem_reverse.1 hr

/-- A name is left to the base: it inherits nothing, and it is neither a role nor the root nor the
base. -/
structure DefaultsToBase (ds : List Declaration) (c : Config) (inherited : Text → List Text)
    (t : Text) : Prop where
  inherits_nothing : inherited t = []
  not_role : Model.kindOf? ⟨ds⟩ t ≠ some .ofRole
  ne_root : t ≠ c.root
  ne_base : t ≠ c.base

/-- The names that take the base are those that are mentioned and left to it. -/
theorem rootless_iff_defaultsToBase (hof : Unfolds (declared ds).roles of) :
    ((declared ds).flattened of).Rootless c t ↔
      Mentioned ds t ∧ DefaultsToBase ds c ((declared ds).flattened of).parents t := by
  have hnothing : ((declared ds).flattened of).parents t = [] ↔ ∀ p, ¬ Inherited ds t p := by
    rw [List.eq_nil_iff_forall_not_mem]
    exact forall_congr' fun p => not_congr (mem_parents_flattened_iff hof)
  rw [rootless_flattened_iff hof]
  constructor
  · intro h
    exact ⟨h.mentioned, hnothing.2 h.no_parent, h.not_role, h.ne_root, h.ne_base⟩
  · rintro ⟨hmentioned, h⟩
    exact ⟨hmentioned, h.not_role, hnothing.1 h.inherits_nothing, h.ne_root, h.ne_base⟩

/-! ## The graph -/

/-- The graph shows what is inherited, but for repeats, and gives the base to what is left to it. -/
structure FinalParents (ds : List Declaration) (c : Config) (inherited : Text → List Text)
    (g : Graph) : Prop where
  inherits : ∀ (i : Nat) n, g.nodes[i]? = some n → inherited n.name ≠ [] →
    (g.nodes.names n.parents).eraseDups = (inherited n.name).eraseDups
  defaults : ∀ (i : Nat) n, g.nodes[i]? = some n → DefaultsToBase ds c inherited n.name →
    g.nodes.names n.parents = [c.base]
  parentless : ∀ (i : Nat) n, g.nodes[i]? = some n → inherited n.name = [] →
    ¬ DefaultsToBase ds c inherited n.name → n.parents = []
  base_mem_iff : c.base ∈ g.names ↔
    Mentioned ds c.base ∨ ∃ t ∈ g.names, DefaultsToBase ds c inherited t

namespace Graph

variable {g : Graph}

/-- The base is known if it is mentioned or if some name is left to it. -/
theorem base_mem_names_iff (wf : g.nodes.WellFormed) (hof : Unfolds (declared ds).roles of)
    (hview : g.nodes.view.firsts = (((declared ds).flattened of).rooted c).firsts) :
    c.base ∈ g.names ↔ Mentioned ds c.base ∨
      ∃ t ∈ g.names, DefaultsToBase ds c ((declared ds).flattened of).parents t := by
  have hknown : ∀ {s}, Mentioned ds s → s ∈ g.names := fun {s} hs =>
    mem_names_iff.2 (exists_of_mentioned wf hview hs)
  rw [mem_names_iff_view wf, View.isSome_eq hview, View.isSome_rooted_base_iff,
    View.isSome_flattened, isSome_declared]
  refine or_congr_right (exists_congr fun s => ?_)
  rw [rootless_iff_defaultsToBase hof]
  refine and_congr_left fun hs => ⟨hknown, fun hmem => ?_⟩
  obtain ⟨i, hi, rfl⟩ := mem_names_iff.1 hmem
  exact (mentioned_or_base wf hview hi).resolve_right hs.ne_base

theorem finalParents_of_view (wf : g.nodes.WellFormed) (hof : Unfolds (declared ds).roles of)
    (hview : g.nodes.view.firsts = (((declared ds).flattened of).rooted c).firsts)
    (hrootless : ∀ t, ((declared ds).flattened of).Rootless c t →
      g.nodes.view.parents t = [c.base]) :
    FinalParents ds c ((declared ds).flattened of).parents g := by
  have hparents : ∀ {i : Nat} {n}, g.nodes[i]? = some n →
      g.nodes.view.parents n.name = g.nodes.names n.parents := by
    intro i n hn
    rw [← Nodes.name_of_getElem? hn, ← Nodes.parents_of_getElem? hn]
    exact Nodes.view_parents wf (Nodes.lt_size_of_getElem? hn)
  -- what is not left to the base keeps what it inherits
  have hkept : ∀ {i : Nat} {n}, g.nodes[i]? = some n →
      ¬ DefaultsToBase ds c ((declared ds).flattened of).parents n.name →
        SameFirsts (g.nodes.names n.parents) (((declared ds).flattened of).parents n.name) := by
    intro i n hn hdefault
    have hsame := View.sameFirsts_parents hview n.name
    rw [hparents hn, View.parents_rooted, if_neg] at hsame
    · exact hsame
    · exact fun h => hdefault ((rootless_iff_defaultsToBase hof).1 h).2
  refine ⟨?_, ?_, ?_, base_mem_names_iff wf hof hview⟩
  · exact fun i n hn hne => hkept hn fun h => hne h.inherits_nothing
  · intro i n hn hdefault
    -- only the base may be in the graph without being mentioned, and it is not left to itself
    have hmentioned := mentioned_or_base wf hview (Nodes.lt_size_of_getElem? hn)
    rw [Nodes.name_of_getElem? hn] at hmentioned
    have hmentioned := hmentioned.resolve_right hdefault.ne_base
    rw [← hparents hn]
    exact hrootless _ ((rootless_iff_defaultsToBase hof).2 ⟨hmentioned, hdefault⟩)
  · intro i n hn hnil hdefault
    have hnames := (hkept hn hdefault).eq_nil_iff.2 hnil
    exact List.map_eq_nil_iff.1 hnames

/-- If the declared roles compose without a cycle, then what each name inherits is determined, and
the graph is built. In it every type has as its parents what it inherits, but for repeats. If it
inherits nothing, it has the base as its only parent, or none if it is a role, the root or the base.
The base is there if it is mentioned or if some type is left to it.

What a name inherits is told from its declarations in their order, and from those of its roles. How
they stand among the declarations of other names makes a difference in the repeats only. -/
theorem build_parents (ds : List Declaration) (c : Config)
    (hacyclic : ∀ t, ¬ TransGen (DeclaredEdge ds .composes) t t) :
    ∃ inherited, ListsInherited ds inherited ∧
      (∀ inherited', ListsInherited ds inherited' → inherited' = inherited) ∧
      ∃ g, build ds c = some (.ok g) ∧ FinalParents ds c inherited g ∧
        ∀ ds', ds.Perm ds' → (∀ t, ds.filter (·.name == t) = ds'.filter (·.name == t)) →
          ∃ g', build ds' c = some (.ok g') ∧ FinalParents ds' c inherited g' ∧
            g.names.Perm g'.names ∧
            ∀ (i i' : Nat) n n', g.nodes[i]? = some n → g'.nodes[i']? = some n' →
              n.name = n'.name →
                (g.nodes.names n.parents).eraseDups = (g'.nodes.names n'.parents).eraseDups := by
  obtain ⟨of, hof⟩ := exists_unfolds_declared (acyclic_roles_declared_iff.2 hacyclic)
  obtain ⟨g, hg, wf, _, _, _, hview, hrootless⟩ := build_rooted ds c hof
  refine ⟨((declared ds).flattened of).parents, listsInherited_flattened hof,
    fun inherited' h => h.unique hof (listsInherited_flattened hof), g, hg,
    finalParents_of_view wf hof hview hrootless, ?_⟩
  intro ds' hperm hown
  have hdeclared := declared_eq_of_perm hperm hown
  have hof' : Unfolds (declared ds').roles of := hdeclared ▸ hof
  obtain ⟨g', hg', wf', _, _, _, hview', hrootless'⟩ := build_rooted ds' c hof'
  -- what both graphs show is told from the declared entries, and these are the same
  have hsame : g.nodes.view.firsts = g'.nodes.view.firsts := by
    rw [hview, hview', hdeclared]
  refine ⟨g', hg', ?_, ?_, ?_⟩
  · rw [hdeclared]
    exact finalParents_of_view wf' hof' hview' hrootless'
  · refine (List.perm_ext_iff_of_nodup (nodup_names wf) (nodup_names wf')).2 fun t => ?_
    rw [mem_names_iff_view wf, mem_names_iff_view wf', View.isSome_eq hsame]
  · intro i i' n n' hn hn' hname
    obtain ⟨_, _, _, hparents⟩ := node_sameView wf wf' hsame hn hn' hname
    exact hparents

/-- A class composes two roles that have a parent in common. -/
def twoRoles : List Declaration :=
  [{ name := "C", roles := ["R", "S"] },
    { name := "R", kind := .ofRole, parents := ["P"] },
    { name := "S", kind := .ofRole, parents := ["Q", "P"] }]

theorem acyclic_twoRoles (t : Text) : ¬ TransGen (DeclaredEdge twoRoles .composes) t t :=
  acyclic_of_declared_rank (fun t => if t = "C" then 1 else 0) (by decide) t

/-- The class inherits from the second role before the first one, and the common parent once but for
repeats. That parent is left to the base. -/
theorem build_parents_twoRoles :
    ∃ inherited g, ListsInherited twoRoles inherited ∧
      inherited "C" = (["Q", "P", "P"] : List Text) ∧
      build twoRoles {} = some (.ok g) ∧ ("C" : Text) ∈ g.names ∧
      (∀ (i : Nat) n, g.nodes[i]? = some n → n.name = "C" →
        (g.nodes.names n.parents).eraseDups = (["Q", "P"] : List Text)) ∧
      (∀ (i : Nat) n, g.nodes[i]? = some n → n.name = "P" →
        g.nodes.names n.parents = (["Any"] : List Text)) ∧
      ("Any" : Text) ∈ g.names := by
  obtain ⟨inherited, hlists, _, g, hg, hfinal, _⟩ := build_parents twoRoles {} acyclic_twoRoles
  have hR : inherited "R" = (["P"] : List Text) := by
    rw [hlists]
    rfl
  have hS : inherited "S" = (["Q", "P"] : List Text) := by
    rw [hlists]
    rfl
  have hC : inherited "C" = (["Q", "P", "P"] : List Text) := by
    rw [hlists]
    show inherited "S" ++ (inherited "R" ++ []) = _
    rw [hS, hR]
    rfl
  have hP : DefaultsToBase twoRoles {} inherited "P" := by
    refine ⟨?_, by decide, by decide, by decide⟩
    rw [hlists]
    rfl
  have hknown : ∀ t, Mentioned twoRoles t → t ∈ g.names := by
    obtain ⟨of, hof⟩ := exists_unfolds_declared (acyclic_roles_declared_iff.2 acyclic_twoRoles)
    obtain ⟨g', hg', wf, _, _, _, hview⟩ := build_spec twoRoles {} hof
    obtain rfl : g' = g := by simpa [hg] using hg'.symm
    exact fun t ht => mem_names_iff.2 (exists_of_mentioned wf hview ht)
  refine ⟨inherited, g, hlists, hC, hg, hknown "C" (by decide), ?_, ?_, ?_⟩
  · intro i n hn hname
    have hinherits := hfinal.inherits i n hn
    rw [hname, hC] at hinherits
    rw [hinherits (List.cons_ne_nil _ _)]
    decide
  · intro i n hn hname
    refine hfinal.defaults i n hn ?_
    rw [hname]
    exact hP
  · exact hfinal.base_mem_iff.2 (Or.inr ⟨"P", hknown "P" (by decide), hP⟩)

end Graph

end Lineage
