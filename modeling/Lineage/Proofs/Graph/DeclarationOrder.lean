import Lineage.Proofs.Linearization.Renamed

/-!
# The order of the declarations

Declarations of different names may change places. The registry is then filled in another order
and the roles hand down parents that are repeated in other ways, but by name and up to repeats the
graph shows the same. All that is read off a graph by searching it from the front agrees with it:
the dependency order, the linearizations, and the types at fault.
-/

open Relation (TransGen ReflTransGen)

namespace Lineage

open Linearization

/-! ## Registries that show the same -/

section SameView

variable {ns ns' : Nodes} {memo memo' : Memo} {i i' : Nat}

/-- What is answered for a name is the same, whatever has been asked for before. -/
theorem linearize_sameView (wf : ns.WellFormed) (wf' : ns'.WellFormed)
    (hview : ns.view.firsts = ns'.view.firsts) (hi : i < ns.size) (hi' : i' < ns'.size)
    (hname : ns.name i = ns'.name i') (hmemo : Recorded ns memo) (hmemo' : Recorded ns' memo') :
    (∀ l, (linearize ns memo i).2 = .ok l →
      ∃ l', (linearize ns' memo' i').2 = .ok l' ∧ ns'.names l' = ns.names l) ∧
    ∀ f, (linearize ns memo i).2 = .error f →
      ∃ f', (linearize ns' memo' i').2 = .error f' ∧
        (f'.report ns' i').name = (f.report ns i).name ∧
        (f'.report ns' i').requested = (f.report ns i).requested :=
  linearize_renamed (Nodes.renaming_parents wf hview) (Nodes.renaming_parents wf' rfl) hi hi' hname
    hmemo.follows hmemo'.follows

/-- Nodes of one name agree in what is said of them, up to repeated parents. -/
theorem node_sameView (wf : ns.WellFormed) (wf' : ns'.WellFormed)
    (hview : ns.view.firsts = ns'.view.firsts) {n n' : Node} (hn : ns[i]? = some n)
    (hn' : ns'[i']? = some n') (hname : n.name = n'.name) :
    n.kind = n'.kind ∧ n.categories = n'.categories ∧ ns.names n.roles = ns'.names n'.roles ∧
      (ns.names n.parents).eraseDups = (ns'.names n'.parents).eraseDups := by
  have hentry : (ns.entry n).firsts = (ns'.entry n').firsts := by
    have ht := congrFun hview n.name
    unfold View.firsts at ht
    rw [Nodes.view_of_getElem? wf hn, hname, Nodes.view_of_getElem? wf' hn'] at ht
    exact Option.some.inj ht
  exact ⟨congrArg Entry.kind hentry, congrArg Entry.categories hentry,
    congrArg Entry.roles hentry, congrArg Entry.parents hentry⟩

end SameView

namespace Graph

theorem mem_names_iff_view {g : Graph} (wf : g.nodes.WellFormed) (t : Text) :
    t ∈ g.names ↔ (g.nodes.view t).isSome = true := by
  rw [mem_names_iff, Nodes.view_isSome_iff wf]

/-! ## Permuted declarations -/

/-- If declarations change places and those of each name stay in order, and if the declared roles
compose without a cycle, then the same graph is built by name: the same names with the same kinds,
categories and roles and, but for repeats, the same parents; the same order of names; and for every
name, whatever has been asked for before, the same linearization or a report of the same type at
fault. -/
theorem build_of_perm {ds ds' : List Declaration} (c : Config) (hperm : ds.Perm ds')
    (hown : ∀ t, ds.filter (·.name == t) = ds'.filter (·.name == t))
    (hacyclic : ∀ t, ¬ TransGen (DeclaredEdge ds .composes) t t) :
    ∃ g g', build ds c = some (.ok g) ∧ build ds' c = some (.ok g') ∧ g.names.Perm g'.names ∧
      (∀ (i i' : Nat) n n', g.nodes[i]? = some n → g'.nodes[i']? = some n' → n.name = n'.name →
        n.kind = n'.kind ∧ n.categories = n'.categories ∧
          g.nodes.names n.roles = g'.nodes.names n'.roles ∧
          (g.nodes.names n.parents).eraseDups = (g'.nodes.names n'.parents).eraseDups) ∧
      g.nodes.names g.sorted = g'.nodes.names g'.sorted ∧
      ∀ t i i', g.find? t = some i → g'.find? t = some i' →
        ∀ memo memo', Recorded g.nodes memo → Recorded g'.nodes memo' →
          (∀ l, (Linearization.linearize g.nodes memo i).2 = .ok l →
            ∃ l', (Linearization.linearize g'.nodes memo' i').2 = .ok l' ∧
              g'.nodes.names l' = g.nodes.names l) ∧
          ∀ f, (Linearization.linearize g.nodes memo i).2 = .error f →
            ∃ f', (Linearization.linearize g'.nodes memo' i').2 = .error f' ∧
              (f'.report g'.nodes i').name = (f.report g.nodes i).name ∧
              (f'.report g'.nodes i').requested = (f.report g.nodes i).requested := by
  have hroles : Acyclic (declared ds).roles := by
    intro t ht
    exact hacyclic t (TransGen.mono (fun a b => step_roles_declared_iff.1) t t ht)
  have hdeclared := declared_eq_of_perm hperm hown
  obtain ⟨of, hof⟩ := exists_unfolds_declared hroles
  obtain ⟨g, hg, wf, _, _, hsorted, hview⟩ := build_spec ds c hof
  obtain ⟨g', hg', wf', _, _, hsorted', hview'⟩ := build_spec ds' c (hdeclared ▸ hof)
  -- both graphs show what can be told from the declared entries, and these are the same
  have hsame : g.nodes.view.firsts = g'.nodes.view.firsts := by
    rw [hview, hview', hdeclared]
  refine ⟨g, g', hg, hg', ?_, ?_, ?_, ?_⟩
  · refine (List.perm_ext_iff_of_nodup (nodup_names wf) (nodup_names wf')).2 ?_
    intro t
    rw [mem_names_iff_view wf, mem_names_iff_view wf', View.isSome_eq hsame]
  · intro i i' n n' hn hn' hname
    exact node_sameView wf wf' hsame hn hn' hname
  · rw [hsorted, hsorted']
    exact Order.names_sort_eq wf wf' hsame
  · intro t i i' hi hi' memo memo' hmemo hmemo'
    obtain ⟨hlt, hname⟩ := (find?_eq_some_iff wf).1 hi
    obtain ⟨hlt', hname'⟩ := (find?_eq_some_iff wf').1 hi'
    exact linearize_sameView wf wf' hsame hlt hlt' (hname.trans hname'.symm) hmemo hmemo'

/-- A class that composes a role which is declared before it or after it. -/
theorem build_of_perm_role_last :
    ∃ g g',
      build [{ name := "R", kind := .ofRole, parents := ["P"] }, { name := "C", roles := ["R"] }] {}
        = some (.ok g) ∧
      build [{ name := "C", roles := ["R"] }, { name := "R", kind := .ofRole, parents := ["P"] }] {}
        = some (.ok g') ∧
      g.names.Perm g'.names ∧ g.nodes.names g.sorted = g'.nodes.names g'.sorted := by
  have hne : ("R" : Text) ≠ "C" := by decide
  have hedge : ∀ a b, DeclaredEdge
      [{ name := "R", kind := .ofRole, parents := ["P"] }, { name := "C", roles := ["R"] }]
        .composes a b → a = "C" ∧ b = "R" := by
    rintro a b ⟨d, hd, rfl, hb⟩
    simp only [List.mem_cons, List.not_mem_nil, or_false] at hd
    rcases hd with rfl | rfl
    · cases hb
    · exact ⟨rfl, List.mem_singleton.1 hb⟩
  obtain ⟨g, g', hg, hg', hnames, _, hsorted, _⟩ := build_of_perm {}
    (List.Perm.swap { name := "C", roles := ["R"] }
      { name := "R", kind := .ofRole, parents := ["P"] } [])
    (by
      intro t
      by_cases hR : ("R" : Text) = t
      · have hC : ("C" : Text) ≠ t := fun hC => hne (hR.trans hC.symm)
        simp [hR, hC]
      · simp [List.filter_cons, hR])
    (by
      intro t ht
      obtain ⟨a, hta, hat⟩ := TransGen.head'_iff.1 ht
      obtain ⟨rfl, rfl⟩ := hedge _ _ hta
      rcases ReflTransGen.cases_head hat with heq | ⟨b, hb, _⟩
      · exact hne heq
      · exact hne (hedge _ _ hb).1)
  exact ⟨g, g', hg, hg', hnames, hsorted⟩

end Graph

end Lineage
