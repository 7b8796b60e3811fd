import Lineage.Proofs.Linearization.Search
import Lineage.Proofs.Graph.Build

/-!
# The names of a graph

The graph of some declarations knows every name that they mention, and beyond these only the base.
A name that is mentioned without being declared is left with the base as its only parent, unless
it is the root or the base itself, so nothing but the base can keep it from being linearized
(`exists_base_of_undeclared`).
-/

namespace Lineage

namespace View

variable {v : View} {c : Config} {of : Text → List Text} {t : Text}

theorem isSome_flattened : (v.flattened of t).isSome = (v t).isSome := by
  unfold flattened withParents
  rw [Option.isSome_map]

theorem isSome_rooted_of_isSome (h : (v t).isSome = true) : (v.rooted c t).isSome = true := by
  obtain ⟨e, he⟩ := Option.isSome_iff_exists.1 h
  unfold rooted
  rw [he]
  rfl

theorem isSome_of_rooted (h : (v.rooted c t).isSome = true) :
    (v t).isSome = true ∨ t = c.base := by
  cases hv : v t with
  | some e => exact Or.inl rfl
  | none =>
    unfold rooted at h
    rw [hv] at h
    simp only at h
    split at h
    · rename_i hbase
      exact Or.inr hbase.1
    · cases h

/-- A known name gets other parents at most. -/
theorem exists_rooted {e : Entry} (h : v t = some e) :
    ∃ ps, v.rooted c t = some { e with parents := ps } := by
  unfold rooted
  rw [h]
  simp only
  split
  · exact ⟨[c.base], rfl⟩
  · exact ⟨e.parents, rfl⟩

/-- The base is known if it was before or if some name is rootless. -/
theorem isSome_rooted_base_iff :
    (v.rooted c c.base).isSome = true ↔ (v c.base).isSome = true ∨ ∃ s, v.Rootless c s := by
  cases hv : v c.base with
  | some e =>
    have hknown := isSome_rooted_of_isSome (v := v) (c := c) (t := c.base) (by rw [hv]; rfl)
    simp [hknown]
  | none =>
    unfold rooted
    rw [hv]
    by_cases h : ∃ s, v.Rootless c s <;> simp [h]

end View

theorem isSome_declared {ds : List Declaration} {t : Text} :
    (declared ds t).isSome = true ↔ Mentioned ds t := by
  unfold declared
  split <;> simp_all

/-- A name without a declaration shows as a class without any edges. -/
theorem declared_of_undeclared {ds : List Declaration} {t : Text} (h : Mentioned ds t)
    (hno : ∀ d ∈ ds, d.name ≠ t) : declared ds t = some {} := by
  unfold declared
  rw [if_pos h, filter_eq_nil_of_undeclared hno]
  rfl

theorem flattened_of_undeclared {ds : List Declaration} {of : Text → List Text} {t : Text}
    (hof : Unfolds (declared ds).roles of) (h : Mentioned ds t) (hno : ∀ d ∈ ds, d.name ≠ t) :
    (declared ds).flattened of t = some {} := by
  have hdeclared := declared_of_undeclared h hno
  have hroles : (declared ds).roles t = [] := by
    unfold View.roles
    rw [hdeclared]
    rfl
  have hparents : (of t).flatMap (declared ds).parents = [] := by
    rw [hof, hroles]
    unfold View.parents
    simp [hdeclared]
  unfold View.flattened View.withParents
  rw [hdeclared, Option.map_some]
  simp only [hparents]

namespace Graph

open Linearization

variable {g : Graph} {ds : List Declaration} {c : Config} {of : Text → List Text}

/-- The graph knows what the declarations mention. -/
theorem exists_of_mentioned (wf : g.nodes.WellFormed)
    (hview : g.nodes.view.firsts = (((declared ds).flattened of).rooted c).firsts) {t : Text}
    (h : Mentioned ds t) : ∃ i < g.nodes.size, g.nodes.name i = t := by
  rw [← Nodes.view_isSome_iff wf, View.isSome_eq hview]
  apply View.isSome_rooted_of_isSome
  rw [View.isSome_flattened]
  exact isSome_declared.2 h

/-- But for its parents, a mentioned name shows in the graph as its own declarations have it. -/
theorem node_of_mentioned (wf : g.nodes.WellFormed)
    (hview : g.nodes.view.firsts = (((declared ds).flattened of).rooted c).firsts) {t : Text}
    (h : Mentioned ds t) :
    ∃ i n, g.find? t = some i ∧ g.nodes[i]? = some n ∧
      n.kind = (Entry.ofDeclarations (ds.filter (·.name == t))).kind ∧
      n.categories = (Entry.ofDeclarations (ds.filter (·.name == t))).categories ∧
      g.nodes.names n.roles = (Entry.ofDeclarations (ds.filter (·.name == t))).roles := by
  obtain ⟨i, hi, rfl⟩ := exists_of_mentioned wf hview h
  obtain ⟨n, hn⟩ := Nodes.exists_of_lt_size hi
  have hdeclared : declared ds (g.nodes.name i) =
      some (.ofDeclarations (ds.filter (·.name == g.nodes.name i))) := if_pos h
  have hflattened := congrArg (Option.map fun e : Entry =>
    { e with parents := (of (g.nodes.name i)).flatMap (declared ds).parents }) hdeclared
  obtain ⟨ps, hrooted⟩ := View.exists_rooted (v := (declared ds).flattened of) (c := c) hflattened
  have hentry := congrFun hview (g.nodes.name i)
  unfold View.firsts at hentry
  rw [hrooted, Nodes.name_of_getElem? hn, Nodes.view_of_getElem? wf hn] at hentry
  have hentry := Option.some.inj hentry
  rw [Nodes.name_of_getElem? hn]
  refine ⟨i, n, ?_, hn, congrArg Entry.kind hentry, congrArg Entry.categories hentry,
    congrArg Entry.roles hentry⟩
  exact (find?_eq_some_iff wf).2 ⟨hi, Nodes.name_of_getElem? hn⟩

/-- Every name that the graph knows is mentioned, or it is the base. -/
theorem mentioned_or_base (wf : g.nodes.WellFormed)
    (hview : g.nodes.view.firsts = (((declared ds).flattened of).rooted c).firsts) {i : Nat}
    (hi : i < g.nodes.size) : Mentioned ds (g.nodes.name i) ∨ g.nodes.name i = c.base := by
  have hknown := (Nodes.view_isSome_iff wf _).2 ⟨i, hi, rfl⟩
  rw [View.isSome_eq hview] at hknown
  rcases View.isSome_of_rooted hknown with h | h
  · rw [View.isSome_flattened] at h
    exact Or.inl (isSome_declared.1 h)
  · exact Or.inr h

/-- A type without a declaration, neither the root nor the base, can be linearized if the base
can. -/
theorem exists_base_of_undeclared (wf : g.nodes.WellFormed) (hof : Unfolds (declared ds).roles of)
    (hview : g.nodes.view.firsts = (((declared ds).flattened of).rooted c).firsts) {i : Nat}
    (hi : i < g.nodes.size) (hno : ∀ d ∈ ds, d.name ≠ g.nodes.name i)
    (hroot : g.nodes.name i ≠ c.root) (hbase : g.nodes.name i ≠ c.base) :
    ∃ b < g.nodes.size, g.nodes.name b = c.base ∧
      (Linearizable g.nodes.parents b → Linearizable g.nodes.parents i) := by
  have hmentioned := (mentioned_or_base wf hview hi).resolve_right hbase
  have hempty := flattened_of_undeclared hof hmentioned hno
  have hrootless : ({} : Entry).isRootless c (g.nodes.name i) = true := by
    simp [Entry.isRootless, hroot, hbase]
  have hparents : (((declared ds).flattened of).rooted c).parents (g.nodes.name i) = [c.base] := by
    unfold View.parents View.rooted
    simp [hempty, hrootless]
  have hknown := View.isSome_rooted_base_iff.2 (Or.inr ⟨_, {}, hempty, hrootless⟩)
  rw [← View.isSome_eq hview, Nodes.view_isSome_iff wf] at hknown
  obtain ⟨b, hb, hname⟩ := hknown
  refine ⟨b, hb, hname, ?_⟩
  rintro ⟨l, hl⟩
  -- among the names the base is the only parent, so its linearization can be put behind the type
  have hrename := Nodes.renaming_parents wf hview
  have hnames := hl.map hrename hb
  rw [hname] at hnames
  have hsingle : ((((declared ds).flattened of).rooted c).parents
      (g.nodes.name i)).eraseDups = [c.base] := by
    rw [hparents]
    rfl
  obtain ⟨m, hm, _⟩ := Linearizes.of_map hrename hi
    ((Linearizes.iff_of_single_parent hsingle).2 ⟨_, hnames, rfl⟩)
  exact ⟨m, hm⟩

end Graph

end Lineage
