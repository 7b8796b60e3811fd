import Mathlib
import Lineage.Proofs.Graph.Names
import Lineage.Proofs.Linearization.Renamed

/-!
# Declarations that do not matter for a type

The names that are relevant for a type are its own, the base and all that the declarations of these
refer to, directly or not. Declarations of other names may be inserted anywhere, whatever they refer
to: the registry is filled in another order and the roles hand down parents in other ways, but the
relevant names keep their entries, so what is answered for the type stays the same.

There is one exception. The base is registered when it is mentioned or first needed. So it may be
missing in the larger graph, when it was only there because some type had no parent and the inserted
declarations give that type one.
-/

open Relation (TransGen ReflTransGen)

namespace Lineage

open Linearization

/-! ## Inserted declarations -/

/-- Declarations with some property are inserted at any positions. -/
inductive Inserted (new : Declaration → Prop) : List Declaration → List Declaration → Prop where
  | nil : Inserted new [] []
  | keep {ds ds' : List Declaration} (d : Declaration) (rest : Inserted new ds ds') :
      Inserted new (d :: ds) (d :: ds')
  | insert {ds ds' : List Declaration} {d : Declaration} (h : new d) (rest : Inserted new ds ds') :
      Inserted new ds (d :: ds')

/-- The names that are relevant for a name: itself, the base, and what their declarations refer
to. -/
inductive Relevant (ds : List Declaration) (c : Config) (t : Text) : Text → Prop where
  | self : Relevant ds c t t
  | base : Relevant ds c t c.base
  | target {a b : Text} {r : Relation} (ha : Relevant ds c t a) (h : DeclaredEdge ds r a b) :
      Relevant ds c t b

namespace Inserted

variable {new : Declaration → Prop} {ds ds' : List Declaration}

theorem subset (h : Inserted new ds ds') : ds ⊆ ds' := by
  induction h with
  | nil => exact List.Subset.refl _
  | keep d _ ih => exact List.cons_subset_cons d ih
  | insert _ _ ih => exact List.subset_cons_of_subset _ ih

theorem mentioned (h : Inserted new ds ds') {t : Text} (ht : Mentioned ds t) : Mentioned ds' t := by
  obtain ⟨d, hd, ht⟩ := ht
  exact ⟨d, h.subset hd, ht⟩

/-- A name that no inserted declaration is for keeps its own declarations. -/
theorem filter_eq (h : Inserted new ds ds') {t : Text} (ht : ∀ d, new d → d.name ≠ t) :
    ds'.filter (·.name == t) = ds.filter (·.name == t) := by
  induction h with
  | nil => rfl
  | keep d _ ih => rw [List.filter_cons, List.filter_cons, ih]
  | insert hd _ ih => rw [List.filter_cons_of_neg (by simpa using ht _ hd), ih]

end Inserted

/-! ## Views that agree on some names -/

namespace View

/-- Two views agree on the names in `S`, but for the base: one of them may show it as a class
without any edges where the other one does not know it. -/
structure AgreeOn (S : Text → Prop) (base : Text) (v w : View) : Prop where
  entry : ∀ t, S t → t ≠ base → w t = v t
  base : (w base).getD {} = (v base).getD {}

variable {v w : View} {S : Text → Prop} {c : Config} {of of' : Text → List Text}

theorem parents_eq_getD (v : View) (t : Text) : v.parents t = ((v t).getD {}).parents := by
  unfold parents
  cases v t <;> rfl

theorem roles_eq_getD (v : View) (t : Text) : v.roles t = ((v t).getD {}).roles := by
  unfold roles
  cases v t <;> rfl

theorem not_rootless_base (v : View) (c : Config) : ¬ v.Rootless c c.base :=
  fun h => ne_base_of_rootless h rfl

namespace AgreeOn

theorem getD_eq (h : AgreeOn S c.base v w) {t : Text} (ht : S t) :
    (w t).getD {} = (v t).getD {} := by
  by_cases hbase : t = c.base
  · rw [hbase]
    exact h.base
  · rw [h.entry t ht hbase]

theorem parents_eq (h : AgreeOn S c.base v w) {t : Text} (ht : S t) :
    w.parents t = v.parents t := by
  rw [parents_eq_getD, parents_eq_getD, h.getD_eq ht]

theorem roles_eq (h : AgreeOn S c.base v w) {t : Text} (ht : S t) : w.roles t = v.roles t := by
  rw [roles_eq_getD, roles_eq_getD, h.getD_eq ht]

section Closed

variable (h : AgreeOn S c.base v w) (hroles : ∀ t, S t → ∀ r ∈ v.roles t, S r)
  (hof : Unfolds v.roles of) (hof' : Unfolds w.roles of')

include h hroles hof hof'

/-- The names unfold to the same roles. -/
theorem unfolding_eq {t : Text} (ht : S t) : of' t = of t := by
  have hmap := hof.map hof' (f := id) hroles
    (fun s hs => by rw [List.map_id, id, h.roles_eq hs]) t ht
  rwa [List.map_id] at hmap

theorem parents_flattened_eq {t : Text} (ht : S t) :
    (w.flattened of').parents t = (v.flattened of).parents t := by
  rw [parents_flattened hof', parents_flattened hof, unfolding_eq h hroles hof hof' ht]
  apply List.flatMap_congr
  intro r hr
  exact h.parents_eq (hof.closed hroles t ht r hr)

/-- The same names are rootless. -/
theorem rootless_flattened_iff {t : Text} (ht : S t) :
    (w.flattened of').Rootless c t ↔ (v.flattened of).Rootless c t := by
  by_cases hbase : t = c.base
  · rw [hbase]
    exact iff_of_false (not_rootless_base _ c) (not_rootless_base _ c)
  · have hentry : w.flattened of' t = v.flattened of t := by
      have hparents : (of' t).flatMap w.parents = (of t).flatMap v.parents := by
        rw [← parents_flattened hof', ← parents_flattened hof]
        exact parents_flattened_eq h hroles hof hof' ht
      unfold flattened withParents
      rw [h.entry t ht hbase]
      simp only [hparents]
    unfold Rootless
    rw [hentry]

/-- Flattened and rooted, the names have the same parents. -/
theorem parents_rooted_eq {t : Text} (ht : S t) :
    ((w.flattened of').rooted c).parents t = ((v.flattened of).rooted c).parents t := by
  classical
  rw [parents_rooted, parents_rooted, parents_flattened_eq h hroles hof hof' ht]
  exact if_congr (rootless_flattened_iff h hroles hof hof' ht) rfl rfl

end Closed

end AgreeOn

/-- Flattening and rooting lead to no other names than the base. -/
theorem parents_rooted_closed (hof : Unfolds v.roles of) (hbase : S c.base)
    (hroles : ∀ t, S t → ∀ r ∈ v.roles t, S r) (hparents : ∀ t, S t → ∀ p ∈ v.parents t, S p)
    (t : Text) (ht : S t) : ∀ p ∈ ((v.flattened of).rooted c).parents t, S p := by
  intro p hp
  rcases mem_parents_rooted_iff.1 hp with hp | ⟨_, rfl⟩
  · rw [parents_flattened hof, List.mem_flatMap] at hp
    obtain ⟨r, hr, hp⟩ := hp
    exact hparents r (hof.closed hroles t ht r hr) p hp
  · exact hbase

end View

/-! ## Relevant names -/

section Relevant

variable {ds ds' : List Declaration} {c : Config} {t s : Text}

theorem Relevant.roles (hs : Relevant ds c t s) : ∀ r ∈ (declared ds).roles s, Relevant ds c t r :=
  fun _ hr => hs.target (step_roles_declared_iff.1 hr)

theorem Relevant.parents (hs : Relevant ds c t s) :
    ∀ p ∈ (declared ds).parents s, Relevant ds c t p :=
  fun _ hp => hs.target (step_parents_declared_iff.1 hp)

/-- A relevant name is the name itself or the base, or some declaration refers to it. -/
theorem Relevant.cases_targets (hs : Relevant ds c t s) :
    s = t ∨ s = c.base ∨ ∃ d ∈ ds, s ∈ d.parents ∨ s ∈ d.roles := by
  cases hs with
  | self => exact Or.inl rfl
  | base => exact Or.inr (Or.inl rfl)
  | @target a _ r _ h =>
    obtain ⟨d, hd, _, hs⟩ := h
    refine Or.inr (Or.inr ⟨d, hd, ?_⟩)
    cases r with
    | inherits => exact Or.inl hs
    | composes => exact Or.inr hs

/-- What is relevant for a known name is known. -/
theorem Relevant.mentioned_or (hs : Relevant ds c t s) (ht : Mentioned ds t ∨ t = c.base) :
    Mentioned ds s ∨ s = c.base := by
  rcases hs.cases_targets with rfl | hbase | ⟨d, hd, hs⟩
  · exact ht
  · exact Or.inr hbase
  · exact Or.inl ⟨d, hd, Or.inr hs⟩

/-- The relevant names keep their declared entries. -/
theorem declared_agreeOn (h : Inserted (fun d => ¬ Relevant ds c t d.name) ds ds')
    (ht : Mentioned ds t ∨ t = c.base) :
    View.AgreeOn (Relevant ds c t) c.base (declared ds) (declared ds') := by
  have hfilter : ∀ s, Relevant ds c t s →
      ds'.filter (·.name == s) = ds.filter (·.name == s) := by
    intro s hs
    refine h.filter_eq fun d hd heq => ?_
    rw [heq] at hd
    exact hd hs
  constructor
  · intro s hs hbase
    have hmentioned := (hs.mentioned_or ht).resolve_right hbase
    unfold declared
    rw [if_pos hmentioned, if_pos (h.mentioned hmentioned), hfilter s hs]
  · rw [getD_declared, getD_declared, hfilter _ .base]

end Relevant

namespace Graph

/-! ## Graphs of more declarations -/

/-- If declarations of names that are not relevant for a type are inserted anywhere, and if the
declared roles compose without a cycle before and after, then what is answered for the type is the
same: the same names, or a report of the same type at fault. The type is still there, but for a
base that was not mentioned. -/
theorem build_of_inserted {ds ds' : List Declaration} {c : Config} {t : Text}
    (hinserted : Inserted (fun d => ¬ Relevant ds c t d.name) ds ds')
    (hacyclic : ∀ s, ¬ TransGen (DeclaredEdge ds .composes) s s)
    (hacyclic' : ∀ s, ¬ TransGen (DeclaredEdge ds' .composes) s s) :
    ∃ g g', build ds c = some (.ok g) ∧ build ds' c = some (.ok g') ∧
      ∀ i, g.find? t = some i →
        (Mentioned ds t ∨ t ≠ c.base → ∃ i', g'.find? t = some i') ∧
        ∀ i', g'.find? t = some i' →
          ∀ memo memo', Recorded g.nodes memo → Recorded g'.nodes memo' →
            (∀ l, (Linearization.linearize g.nodes memo i).2 = .ok l →
              ∃ l', (Linearization.linearize g'.nodes memo' i').2 = .ok l' ∧
                g'.nodes.names l' = g.nodes.names l) ∧
            ∀ f, (Linearization.linearize g.nodes memo i).2 = .error f →
              ∃ f', (Linearization.linearize g'.nodes memo' i').2 = .error f' ∧
                (f'.report g'.nodes i').name = (f.report g.nodes i).name ∧
                (f'.report g'.nodes i').requested = (f.report g.nodes i).requested := by
  obtain ⟨of, hof⟩ := exists_unfolds_declared (acyclic_roles_declared_iff.2 hacyclic)
  obtain ⟨of', hof'⟩ := exists_unfolds_declared (acyclic_roles_declared_iff.2 hacyclic')
  obtain ⟨g, hg, wf, _, _, _, hview⟩ := build_spec ds c hof
  obtain ⟨g', hg', wf', _, _, _, hview'⟩ := build_spec ds' c hof'
  refine ⟨g, g', hg, hg', ?_⟩
  intro i hi
  obtain ⟨hlt, hname⟩ := (find?_eq_some_iff wf).1 hi
  have hknown : Mentioned ds t ∨ t = c.base := hname ▸ mentioned_or_base wf hview hlt
  refine ⟨?_, ?_⟩
  · intro ht
    have hmentioned : Mentioned ds t := ht.elim id hknown.resolve_right
    obtain ⟨i', hlt', hname'⟩ := exists_of_mentioned wf' hview' (hinserted.mentioned hmentioned)
    exact ⟨i', (find?_eq_some_iff wf').2 ⟨hlt', hname'⟩⟩
  · intro i' hi' memo memo' hmemo hmemo'
    obtain ⟨hlt', hname'⟩ := (find?_eq_some_iff wf').1 hi'
    have hagree := declared_agreeOn hinserted hknown
    have hroles : ∀ s, Relevant ds c t s → ∀ r ∈ (declared ds).roles s, Relevant ds c t r :=
      fun s hs => hs.roles
    -- on the relevant names, the parents of the larger graph are those of the smaller one
    have hrename := (Nodes.renaming_parents wf hview).restrict
      (View.parents_rooted_closed hof .base hroles fun s hs => hs.parents)
      fun s hs => hagree.parents_rooted_eq hroles hof hof' hs
    exact linearize_renamed hrename (Nodes.renaming_parents wf' hview') ⟨hlt, hname ▸ .self⟩ hlt'
      (hname.trans hname'.symm) hmemo.follows hmemo'.follows

/-- A child of a class is declared in front of it. -/
theorem build_of_inserted_child :
    Inserted (fun d => ¬ Relevant [{ name := "B", parents := ["A"] }] {} "B" d.name)
        [{ name := "B", parents := ["A"] }]
        [{ name := "C", parents := ["B"] }, { name := "B", parents := ["A"] }] ∧
      ∃ g g', build [{ name := "B", parents := ["A"] }] {} = some (.ok g) ∧
        build [{ name := "C", parents := ["B"] }, { name := "B", parents := ["A"] }] {}
          = some (.ok g') ∧
        g.find? "B" = some 0 ∧ g'.find? "B" = some 1 ∧
        (Linearization.linearize g.nodes {} 0).2 = .ok [0, 1, 2] ∧
        ∃ l', (Linearization.linearize g'.nodes {} 1).2 = .ok l' ∧
          g'.nodes.names l' = g.nodes.names [0, 1, 2] := by
  have hinserted : Inserted (fun d => ¬ Relevant [{ name := "B", parents := ["A"] }] {} "B" d.name)
      [{ name := "B", parents := ["A"] }]
      [{ name := "C", parents := ["B"] }, { name := "B", parents := ["A"] }] := by
    refine .insert ?_ (.keep _ .nil)
    intro h
    rcases h.cases_targets with h | h | h
    · revert h
      decide
    · revert h
      decide
    · revert h
      decide
  obtain ⟨g, g', hg, hg', hsame⟩ := build_of_inserted hinserted
    (acyclic_of_no_roles (by decide)) (acyclic_of_no_roles (by decide))
  have heq : build [{ name := "B", parents := ["A"] }] {} = some (.ok
      { nodes := #[{ name := "B", parents := [1] }, { name := "A", parents := [2], children := [0] },
          { name := "Any", children := [1] }]
        sorted := [2, 1, 0], frozen := true }) := by cbv
  have heq' : build [{ name := "C", parents := ["B"] }, { name := "B", parents := ["A"] }] {} =
      some (.ok
        { nodes := #[{ name := "C", parents := [1] },
            { name := "B", parents := [2], children := [0] },
            { name := "A", parents := [3], children := [1] }, { name := "Any", children := [2] }]
          sorted := [3, 2, 1, 0], frozen := true }) := by cbv
  cases hg.symm.trans heq
  cases hg'.symm.trans heq'
  obtain ⟨_, hanswer⟩ := hsame 0 (by cbv)
  have hl : (Linearization.linearize #[{ name := "B", parents := [1] },
      { name := "A", parents := [2], children := [0] }, { name := "Any", children := [1] }] {} 0).2 =
      .ok [0, 1, 2] := by cbv
  exact ⟨hinserted, _, _, hg, hg', by cbv, by cbv, hl,
    (hanswer 1 (by cbv) {} {} .empty .empty).1 _ hl⟩

/-- The base was only there because a type had no parent, and a declaration is inserted that gives
that type one. -/
theorem missing_base_of_inserted :
    Inserted (fun d => ¬ Relevant [{ name := "Foo" }] {} "Any" d.name) [{ name := "Foo" }]
        [{ name := "Foo" }, { name := "Foo", parents := ["Mu"] }] ∧
      (∀ s, ¬ TransGen (DeclaredEdge [{ name := "Foo" }] .composes) s s) ∧
      (∀ s, ¬ TransGen
        (DeclaredEdge [{ name := "Foo" }, { name := "Foo", parents := ["Mu"] }] .composes) s s) ∧
      ∃ g g', build [{ name := "Foo" }] {} = some (.ok g) ∧
        build [{ name := "Foo" }, { name := "Foo", parents := ["Mu"] }] {} = some (.ok g') ∧
        g.find? "Any" = some 1 ∧ (g.linearize 1).2 = .ok [1] ∧ g'.find? "Any" = none := by
  refine ⟨.keep _ (.insert ?_ .nil), acyclic_of_no_roles (by decide),
    acyclic_of_no_roles (by decide), ?_⟩
  · intro h
    rcases h.cases_targets with h | h | h
    · revert h
      decide
    · revert h
      decide
    · revert h
      decide
  · refine ⟨{ nodes := #[{ name := "Foo", parents := [1] }, { name := "Any", children := [0] }]
              sorted := [1, 0], frozen := true },
      { nodes := #[{ name := "Foo", parents := [1] }, { name := "Mu", children := [0] }]
        sorted := [1, 0], frozen := true }, by cbv, by cbv, by cbv, by cbv, by cbv⟩

end Graph

end Lineage
