import Lineage.Proofs.Graph.Flatten
import Lineage.Proofs.Graph.Ingest
import Lineage.Proofs.Graph.Order
import Mathlib.Data.Finset.Dedup

/-!
# What the build yields

The passes behind the flattening either add the universal base as a parent or touch inverse edges
only, and freezing succeeds because the order lists every node once. Put together, the graph of
some declarations shows by name what can be said without it (`build_spec`): what is declared,
flattened along the roles and given the base where it is rootless.
-/

namespace Lineage

/-- Whether an entry is no role, has no parent and is neither that of the root nor of the base. -/
def Entry.isRootless (c : Config) (t : Text) (e : Entry) : Bool :=
  e.kind != .ofRole && e.parents.isEmpty && t != c.root && t != c.base

namespace View

/-- Whether a name is known and rootless. -/
def Rootless (v : View) (c : Config) (t : Text) : Prop :=
  ∃ e, v t = some e ∧ e.isRootless c t = true

open Classical in
/-- What a view becomes when each rootless name gets the base as its parent. The base becomes known
if there is any such name. -/
noncomputable def rooted (v : View) (c : Config) : View :=
  fun t => match v t with
    | some e => some (if e.isRootless c t then { e with parents := [c.base] } else e)
    | none => if t = c.base ∧ ∃ s, v.Rootless c s then some {} else none

variable {v w : View} {c : Config} {t : Text}

theorem isRootless_firsts (e : Entry) : e.firsts.isRootless c t = e.isRootless c t := by
  have hempty : e.parents.eraseDups.isEmpty = e.parents.isEmpty := by
    rw [Bool.eq_iff_iff, List.isEmpty_iff, List.isEmpty_iff]
    exact (SameFirsts.eraseDups_left e.parents).eq_nil_iff
  unfold Entry.isRootless Entry.firsts
  rw [hempty]

theorem rootless_congr (h : v.firsts = w.firsts) (t : Text) : v.Rootless c t ↔ w.Rootless c t := by
  have hfirsts : ∀ v : View, v.Rootless c t ↔ v.firsts.Rootless c t := by
    intro v
    unfold Rootless firsts
    constructor
    · rintro ⟨e, he, hrootless⟩
      exact ⟨e.firsts, by rw [he]; rfl, by rw [isRootless_firsts]; exact hrootless⟩
    · rintro ⟨e, he, hrootless⟩
      obtain ⟨e', he', rfl⟩ := Option.map_eq_some_iff.1 he
      rw [isRootless_firsts] at hrootless
      exact ⟨e', he', hrootless⟩
  rw [hfirsts v, hfirsts w, h]

open Classical in
/-- Giving the base to rootless names does not see repeated parents. -/
theorem firsts_rooted_congr (h : v.firsts = w.firsts) :
    (v.rooted c).firsts = (w.rooted c).firsts := by
  funext t
  have ht := congrFun h t
  have hsome : (∃ s, v.Rootless c s) ↔ ∃ s, w.Rootless c s := exists_congr (rootless_congr h)
  unfold firsts at ht ⊢
  unfold rooted
  cases hv : v t with
  | none =>
    rw [hv] at ht
    have hw := Option.map_eq_none_iff.1 ht.symm
    have hif : (if t = c.base ∧ ∃ s, v.Rootless c s then some ({} : Entry) else none) =
        if t = c.base ∧ ∃ s, w.Rootless c s then some {} else none :=
      if_congr (and_congr_right fun _ => hsome) rfl rfl
    simp only [hw, hif]
  | some e =>
    rw [hv] at ht
    obtain ⟨e', hw, he'⟩ := Option.map_eq_some_iff.1 ht.symm
    have hrootless : e.isRootless c t = e'.isRootless c t := by
      rw [← isRootless_firsts e, ← he', isRootless_firsts]
    simp only [hw, hrootless, Option.map_some]
    split
    · have hkind := congrArg Entry.kind he'
      have hcategories := congrArg Entry.categories he'
      have hroles := congrArg Entry.roles he'
      unfold Entry.firsts at hkind hcategories hroles ⊢
      simp only at hkind hcategories hroles
      simp only [hkind, hcategories, hroles]
    · rw [he']

/-- Flattening gives a name the parents of all names that it unfolds to. -/
theorem parents_flattened {of : Text → List Text} (hof : Unfolds v.roles of) (t : Text) :
    (v.flattened of).parents t = (of t).flatMap v.parents := by
  show (((v t).map fun e => { e with parents := (of t).flatMap v.parents }).map
    (·.parents)).getD [] = _
  cases hv : v t with
  | some e => rfl
  | none =>
    -- an unknown name unfolds to itself alone
    have hroles : v.roles t = [] := by
      unfold roles
      rw [hv]
      rfl
    have hparents : v.parents t = [] := by
      unfold parents
      rw [hv]
      rfl
    rw [hof t, hroles, List.flatMap_cons, hparents]
    rfl

theorem roles_flattened (v : View) (of : Text → List Text) (t : Text) :
    (v.flattened of).roles t = v.roles t := by
  unfold roles flattened withParents
  cases v t <;> rfl

/-- Flattening keeps the parents of a name. -/
theorem mem_parents_flattened {of : Text → List Text} (hof : Unfolds v.roles of) {s : Text}
    (h : s ∈ v.parents t) : s ∈ (v.flattened of).parents t := by
  rw [parents_flattened hof, hof t]
  exact List.mem_append_left _ h

theorem ne_base_of_rootless (h : v.Rootless c t) : t ≠ c.base := by
  obtain ⟨e, _, hrootless⟩ := h
  unfold Entry.isRootless at hrootless
  simp only [Bool.and_eq_true, bne_iff_ne] at hrootless
  exact hrootless.2

theorem parents_of_rootless (h : v.Rootless c t) : v.parents t = [] := by
  obtain ⟨e, he, hrootless⟩ := h
  unfold Entry.isRootless at hrootless
  simp only [Bool.and_eq_true, List.isEmpty_iff] at hrootless
  unfold parents
  rw [he]
  exact hrootless.1.1.2

open Classical in
theorem parents_rooted (v : View) (c : Config) (t : Text) :
    (v.rooted c).parents t = if v.Rootless c t then [c.base] else v.parents t := by
  unfold parents rooted Rootless
  cases v t with
  | none =>
    simp only
    split <;> simp
  | some e =>
    simp only [Option.map_some, Option.getD_some, Option.some.injEq, exists_eq_left']
    split <;> rfl

/-- A name keeps its parents, and gets the base if it is rootless. -/
theorem mem_parents_rooted_iff {s : Text} :
    s ∈ (v.rooted c).parents t ↔ s ∈ v.parents t ∨ v.Rootless c t ∧ s = c.base := by
  rw [parents_rooted]
  by_cases h : v.Rootless c t
  · rw [if_pos h, parents_of_rootless h]
    simp [h]
  · rw [if_neg h]
    simp [h]

theorem mem_parents_rooted {s : Text} (h : s ∈ v.parents t) : s ∈ (v.rooted c).parents t :=
  mem_parents_rooted_iff.2 (Or.inl h)

theorem roles_rooted (v : View) (c : Config) (t : Text) : (v.rooted c).roles t = v.roles t := by
  unfold roles rooted
  cases v t with
  | none =>
    simp only
    split <;> rfl
  | some e =>
    simp only
    split <;> rfl

end View

namespace Graph

variable {g : Graph} {ns : Nodes} {c : Config}

/-! ## Default parents -/

theorem mem_rootless {i : Nat} :
    i ∈ g.rootless ↔ ∃ n, g.nodes[i]? = some n ∧ isRootless g.config n = true := by
  unfold rootless
  rw [List.mem_filter, List.mem_range]
  constructor
  · rintro ⟨hi, hrootless⟩
    obtain ⟨n, hn⟩ := Nodes.exists_of_lt_size hi
    rw [hn] at hrootless
    exact ⟨n, hn, hrootless⟩
  · rintro ⟨n, hn, hrootless⟩
    refine ⟨Nodes.lt_size_of_getElem? hn, ?_⟩
    rw [hn]
    exact hrootless

theorem isRootless_entry (ns : Nodes) (n : Node) :
    (ns.entry n).isRootless c n.name = isRootless c n := by
  unfold Entry.isRootless isRootless Nodes.entry Nodes.names Node.isRole
  simp only [List.isEmpty_map]
  rfl

/-- The rootless names are those of the rootless nodes. -/
theorem rootless_name_iff (wf : g.nodes.WellFormed) {i : Nat} (hi : i < g.nodes.size) :
    g.nodes.view.Rootless g.config (g.nodes.name i) ↔ i ∈ g.rootless := by
  obtain ⟨n, hn⟩ := Nodes.exists_of_lt_size hi
  rw [mem_rootless, Nodes.name_of_getElem? hn]
  unfold View.Rootless
  rw [Nodes.view_of_getElem? wf hn, hn]
  simp only [Option.some.injEq, exists_eq_left', isRootless_entry]

theorem exists_rootless_iff (wf : g.nodes.WellFormed) :
    (∃ t, g.nodes.view.Rootless g.config t) ↔ g.rootless ≠ [] := by
  constructor
  · rintro ⟨t, hrootless⟩ hnil
    obtain ⟨e, he, _⟩ := id hrootless
    obtain ⟨i, n, hn, rfl, _⟩ := (Nodes.view_eq_some_iff wf).1 he
    rw [← Nodes.name_of_getElem? hn] at hrootless
    have hi := (rootless_name_iff wf (Nodes.lt_size_of_getElem? hn)).1 hrootless
    rw [hnil] at hi
    cases hi
  · intro hne
    obtain ⟨i, hi⟩ := List.exists_mem_of_ne_nil _ hne
    obtain ⟨n, hn, _⟩ := mem_rootless.1 hi
    exact ⟨_, (rootless_name_iff wf (Nodes.lt_size_of_getElem? hn)).2 hi⟩

/-- Giving one more parent to different nodes. -/
theorem foldl_addParents (is : List Nat) (base : Nat) (hnodup : is.Nodup)
    (his : ∀ i ∈ is, i < ns.size) :
    Nodes.AgreeOn Nodes.core ns (is.foldl (fun ns i => ns.addParents i [base]) ns) ∧
      ∀ j, (is.foldl (fun ns i => ns.addParents i [base]) ns).parents j =
        if j ∈ is then ns.parents j ++ [base] else ns.parents j := by
  induction is generalizing ns with
  | nil => exact ⟨Nodes.AgreeOn.refl _ _, fun j => by simp⟩
  | cons i is ih =>
    rw [List.nodup_cons] at hnodup
    have hagree := agreeOn_addParents ns i [base]
    have his' : ∀ k ∈ is, k < (ns.addParents i [base]).size := by
      intro k hk
      rw [hagree.size_eq]
      exact his k (List.mem_cons_of_mem i hk)
    obtain ⟨hagree', hparents⟩ := ih hnodup.2 his'
    rw [List.foldl_cons]
    refine ⟨hagree.trans hagree', ?_⟩
    intro j
    rw [hparents j, parents_addParents _ _ _ _ (his i List.mem_cons_self)]
    by_cases hji : j = i
    · -- the node does not come up again
      rw [hji, if_neg hnodup.1, if_pos rfl, if_pos List.mem_cons_self]
    · simp [hji]

theorem fetch_of_mutable (hmutable : g.frozen = false) (t : Text) :
    g.fetch t = .ok (g.intern t) := by
  unfold fetch checkMutable
  rw [hmutable]
  rfl

section Rooted

variable {ns' : Nodes}

open Classical in
/-- The parents by name once the base has been given to the rootless names. -/
noncomputable def rootedParents (g : Graph) (t : Text) : List Text :=
  if g.nodes.view.Rootless g.config t then [g.config.base]
  else (g.intern g.config.base).1.nodes.view.parents t

/-- Once the base is known, the rootless names are still those of the rootless nodes. -/
theorem rootless_name_intern_iff (wf : g.nodes.WellFormed) {i : Nat}
    (hi : i < (g.intern g.config.base).1.nodes.size) :
    g.nodes.view.Rootless g.config ((g.intern g.config.base).1.nodes.name i) ↔
      i ∈ g.rootless := by
  obtain ⟨wf₁, _, _, hold, _⟩ := intern_spec wf g.config.base
  constructor
  · intro h
    obtain ⟨e, he, _⟩ := id h
    obtain ⟨j, n, hn, hname, _⟩ := (Nodes.view_eq_some_iff wf).1 he
    have hj := Nodes.lt_size_of_getElem? hn
    obtain ⟨hj₁, hname₁⟩ := hold j hj
    rw [← Nodes.name_of_getElem? hn, ← hname₁] at hname
    -- the node is the one that was rootless before
    have hji := wf₁.injective j i hj₁ hi hname
    rw [← hji, hname₁, rootless_name_iff wf hj] at h
    exact hji ▸ h
  · intro h
    obtain ⟨n, hn, _⟩ := mem_rootless.1 h
    have hi := Nodes.lt_size_of_getElem? hn
    rw [(hold i hi).2]
    exact (rootless_name_iff wf hi).2 h

/-- The parents of a rootless node are still empty when the base has become known. -/
theorem parents_of_rootless (wf : g.nodes.WellFormed) {i : Nat} (h : i ∈ g.rootless) :
    (g.intern g.config.base).1.nodes.parents i = [] := by
  obtain ⟨wf₁, _, _, hold, hview⟩ := intern_spec wf g.config.base
  obtain ⟨n, hn, _⟩ := mem_rootless.1 h
  obtain ⟨hi, hname⟩ := hold i (Nodes.lt_size_of_getElem? hn)
  have hrootless := (rootless_name_intern_iff wf hi).2 h
  have hbase := View.ne_base_of_rootless hrootless
  have hnil := View.parents_of_rootless hrootless
  have hnames := Nodes.view_parents wf₁ hi
  unfold View.parents at hnames hnil
  rw [hview, if_neg hbase, hnil] at hnames
  exact List.map_eq_nil_iff.1 hnames.symm

theorem rootedParents_spec (wf : g.nodes.WellFormed)
    (hname : ns'.name = (g.intern g.config.base).1.nodes.name)
    (hparents : ∀ j, ns'.parents j = if j ∈ g.rootless then
      (g.intern g.config.base).1.nodes.parents j ++ [(g.intern g.config.base).2]
      else (g.intern g.config.base).1.nodes.parents j) :
    ∀ i < (g.intern g.config.base).1.nodes.size, ns'.names (ns'.parents i) =
      g.rootedParents ((g.intern g.config.base).1.nodes.name i) := by
  intro i hi
  obtain ⟨wf₁, _, hbaseName, _, _⟩ := intern_spec wf g.config.base
  unfold rootedParents
  by_cases h : i ∈ g.rootless
  · rw [hparents, if_pos h, parents_of_rootless wf h, if_pos ((rootless_name_intern_iff wf hi).2 h)]
    unfold Nodes.names
    rw [hname, List.nil_append, List.map_singleton, hbaseName]
  · rw [hparents, if_neg h, if_neg fun hr => h ((rootless_name_intern_iff wf hi).1 hr),
      Nodes.view_parents wf₁ hi]
    unfold Nodes.names
    rw [hname]

/-- By name, the base is the only parent of a rootless name. -/
theorem view_parents_of_rootless (wf : g.nodes.WellFormed)
    (hagree : Nodes.AgreeOn Nodes.core (g.intern g.config.base).1.nodes ns')
    (wf' : ns'.WellFormed)
    (hrooted : ∀ i < (g.intern g.config.base).1.nodes.size, ns'.names (ns'.parents i) =
      g.rootedParents ((g.intern g.config.base).1.nodes.name i))
    {t : Text} (ht : g.nodes.view.Rootless g.config t) :
    ns'.view.parents t = [g.config.base] := by
  obtain ⟨_, _, _, hold, _⟩ := intern_spec wf g.config.base
  obtain ⟨e, he, _⟩ := id ht
  obtain ⟨i, n, hn, rfl, _⟩ := (Nodes.view_eq_some_iff wf).1 he
  obtain ⟨hi, hname⟩ := hold i (Nodes.lt_size_of_getElem? hn)
  rw [Nodes.name_of_getElem? hn] at hname
  have hnamed : ns'.name i = n.name := by rw [hagree.core_name, hname]
  have hsize : i < ns'.size := by rwa [hagree.size_eq]
  rw [← hnamed, Nodes.view_parents wf' hsize, hrooted i hi, hname]
  unfold rootedParents
  exact if_pos ht

theorem rootedParents_closed (wf : g.nodes.WellFormed)
    (hparents : ∀ j, ns'.parents j = if j ∈ g.rootless then
      (g.intern g.config.base).1.nodes.parents j ++ [(g.intern g.config.base).2]
      else (g.intern g.config.base).1.nodes.parents j) :
    ∀ i, ∀ p ∈ ns'.parents i, p < (g.intern g.config.base).1.nodes.size := by
  intro i p hp
  obtain ⟨wf₁, hbase, _, _, _⟩ := intern_spec wf g.config.base
  rw [hparents] at hp
  split at hp
  · rcases List.mem_append.1 hp with hp | hp
    · exact wf₁.parents_closed i p hp
    · rw [List.mem_singleton.1 hp]
      exact hbase
  · exact wf₁.parents_closed i p hp

theorem withParents_intern (wf : g.nodes.WellFormed)
    (hsome : ∃ t, g.nodes.view.Rootless g.config t) :
    (g.intern g.config.base).1.nodes.view.withParents g.rootedParents =
      g.nodes.view.rooted g.config := by
  obtain ⟨_, _, _, _, hview⟩ := intern_spec wf g.config.base
  funext t
  unfold View.withParents View.rooted
  rw [hview t]
  cases ht : g.nodes.view t with
  | none =>
    -- only the base may become known, and it gets no parent
    have hno : ¬ g.nodes.view.Rootless g.config t := by
      rintro ⟨e, he, _⟩
      rw [ht] at he
      cases he
    have hparents : t = g.config.base → g.rootedParents t = [] := by
      intro hbase
      unfold rootedParents View.parents
      rw [if_neg hno, hview t, if_pos hbase, ht]
      rfl
    by_cases hbase : t = g.config.base
    · simp only [if_pos hbase, if_pos (And.intro hbase hsome), hparents hbase]
      rfl
    · simp only [if_neg hbase, if_neg fun h : _ ∧ _ => hbase h.1]
      rfl
  | some e =>
    have hsame : (if t = g.config.base then some ((some e).getD {}) else some e) = some e := by
      split <;> rfl
    have hiff : g.nodes.view.Rootless g.config t ↔ e.isRootless g.config t = true := by
      unfold View.Rootless
      rw [ht]
      simp only [Option.some.injEq, exists_eq_left']
    simp only [hsame, Option.map_some, Option.some.injEq]
    unfold rootedParents View.parents
    by_cases hrootless : e.isRootless g.config t = true
    · rw [if_pos hrootless, if_pos (hiff.2 hrootless)]
    · rw [if_neg hrootless, if_neg fun h => hrootless (hiff.1 h), hview t, ht, hsame]
      rfl

end Rooted

/-- The pass always succeeds on a graph that is not frozen, and gives the base to every rootless
name, which gets no other parent. -/
theorem assignDefaultRoots_spec (wf : g.nodes.WellFormed) (hmutable : g.frozen = false) :
    ∃ g', g.assignDefaultRoots = .ok g' ∧ SameBesidesNodes g g' ∧ g'.nodes.WellFormed ∧
      g'.nodes.view.firsts = (g.nodes.view.rooted g.config).firsts ∧
      ∀ t, g.nodes.view.Rootless g.config t → g'.nodes.view.parents t = [g.config.base] := by
  by_cases hnone : g.rootless = []
  · -- the base is not even registered if nothing is rootless
    have hno : ¬ ∃ t, g.nodes.view.Rootless g.config t := by
      rw [exists_rootless_iff wf]
      exact fun h => h hnone
    refine ⟨g, ?_, ⟨rfl, rfl, rfl, rfl⟩, wf, ?_, fun t ht => absurd ⟨t, ht⟩ hno⟩
    · unfold assignDefaultRoots
      simp only [hnone, List.isEmpty_nil, if_true]
    · congr 1
      funext t
      unfold View.rooted
      cases hview : g.nodes.view t with
      | none => simp only [hno, and_false, if_false]
      | some e =>
        have he : e.isRootless g.config t ≠ true := fun he => hno ⟨t, e, hview, he⟩
        simp only [if_neg he]
  · have hsome := (exists_rootless_iff wf).2 hnone
    obtain ⟨wf₁, _, _, hold, _⟩ := intern_spec wf g.config.base
    have hrootless : ∀ i ∈ g.rootless, i < (g.intern g.config.base).1.nodes.size := by
      intro i hi
      obtain ⟨n, hn, _⟩ := mem_rootless.1 hi
      exact (hold i (Nodes.lt_size_of_getElem? hn)).1
    obtain ⟨hagree, hparents⟩ := foldl_addParents g.rootless (g.intern g.config.base).2
      (List.nodup_range.filter _) hrootless
    have hsame := rootedParents_spec wf hagree.core_name hparents
    have wf₂ := hagree.wellFormed wf₁ (rootedParents_closed wf hparents)
    refine ⟨_, ?_, (sameBesidesNodes_intern g g.config.base).trans
      (sameBesidesNodes_withNodes _ _), wf₂, ?_, ?_⟩
    · unfold assignDefaultRoots
      simp only [List.isEmpty_iff, hnone, if_false, fetch_of_mutable hmutable]
      rfl
    · rw [hagree.view_firsts wf₁ wf₂ _ fun i hi => by rw [hsame i hi], withParents_intern wf hsome]
    · exact fun t ht => view_parents_of_rootless wf hagree wf₂ hsame ht

/-! ## Inverse edges -/

theorem agreeOn_foldl {β γ : Type} {f : Node → β} {step : Nodes → γ → Nodes}
    (hstep : ∀ ns a, Nodes.AgreeOn f ns (step ns a)) (as : List γ) (ns : Nodes) :
    Nodes.AgreeOn f ns (as.foldl step ns) := by
  induction as generalizing ns with
  | nil => exact Nodes.AgreeOn.refl f ns
  | cons a as ih => exact (hstep ns a).trans (ih (step ns a))

section Inverses

variable {β : Type} {f : Node → β}
  (hf : ∀ (n : Node) children doers, f { n with children := children, doers := doers } = f n)

include hf

theorem agreeOn_invertOne (ns : Nodes) (i : Nat) : Nodes.AgreeOn f ns (invertOne ns i) := by
  unfold invertOne
  exact (agreeOn_foldl (fun ns p => Nodes.agreeOn_modify fun n => hf n _ _) _ _).trans
    (agreeOn_foldl (fun ns r => Nodes.agreeOn_modify fun n => hf n _ _) _ _)

/-- Filling in inverse edges keeps whatever does not look at them. -/
theorem agreeOn_buildInverses (g : Graph) : Nodes.AgreeOn f g.nodes g.buildInverses.nodes :=
  agreeOn_foldl (agreeOn_invertOne hf) _ _

end Inverses

/-- The pass is not seen by name. -/
theorem buildInverses_spec (wf : g.nodes.WellFormed) :
    SameBesidesNodes g g.buildInverses ∧ g.buildInverses.nodes.WellFormed ∧
      g.buildInverses.nodes.view = g.nodes.view := by
  have hcore := agreeOn_buildInverses (f := Nodes.core) (fun _ _ _ => rfl) g
  have hparents := (agreeOn_buildInverses (f := Node.parents) (fun _ _ _ => rfl) g).parents_eq
  have wf' : g.buildInverses.nodes.WellFormed :=
    hcore.wellFormed wf fun i => by rw [hparents]; exact wf.parents_closed i
  refine ⟨sameBesidesNodes_withNodes g _, wf', ?_⟩
  rw [← View.withParents_parents g.nodes.view, hcore.view_eq wf wf']
  refine View.withParents_congr fun t ht => ?_
  obtain ⟨i, hi, rfl⟩ := (Nodes.view_isSome_iff wf t).1 ht
  have hnames := Nodes.view_parents wf' (i := i) (hcore.size_eq ▸ hi)
  rw [hcore.core_name, hparents] at hnames
  rw [hnames, Nodes.view_parents wf hi]
  unfold Nodes.names
  rw [hcore.core_name]

/-! ## The whole build -/

theorem freeze_of_perm {is : List Nat} (hmutable : g.frozen = false)
    (h : is.Perm (List.range g.nodes.size)) :
    g.freeze is = .ok { g with sorted := is, frozen := true } := by
  have hlength : is.length = g.size := by
    rw [h.length_eq, List.length_range]
    rfl
  unfold freeze checkMutable
  rw [hmutable]
  show (if is.length = g.size then _ else _) = _
  rw [if_pos hlength]

/-- Declared roles that compose without a cycle can be unfolded by name. -/
theorem exists_unfolds_declared {ds : List Declaration} (h : Acyclic (declared ds).roles) :
    ∃ of, Unfolds (declared ds).roles of := by
  refine h.exists_unfolds (ds.map (·.name)).toFinset ?_
  intro t ht
  rw [List.mem_toFinset, List.mem_map]
  by_contra hno
  -- a name without a declaration has no roles
  have hnil : ds.filter (·.name == t) = [] :=
    filter_eq_nil_of_undeclared fun d hd hdt => hno ⟨d, hd, hdt⟩
  rw [roles_declared, hnil] at ht
  exact ht rfl

/-- Without any roles, every name unfolds to itself alone. -/
theorem unfolds_of_no_roles {ds : List Declaration} (h : ∀ d ∈ ds, d.roles = []) :
    Unfolds (declared ds).roles fun t => [t] := by
  intro t
  have hnil : (declared ds).roles t = [] := by
    rw [roles_declared, List.flatMap_eq_nil_iff]
    exact fun d hd => h d (List.mem_filter.1 hd).1
  rw [hnil]
  rfl

/-- Declared roles compose without a cycle if each of them ranks below what composes it. -/
theorem acyclic_of_declared_rank {ds : List Declaration} (rank : Text → Nat)
    (h : ∀ d ∈ ds, ∀ r ∈ d.roles, rank r < rank d.name) (t : Text) :
    ¬ Relation.TransGen (DeclaredEdge ds .composes) t t := by
  refine acyclic_roles_declared_iff.1 (acyclic_of_rank rank fun a r hr => ?_) t
  obtain ⟨d, hd, rfl, hrole⟩ := step_roles_declared_iff.1 hr
  exact h d hd r hrole

theorem acyclic_of_no_roles {ds : List Declaration} (h : ∀ d ∈ ds, d.roles = []) (t : Text) :
    ¬ Relation.TransGen (DeclaredEdge ds .composes) t t := by
  refine acyclic_of_declared_rank (fun _ => 0) (fun d hd r hr => ?_) t
  rw [h d hd] at hr
  cases hr

/-- Declarations whose roles compose without a cycle are ingested and flattened, and what is built
comes of the passes behind that. -/
theorem exists_flattened (ds : List Declaration) (c : Config) {of : Text → List Text}
    (h : Unfolds (declared ds).roles of) :
    ∃ g : Graph, SameBesidesNodes { config := c } g ∧ g.nodes.WellFormed ∧
      g.nodes.view.firsts = ((declared ds).flattened of).firsts ∧
      build ds c = some (g.assignDefaultRoots.bind fun g =>
        g.buildInverses.freeze g.buildInverses.order) := by
  obtain ⟨g₁, hingest, hframe₁, wf₁, hview₁⟩ := ingest_spec ds c
  have hacyclic : Acyclic g₁.nodes.roles :=
    (Nodes.acyclic_roles_iff wf₁ (by rw [hview₁])).2 h.acyclic
  obtain ⟨ofNodes, hunfold⟩ := exists_unfolds_roles hacyclic
  obtain ⟨g₂, hflatten, hframe₂, wf₂, hagree, hparents⟩ := flattenRoles_spec wf₁ hunfold
  have hview₂ := flattenRoles_view wf₁ wf₂ hunfold (by rw [hview₁]; exact h) hagree hparents
  refine ⟨g₂, hframe₁.trans hframe₂, wf₂, by rw [hview₂, hview₁], ?_⟩
  unfold build
  rw [hingest]
  show g₁.flattenRoles.map _ = _
  rw [hflatten]
  rfl

/-- Declarations whose roles compose without a cycle are built into a frozen graph. It shows what
they say, flattened along the roles and rooted, and lists every node in dependency order. A name
that is rooted has the base as its parent once. -/
theorem build_rooted (ds : List Declaration) (c : Config) {of : Text → List Text}
    (h : Unfolds (declared ds).roles of) :
    ∃ g, build ds c = some (.ok g) ∧ g.nodes.WellFormed ∧ g.config = c ∧ g.memo = {} ∧
      g.sorted = Order.sort g.nodes (List.range g.nodes.size) ∧
      g.nodes.view.firsts = (((declared ds).flattened of).rooted c).firsts ∧
      ∀ t, ((declared ds).flattened of).Rootless c t → g.nodes.view.parents t = [c.base] := by
  obtain ⟨g₂, hframe₂, wf₂, hview₂, hbuild⟩ := exists_flattened ds c h
  obtain ⟨g₃, hroots, hframe₃, wf₃, hview₃, hrootless⟩ := assignDefaultRoots_spec wf₂ hframe₂.frozen
  obtain ⟨hframe₄, wf₄, hview₄⟩ := buildInverses_spec wf₃
  have hframe := (hframe₂.trans hframe₃).trans hframe₄
  have hfreeze := freeze_of_perm hframe.frozen (Order.sort_range_perm wf₄)
  refine ⟨{ g₃.buildInverses with
    sorted := Order.sort g₃.buildInverses.nodes (List.range g₃.buildInverses.nodes.size)
    frozen := true }, ?_, wf₄, hframe.config, hframe.memo, rfl, ?_, ?_⟩
  · rw [hbuild, hroots]
    exact congrArg some hfreeze
  · show g₃.buildInverses.nodes.view.firsts = _
    rw [hview₄, hview₃, hframe₂.config]
    exact View.firsts_rooted_congr hview₂
  · intro t ht
    show g₃.buildInverses.nodes.view.parents t = _
    rw [hframe₂.config] at hrootless
    rw [hview₄]
    exact hrootless t ((View.rootless_congr hview₂ t).2 ht)

theorem build_spec (ds : List Declaration) (c : Config) {of : Text → List Text}
    (h : Unfolds (declared ds).roles of) :
    ∃ g, build ds c = some (.ok g) ∧ g.nodes.WellFormed ∧ g.config = c ∧ g.memo = {} ∧
      g.sorted = Order.sort g.nodes (List.range g.nodes.size) ∧
      g.nodes.view.firsts = (((declared ds).flattened of).rooted c).firsts := by
  obtain ⟨g, hbuild, wf, hconfig, hmemo, hsorted, hview, _⟩ := build_rooted ds c h
  exact ⟨g, hbuild, wf, hconfig, hmemo, hsorted, hview⟩

/-- The pass does nothing, or it registers the base and gives it to the rootless nodes. -/
theorem cases_of_assignDefaultRoots {g' : Graph} (h : g.assignDefaultRoots = .ok g') :
    g' = g ∨ g.frozen = false ∧ g' = { (g.intern g.config.base).1 with
      nodes := g.rootless.foldl (fun ns i => ns.addParents i [(g.intern g.config.base).2])
        (g.intern g.config.base).1.nodes } := by
  unfold assignDefaultRoots fetch checkMutable at h
  simp only at h
  split at h
  · cases h
    exact Or.inl rfl
  · cases hfrozen : g.frozen with
    | true =>
      rw [hfrozen] at h
      cases h
    | false =>
      rw [hfrozen] at h
      cases h
      exact Or.inr ⟨rfl, rfl⟩

theorem memo_of_assignDefaultRoots {g' : Graph} (h : g.assignDefaultRoots = .ok g') :
    g'.memo = g.memo := by
  rcases cases_of_assignDefaultRoots h with rfl | ⟨_, rfl⟩
  · rfl
  · exact (sameBesidesNodes_intern g g.config.base).memo

/-- A graph is frozen in an order with as many entries as it has nodes. -/
theorem freeze_eq_ok {g' : Graph} {is : List Nat} (h : g.freeze is = .ok g') :
    is.length = g.nodes.size ∧ g' = { g with sorted := is, frozen := true } := by
  unfold freeze checkMutable at h
  cases hfrozen : g.frozen with
  | true =>
    rw [hfrozen] at h
    cases h
  | false =>
    rw [hfrozen] at h
    change (if is.length = g.size then _ else _) = _ at h
    split at h
    · rename_i hlength
      cases h
      exact ⟨hlength, rfl⟩
    · cases h

/-- The graphs that a build passes through. -/
theorem passes_of_build {ds : List Declaration} (hg : build ds c = some (.ok g)) :
    ∃ g₁ g₂ g₃ : Graph, ({ config := c } : Graph).ingest ds = .ok g₁ ∧ g₁.flattenRoles = some g₂ ∧
      g₂.assignDefaultRoots = .ok g₃ ∧ g₃.buildInverses.freeze g₃.buildInverses.order = .ok g := by
  obtain ⟨g₁, hingest, _⟩ := ingest_spec ds c
  unfold build at hg
  rw [hingest] at hg
  obtain ⟨g₂, hflatten, hg⟩ := Option.map_eq_some_iff.1 hg
  cases hroots : g₂.assignDefaultRoots with
  | error e =>
    rw [hroots] at hg
    cases hg
  | ok g₃ =>
    rw [hroots] at hg
    exact ⟨g₁, g₂, g₃, hingest, hflatten, hroots, hg⟩

/-- A build ends with the freezing of a graph that has no linearization memoized. -/
theorem exists_freeze_of_build {ds : List Declaration} (hg : build ds c = some (.ok g)) :
    ∃ (g' : Graph) (is : List Nat), g'.memo = {} ∧
      g = { g' with sorted := is, frozen := true } := by
  obtain ⟨g₁, g₂, g₃, hingest, hflatten, hroots, hfreeze⟩ := passes_of_build hg
  obtain ⟨g₁', hingest', hframe, _, _⟩ := ingest_spec ds c
  obtain rfl := Except.ok.inj (hingest.symm.trans hingest')
  obtain ⟨ns, _, rfl⟩ := Option.map_eq_some_iff.1 hflatten
  have hmemo := (memo_of_assignDefaultRoots hroots).trans hframe.memo
  exact ⟨g₃.buildInverses, _, hmemo, (freeze_eq_ok hfreeze).2⟩

theorem memo_of_build {ds : List Declaration} (hg : build ds c = some (.ok g)) : g.memo = {} := by
  obtain ⟨g', is, hmemo, rfl⟩ := exists_freeze_of_build hg
  exact hmemo

theorem frozen_of_build {ds : List Declaration} (hg : build ds c = some (.ok g)) :
    g.frozen = true := by
  obtain ⟨g', is, _, rfl⟩ := exists_freeze_of_build hg
  rfl

end Graph

end Lineage
