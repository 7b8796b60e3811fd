import Lineage.Proofs.Graph.Registry
import Lineage.Proofs.Successors

/-!
# Registries up to repeated parents

Building a graph may repeat parents, and how often depends on the order in which the names are
met. What does not depend on it is the view with the repeats erased, `View.firsts`. Two registries
that agree in it show the same structure by name: each is renamed by its names to the same graph
up to repeats (`Nodes.renaming_parents`, `Nodes.renaming_dependencies`).
-/

namespace Lineage

/-- The entry without repeated parents. -/
def Entry.firsts (e : Entry) : Entry :=
  { e with parents := e.parents.eraseDups }

namespace View

/-- The view without repeated parents. -/
def firsts (v : View) : View :=
  fun t => (v t).map Entry.firsts

/-- The names of the parents of a name. -/
def parents (v : View) (t : Text) : List Text :=
  ((v t).map (·.parents)).getD []

/-- The names of the roles of a name. -/
def roles (v : View) (t : Text) : List Text :=
  ((v t).map (·.roles)).getD []

/-- The view with other parents. -/
def withParents (v : View) (parents : Text → List Text) : View :=
  fun t => (v t).map fun e => { e with parents := parents t }

/-- The names that a name depends on: its parents, then its roles. -/
def dependencies (v : View) (t : Text) : List Text :=
  v.parents t ++ v.roles t

variable {v w : View}

theorem parents_firsts (v : View) (t : Text) : v.firsts.parents t = (v.parents t).eraseDups := by
  unfold parents firsts
  cases v t <;> rfl

theorem roles_firsts (v : View) (t : Text) : v.firsts.roles t = v.roles t := by
  unfold roles firsts
  cases v t <;> rfl

theorem sameFirsts_parents (h : v.firsts = w.firsts) (t : Text) :
    SameFirsts (v.parents t) (w.parents t) := by
  show (v.parents t).eraseDups = (w.parents t).eraseDups
  rw [← parents_firsts, ← parents_firsts, h]

theorem roles_eq (h : v.firsts = w.firsts) (t : Text) : v.roles t = w.roles t := by
  rw [← roles_firsts, ← roles_firsts w, h]

theorem withParents_parents (v : View) : v.withParents v.parents = v := by
  funext t
  unfold withParents parents
  cases v t <;> rfl

/-- Only the parents of the names that are known are seen. -/
theorem withParents_congr {p q : Text → List Text} (h : ∀ t, (v t).isSome = true → p t = q t) :
    v.withParents p = v.withParents q := by
  funext t
  have ht := h t
  unfold withParents
  cases hv : v t with
  | none => rfl
  | some e =>
    rw [hv] at ht
    rw [Option.map_some, Option.map_some, ht rfl]

theorem firsts_withParents_congr {p q : Text → List Text}
    (h : ∀ t, (v t).isSome = true → SameFirsts (p t) (q t)) :
    (v.withParents p).firsts = (v.withParents q).firsts := by
  have hfirsts : ∀ p : Text → List Text,
      (v.withParents p).firsts = v.withParents fun t => (p t).eraseDups := by
    intro p
    funext t
    unfold firsts withParents
    rw [Option.map_map]
    rfl
  rw [hfirsts p, hfirsts q]
  exact withParents_congr h

theorem isSome_eq (h : v.firsts = w.firsts) (t : Text) : (v t).isSome = (w t).isSome := by
  have ht := congrArg Option.isSome (congrFun h t)
  unfold firsts at ht
  rwa [Option.isSome_map, Option.isSome_map] at ht

end View

namespace Nodes

variable {ns ns' : Nodes} {i : Nat}

/-! ## Nodes as names -/

theorem view_name (wf : ns.WellFormed) (hi : i < ns.size) :
    ∃ e, ns.view (ns.name i) = some e ∧ e.parents = ns.names (ns.parents i) ∧
      e.roles = ns.names (ns.roles i) := by
  obtain ⟨n, hn⟩ := exists_of_lt_size hi
  refine ⟨ns.entry n, ?_, ?_, ?_⟩
  · rw [name_of_getElem? hn, view_of_getElem? wf hn]
  · rw [parents_of_getElem? hn]
    rfl
  · rw [roles_of_getElem? hn]
    rfl

theorem view_parents (wf : ns.WellFormed) (hi : i < ns.size) :
    ns.view.parents (ns.name i) = ns.names (ns.parents i) := by
  obtain ⟨e, he, hparents, _⟩ := view_name wf hi
  unfold View.parents
  rw [he, ← hparents]
  rfl

theorem view_roles (wf : ns.WellFormed) (hi : i < ns.size) :
    ns.view.roles (ns.name i) = ns.names (ns.roles i) := by
  obtain ⟨e, he, _, hroles⟩ := view_name wf hi
  unfold View.roles
  rw [he, ← hroles]
  rfl

variable {w : View}

/-- The nodes with their parents are renamed by their names. -/
theorem renaming_parents (wf : ns.WellFormed) (h : ns.view.firsts = w.firsts) :
    Renaming ns.parents w.parents ns.name (· < ns.size) := by
  refine ⟨fun i _ => wf.parents_closed i, fun i j hi hj => wf.injective i j hi hj, ?_⟩
  intro i hi
  have hparents := View.sameFirsts_parents h (ns.name i)
  rw [view_parents wf hi] at hparents
  exact hparents.symm

theorem renaming_roles (wf : ns.WellFormed) (h : ns.view.firsts = w.firsts) :
    Renaming ns.roles w.roles ns.name (· < ns.size) := by
  refine ⟨fun i _ => wf.roles_closed i, fun i j hi hj => wf.injective i j hi hj, ?_⟩
  intro i hi
  rw [← View.roles_eq h, view_roles wf hi]
  exact .refl _

/-- The nodes with all they depend on are renamed by their names. -/
theorem renaming_dependencies (wf : ns.WellFormed) (h : ns.view.firsts = w.firsts) :
    Renaming ns.dependencies w.dependencies ns.name (· < ns.size) :=
  (renaming_parents wf h).append (renaming_roles wf h)

theorem view_isSome_iff (wf : ns.WellFormed) (t : Text) :
    (ns.view t).isSome = true ↔ ∃ i < ns.size, ns.name i = t := by
  rw [Option.isSome_iff_exists]
  constructor
  · rintro ⟨e, he⟩
    obtain ⟨i, n, hn, ht, _⟩ := (view_eq_some_iff wf).1 he
    exact ⟨i, lt_size_of_getElem? hn, (name_of_getElem? hn).trans ht⟩
  · rintro ⟨i, hi, rfl⟩
    obtain ⟨e, he, _⟩ := view_name wf hi
    exact ⟨e, he⟩

/-- A name that has parents or roles is that of a node. -/
theorem exists_of_dependencies_ne_nil (wf : ns.WellFormed) (h : ns.view.firsts = w.firsts)
    {t : Text} (ht : w.dependencies t ≠ []) : ∃ i, i < ns.size ∧ ns.name i = t := by
  have hknown : (w t).isSome = true := by
    cases hw : w t with
    | none =>
      unfold View.dependencies View.parents View.roles at ht
      rw [hw] at ht
      exact absurd rfl ht
    | some e => rfl
  rw [← View.isSome_eq h, view_isSome_iff wf] at hknown
  exact hknown

/-- The parents of the nodes have no cycle exactly if those of the names have none. -/
theorem acyclic_parents_iff (wf : ns.WellFormed) (h : ns.view.firsts = w.firsts) :
    Acyclic ns.parents ↔ Acyclic w.parents := by
  refine (renaming_parents wf h).acyclic_iff (fun i => lt_size_of_parents_ne_nil) ?_
  intro t ht
  refine exists_of_dependencies_ne_nil wf h fun hnil => ht ?_
  exact (List.append_eq_nil_iff.1 hnil).1

theorem acyclic_roles_iff (wf : ns.WellFormed) (h : ns.view.firsts = w.firsts) :
    Acyclic ns.roles ↔ Acyclic w.roles := by
  refine (renaming_roles wf h).acyclic_iff (fun i => lt_size_of_roles_ne_nil) ?_
  intro t ht
  refine exists_of_dependencies_ne_nil wf h fun hnil => ht ?_
  exact (List.append_eq_nil_iff.1 hnil).2

/-- The nodes depend on each other in a cycle exactly if their names do. -/
theorem acyclic_dependencies_iff (wf : ns.WellFormed) (h : ns.view.firsts = w.firsts) :
    Acyclic ns.dependencies ↔ Acyclic w.dependencies :=
  (renaming_dependencies wf h).acyclic_iff (fun _ => lt_size_of_dependencies_ne_nil)
    fun _ => exists_of_dependencies_ne_nil wf h

/-! ## Nodes that keep a part of themselves -/

section AgreeOn

variable {β γ : Type} {f : Node → β}

/-- The nodes of two registries agree in what `f` sees of them. -/
def AgreeOn (f : Node → β) (ns ns' : Nodes) : Prop :=
  ∀ i : Nat, ns'[i]?.map f = ns[i]?.map f

theorem AgreeOn.refl (f : Node → β) (ns : Nodes) : AgreeOn f ns ns :=
  fun _ => rfl

theorem AgreeOn.trans {ns'' : Nodes} (h : AgreeOn f ns ns') (h' : AgreeOn f ns' ns'') :
    AgreeOn f ns ns'' :=
  fun i => (h' i).trans (h i)

theorem agreeOn_modify {m : Node → Node} (h : ∀ n, f (m n) = f n) :
    AgreeOn f ns (ns.modify i m) := by
  intro j
  rw [Array.getElem?_modify]
  split
  · rw [Option.map_map]
    congr 1
    funext n
    exact h n
  · rfl

theorem AgreeOn.size_eq (h : AgreeOn f ns ns') : ns'.size = ns.size := by
  have hle : ∀ i : Nat, ns'.size ≤ i ↔ ns.size ≤ i := by
    intro i
    have hi : ns'[i]?.map f = none ↔ ns[i]?.map f = none := by rw [h i]
    rwa [Option.map_eq_none_iff, Option.map_eq_none_iff, Array.getElem?_eq_none_iff,
      Array.getElem?_eq_none_iff] at hi
  exact Nat.le_antisymm ((hle ns.size).2 (Nat.le_refl _)) ((hle ns'.size).1 (Nat.le_refl _))

/-- The node at the place of another one that keeps the same part of itself. -/
theorem AgreeOn.getElem? (h : AgreeOn f ns ns') {n' : Node} (hn' : ns'[i]? = some n') :
    ∃ n, ns[i]? = some n ∧ f n' = f n := by
  have hi := h i
  rw [hn', Option.map_some] at hi
  obtain ⟨n, hn, hf⟩ := Option.map_eq_some_iff.1 hi.symm
  exact ⟨n, hn, hf.symm⟩

theorem AgreeOn.symm (h : AgreeOn f ns ns') : AgreeOn f ns' ns :=
  fun i => (h i).symm

/-- Whatever can be told from the part that is kept is kept as well. -/
theorem AgreeOn.of_keeps {p : Node → γ} (h : AgreeOn f ns ns')
    (hp : ∀ n n', f n = f n' → p n = p n') : AgreeOn p ns ns' := by
  intro i
  cases hn' : ns'[i]? with
  | none =>
    have hi := h i
    rw [hn', Option.map_none] at hi
    rw [Option.map_eq_none_iff.1 hi.symm]
  | some n' =>
    obtain ⟨n, hn, hf⟩ := h.getElem? hn'
    rw [hn, Option.map_some, Option.map_some, hp n' n hf]

theorem name_eq_getD (ns : Nodes) (i : Nat) :
    ns.name i = (ns[i]?.map (·.name)).getD ("" : Text) := by
  unfold name
  cases ns[i]? <;> rfl

theorem roles_eq_getD (ns : Nodes) (i : Nat) : ns.roles i = (ns[i]?.map (·.roles)).getD [] := by
  unfold roles
  cases ns[i]? <;> rfl

theorem parents_eq_getD (ns : Nodes) (i : Nat) :
    ns.parents i = (ns[i]?.map (·.parents)).getD [] := by
  unfold parents
  cases ns[i]? <;> rfl

theorem AgreeOn.name_eq (h : AgreeOn (·.name) ns ns') : ns'.name = ns.name := by
  funext i
  rw [name_eq_getD, name_eq_getD, h i]

theorem AgreeOn.roles_eq (h : AgreeOn (·.roles) ns ns') : ns'.roles = ns.roles := by
  funext i
  rw [roles_eq_getD, roles_eq_getD, h i]

theorem AgreeOn.parents_eq (h : AgreeOn (·.parents) ns ns') : ns'.parents = ns.parents := by
  funext i
  rw [parents_eq_getD, parents_eq_getD, h i]

/-- What a node keeps while its parents are completed and its inverse edges are filled in. -/
def core (n : Node) : Node :=
  { n with parents := [], children := [], doers := [] }

theorem AgreeOn.core_name (h : AgreeOn core ns ns') : ns'.name = ns.name :=
  (h.of_keeps fun _ _ hn => congrArg Node.name hn).name_eq

theorem AgreeOn.core_roles (h : AgreeOn core ns ns') : ns'.roles = ns.roles :=
  (h.of_keeps fun _ _ hn => congrArg Node.roles hn).roles_eq

/-- Nodes that keep their core stay in a well-formed registry as long as their parents exist. -/
theorem AgreeOn.wellFormed (h : AgreeOn core ns ns') (wf : ns.WellFormed)
    (hparents : ∀ i, ∀ p ∈ ns'.parents i, p < ns.size) : ns'.WellFormed := by
  constructor
  · rw [h.size_eq, h.core_name]
    exact wf.injective
  · intro i d hd
    rw [h.size_eq]
    rcases List.mem_append.1 hd with hd | hd
    · exact hparents i d hd
    · rw [h.core_roles] at hd
      exact wf.roles_closed i d hd

/-- If the nodes keep their core, the view changes in the parents alone. -/
theorem AgreeOn.view_eq (h : AgreeOn core ns ns') (wf : ns.WellFormed) (wf' : ns'.WellFormed) :
    ns'.view = ns.view.withParents ns'.view.parents := by
  funext t
  unfold View.withParents
  cases hview : ns.view t with
  | none =>
    have hview' : ns'.view t = none := by
      rw [view_eq_none_iff] at hview ⊢
      rw [h.size_eq, h.core_name]
      exact hview
    rw [hview']
    rfl
  | some e =>
    obtain ⟨i, n, hn, rfl, rfl⟩ := (view_eq_some_iff wf).1 hview
    obtain ⟨n', hn', hcore⟩ := h.symm.getElem? hn
    have hname : n'.name = n.name := (congrArg Node.name hcore).symm
    have hkind : n'.kind = n.kind := (congrArg Node.kind hcore).symm
    have hcategories : n'.categories = n.categories := (congrArg Node.categories hcore).symm
    have hroles : n'.roles = n.roles := (congrArg Node.roles hcore).symm
    have hview' := view_of_getElem? wf' hn'
    rw [hname] at hview'
    have hparents : ns'.view.parents n.name = (ns'.entry n').parents := by
      unfold View.parents
      rw [hview']
      rfl
    rw [hview', Option.map_some, hparents]
    unfold entry names
    rw [hkind, hcategories, hroles, h.core_name]

theorem AgreeOn.view_firsts (h : AgreeOn core ns ns') (wf : ns.WellFormed) (wf' : ns'.WellFormed)
    (parents' : Text → List Text)
    (hparents : ∀ i < ns.size, SameFirsts (ns'.names (ns'.parents i)) (parents' (ns.name i))) :
    ns'.view.firsts = (ns.view.withParents parents').firsts := by
  rw [h.view_eq wf wf']
  refine View.firsts_withParents_congr fun t ht => ?_
  obtain ⟨i, hi, rfl⟩ := (view_isSome_iff wf t).1 ht
  have hview' := view_parents wf' (i := i) (h.size_eq ▸ hi)
  rw [h.core_name] at hview'
  rw [hview']
  exact hparents i hi

end AgreeOn

end Nodes

end Lineage
