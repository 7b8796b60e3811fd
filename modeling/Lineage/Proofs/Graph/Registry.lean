import Lineage.Graph.Basic
import Mathlib.Data.List.Nodup

/-!
# The registry by name

In a well-formed registry no two nodes share a name and every edge leads to a node. Such a registry
can be read by name: `Nodes.view` gives the kind, the categories, and the names of the parents and
of the roles of each name, whatever the indices are.

The building passes change the registry in two ways only, and this file says what either one does
to the view:

* a node is pushed behind the others (`view_push`, `view_intern`);
* a node is modified under its name (`view_modify`).
-/

namespace Lineage

/-- What a registry holds under a name, with names in place of indices. -/
structure Entry where
  kind : Kind := .ofClass
  categories : List Text := []
  parents : List Text := []
  roles : List Text := []
deriving DecidableEq, Repr

/-- What is known under each name. -/
abbrev View := Text → Option Entry

namespace Nodes

/-- No two nodes share a name, and every edge leads to a node. -/
structure WellFormed (ns : Nodes) : Prop where
  injective : ∀ i j, i < ns.size → j < ns.size → ns.name i = ns.name j → i = j
  closed : ∀ i, ∀ d ∈ ns.dependencies i, d < ns.size

/-- A node with names in place of indices. -/
def entry (ns : Nodes) (n : Node) : Entry :=
  { kind := n.kind, categories := n.categories
    parents := ns.names n.parents, roles := ns.names n.roles }

/-- What the registry holds under a name, if there is a node of that name. -/
def view (ns : Nodes) : View :=
  fun t => (ns.findIdx? (·.name == t)).bind fun i => ns[i]?.map ns.entry

variable {ns : Nodes} {i : Nat} {n : Node} {t : Text}

/-! ## Nodes by index -/

theorem name_of_getElem? (h : ns[i]? = some n) : ns.name i = n.name := by
  unfold name
  rw [h]

theorem parents_of_getElem? (h : ns[i]? = some n) : ns.parents i = n.parents := by
  unfold parents
  rw [h]

theorem roles_of_getElem? (h : ns[i]? = some n) : ns.roles i = n.roles := by
  unfold roles
  rw [h]

/-- The edges of a node are its parents and then its roles. -/
theorem dependencies_of_getElem? (h : ns[i]? = some n) :
    ns.dependencies i = n.parents ++ n.roles := by
  unfold dependencies
  rw [parents_of_getElem? h, roles_of_getElem? h]

theorem lt_size_of_getElem? (h : ns[i]? = some n) : i < ns.size := by
  obtain ⟨hi, _⟩ := Array.getElem?_eq_some_iff.1 h
  exact hi

/-- Below the size of the registry there is a node. -/
theorem exists_of_lt_size (h : i < ns.size) : ∃ n, ns[i]? = some n :=
  ⟨ns[i], Array.getElem?_eq_getElem h⟩

/-! An index beyond the array stands for no node, so what has edges is a node. -/

/-- What has a parent is a node. -/
theorem lt_size_of_parents_ne_nil (h : ns.parents i ≠ []) : i < ns.size :=
  Nat.lt_of_not_le fun hle => h (parents_of_size_le hle)

theorem lt_size_of_roles_ne_nil (h : ns.roles i ≠ []) : i < ns.size :=
  Nat.lt_of_not_le fun hle => h (roles_of_size_le hle)

/-- What has an edge is a node. -/
theorem lt_size_of_dependencies_ne_nil (h : ns.dependencies i ≠ []) : i < ns.size :=
  Nat.lt_of_not_le fun hle => h (dependencies_of_size_le hle)

/-- Parents are nodes of the registry. -/
theorem WellFormed.parents_closed (wf : ns.WellFormed) (i : Nat) :
    ∀ p ∈ ns.parents i, p < ns.size :=
  fun p hp => wf.closed i p (List.mem_append_left _ hp)

/-- Roles are nodes of the registry. -/
theorem WellFormed.roles_closed (wf : ns.WellFormed) (i : Nat) : ∀ r ∈ ns.roles i, r < ns.size :=
  fun r hr => wf.closed i r (List.mem_append_right _ hr)

/-! ## The view -/

/-- The only node of a name is found under it. -/
theorem findIdx?_eq_some_iff (wf : ns.WellFormed) :
    ns.findIdx? (·.name == t) = some i ↔ i < ns.size ∧ ns.name i = t := by
  have hname : ∀ {j : Nat} (h : j < ns.size), (ns[j].name == t) = true ↔ ns.name j = t := by
    intro j h
    rw [beq_iff_eq, name_of_getElem? (Array.getElem?_eq_getElem h)]
  rw [Array.findIdx?_eq_some_iff_getElem]
  constructor
  · rintro ⟨hi, ht, _⟩
    exact ⟨hi, (hname hi).1 ht⟩
  · rintro ⟨hi, ht⟩
    refine ⟨hi, (hname hi).2 ht, ?_⟩
    intro j hji hj
    -- an earlier node of that name would share it
    have hj' : ns.name j = t := (hname (Nat.lt_trans hji hi)).1 hj
    have heq := wf.injective j i (Nat.lt_trans hji hi) hi (hj'.trans ht.symm)
    omega

/-- Nothing is found under a name that no node bears. -/
theorem findIdx?_eq_none_iff : ns.findIdx? (·.name == t) = none ↔ ∀ i < ns.size, ns.name i ≠ t := by
  rw [Array.findIdx?_eq_none_iff]
  constructor
  · intro h i hi ht
    have hfalse := h ns[i] (Array.getElem_mem hi)
    rw [← name_of_getElem? (Array.getElem?_eq_getElem hi), ht, beq_self_eq_true] at hfalse
    cases hfalse
  · intro h n hn
    obtain ⟨i, hi, rfl⟩ := Array.mem_iff_getElem.1 hn
    rw [beq_eq_false_iff_ne, ← name_of_getElem? (Array.getElem?_eq_getElem hi)]
    exact h i hi

/-- Every node shows under its name. -/
theorem view_of_getElem? (wf : ns.WellFormed) (h : ns[i]? = some n) :
    ns.view n.name = some (ns.entry n) := by
  have hfind := (findIdx?_eq_some_iff wf).2 ⟨lt_size_of_getElem? h, name_of_getElem? h⟩
  unfold view
  rw [hfind, Option.bind_some, h, Option.map_some]

/-- Nothing shows under a name that no node bears. -/
theorem view_eq_none_iff : ns.view t = none ↔ ∀ i < ns.size, ns.name i ≠ t := by
  rw [← findIdx?_eq_none_iff]
  unfold view
  cases h : ns.findIdx? (·.name == t) with
  | none => simp
  | some i =>
    obtain ⟨hi, _⟩ := Array.findIdx?_eq_some_iff_getElem.1 h
    simp [hi]

/-- What shows under a name is the node that bears it. -/
theorem view_eq_some_iff (wf : ns.WellFormed) {e : Entry} :
    ns.view t = some e ↔ ∃ i n, ns[(i : Nat)]? = some n ∧ n.name = t ∧ ns.entry n = e := by
  constructor
  · intro h
    cases hfind : ns.findIdx? (·.name == t) with
    | none =>
      rw [view_eq_none_iff.2 (findIdx?_eq_none_iff.1 hfind)] at h
      cases h
    | some i =>
      obtain ⟨hi, ht⟩ := (findIdx?_eq_some_iff wf).1 hfind
      obtain ⟨n, hn⟩ := exists_of_lt_size hi
      rw [name_of_getElem? hn] at ht
      rw [← ht, view_of_getElem? wf hn] at h
      exact ⟨i, n, hn, ht, Option.some.inj h⟩
  · rintro ⟨i, n, hn, rfl, rfl⟩
    exact view_of_getElem? wf hn

/-! ## A new node -/

section Push

variable {s : Text}

theorem getElem?_push_of_lt (h : i < ns.size) : (ns.push n)[i]? = ns[i]? := by
  rw [Array.getElem?_push, if_neg (Nat.ne_of_lt h)]

/-- The nodes that are there keep their names behind a new one. -/
theorem name_push_of_lt (h : i < ns.size) : name (ns.push n) i = ns.name i := by
  unfold name
  rw [getElem?_push_of_lt h]

theorem name_push_size : name (ns.push { name := s }) ns.size = s := by
  unfold name
  rw [Array.getElem?_push_size]

/-- A new node brings no parent in. -/
theorem parents_push : parents (ns.push { name := s }) i = ns.parents i := by
  unfold parents
  by_cases h : i = ns.size
  · rw [h, Array.getElem?_push_size, Array.getElem?_eq_none (Nat.le_refl _)]
  · rw [Array.getElem?_push, if_neg h]

/-- A new node brings no role in. -/
theorem roles_push : roles (ns.push { name := s }) i = ns.roles i := by
  unfold roles
  by_cases h : i = ns.size
  · rw [h, Array.getElem?_push_size, Array.getElem?_eq_none (Nat.le_refl _)]
  · rw [Array.getElem?_push, if_neg h]

theorem names_push {is : List Nat} (h : ∀ i ∈ is, i < ns.size) :
    names (ns.push n) is = ns.names is :=
  List.map_congr_left fun i hi => name_push_of_lt (h i hi)

/-- A node of a new name keeps the registry well-formed. -/
theorem WellFormed.push (wf : ns.WellFormed) (hnew : ∀ i < ns.size, ns.name i ≠ s) :
    Nodes.WellFormed (ns.push { name := s }) := by
  constructor
  · intro i j hi hj heq
    rw [Array.size_push] at hi hj
    rcases Nat.lt_succ_iff_lt_or_eq.1 hi with hi | rfl
    · rw [name_push_of_lt hi] at heq
      rcases Nat.lt_succ_iff_lt_or_eq.1 hj with hj | rfl
      · rw [name_push_of_lt hj] at heq
        exact wf.injective i j hi hj heq
      · rw [name_push_size] at heq
        exact absurd heq (hnew i hi)
    · rcases Nat.lt_succ_iff_lt_or_eq.1 hj with hj | rfl
      · rw [name_push_size, name_push_of_lt hj] at heq
        exact absurd heq.symm (hnew j hj)
      · rfl
  · intro i d hd
    unfold dependencies at hd
    rw [parents_push, roles_push] at hd
    rw [Array.size_push]
    exact Nat.lt_succ_of_lt (wf.closed i d hd)

/-- A node shows as before when another one is pushed, because its edges lead to nodes that are
there. -/
theorem entry_push (wf : ns.WellFormed) (h : ns[i]? = some n) {n' : Node} :
    entry (ns.push n') n = ns.entry n := by
  unfold entry
  rw [← parents_of_getElem? h, ← roles_of_getElem? h, names_push (wf.parents_closed i),
    names_push (wf.roles_closed i)]

/-- A new node shows under its name as a class without any edges. -/
theorem view_push (wf : ns.WellFormed) (hnew : ∀ i < ns.size, ns.name i ≠ s) (t : Text) :
    view (ns.push { name := s }) t = if t = s then some {} else ns.view t := by
  have wf' := wf.push hnew
  split
  · rename_i h
    rw [h]
    exact view_of_getElem? wf' Array.getElem?_push_size
  · rename_i h
    cases hview : ns.view t with
    | none =>
      rw [view_eq_none_iff] at hview ⊢
      intro i hi
      rw [Array.size_push] at hi
      rcases Nat.lt_succ_iff_lt_or_eq.1 hi with hi | rfl
      · rw [name_push_of_lt hi]
        exact hview i hi
      · rw [name_push_size]
        exact Ne.symm h
    | some e =>
      obtain ⟨i, n, hn, ht, he⟩ := (view_eq_some_iff wf).1 hview
      refine (view_eq_some_iff wf').2 ⟨i, n, ?_, ht, ?_⟩
      · rw [getElem?_push_of_lt (lt_size_of_getElem? hn), hn]
      · rw [entry_push wf hn, he]

end Push

/-! ## A modified node -/

section Modify

variable {f : Node → Node} {j : Nat}

theorem getElem?_modify_self (h : ns[i]? = some n) : (ns.modify i f)[i]? = some (f n) := by
  rw [Array.getElem?_modify, if_pos rfl, h, Option.map_some]

theorem getElem?_modify_of_ne (h : i ≠ j) : (ns.modify i f)[j]? = ns[j]? := by
  rw [Array.getElem?_modify, if_neg h]

/-- Modifying a node under its name keeps all names. -/
theorem name_modify (hf : ∀ n, (f n).name = n.name) : name (ns.modify i f) = ns.name := by
  funext j
  unfold name
  by_cases h : i = j
  · rw [Array.getElem?_modify, if_pos h]
    cases ns[j]? with
    | none => rfl
    | some n => exact hf n
  · rw [getElem?_modify_of_ne h]

/-- Entries hold names, so they do not change while names do not. -/
theorem entry_modify (hf : ∀ n, (f n).name = n.name) : entry (ns.modify i f) = ns.entry := by
  funext n
  unfold entry names
  rw [name_modify hf]

/-- A modified node keeps the registry well-formed if it keeps its name and its edges lead to nodes.
-/
theorem WellFormed.modify (wf : ns.WellFormed) (hf : ∀ n, (f n).name = n.name)
    (hclosed : ∀ n, ns[i]? = some n → ∀ d ∈ (f n).parents ++ (f n).roles, d < ns.size) :
    Nodes.WellFormed (ns.modify i f) := by
  constructor
  · rw [Array.size_modify, name_modify hf]
    exact wf.injective
  · intro j d hd
    rw [Array.size_modify]
    by_cases hij : i = j
    · subst hij
      cases hn : ns[i]? with
      | none =>
        rw [dependencies_of_size_le] at hd
        · cases hd
        · rw [Array.size_modify]
          exact Array.getElem?_eq_none_iff.1 hn
      | some n =>
        have hn' := getElem?_modify_self (f := f) hn
        rw [dependencies_of_getElem? hn'] at hd
        exact hclosed n hn d hd
    · refine wf.closed j d ?_
      unfold dependencies parents roles at hd ⊢
      rw [getElem?_modify_of_ne hij] at hd
      exact hd

/-- A node that is modified under its name shows there as what it has become. -/
theorem view_modify (wf : ns.WellFormed) (hf : ∀ n, (f n).name = n.name)
    (wf' : Nodes.WellFormed (ns.modify i f)) (h : ns[i]? = some n) (t : Text) :
    view (ns.modify i f) t = if t = n.name then some (ns.entry (f n)) else ns.view t := by
  split
  · rename_i ht
    rw [ht, ← hf n, view_of_getElem? wf' (getElem?_modify_self h), entry_modify hf]
  · rename_i ht
    cases hview : ns.view t with
    | none =>
      rw [view_eq_none_iff] at hview ⊢
      rw [Array.size_modify, name_modify hf]
      exact hview
    | some e =>
      obtain ⟨j, m, hm, hmt, he⟩ := (view_eq_some_iff wf).1 hview
      have hij : i ≠ j := by
        rintro rfl
        rw [h] at hm
        cases hm
        exact ht hmt.symm
      refine (view_eq_some_iff wf').2 ⟨j, m, ?_, hmt, ?_⟩
      · rw [getElem?_modify_of_ne hij, hm]
      · rw [entry_modify hf, he]

end Modify

end Nodes

/-! ## The node of a name -/

namespace Graph

variable {g : Graph} {t : Text} {i : Nat}

/-- A graph finds the only node of a name. -/
theorem find?_eq_some_iff (wf : g.nodes.WellFormed) :
    g.find? t = some i ↔ i < g.nodes.size ∧ g.nodes.name i = t :=
  Nodes.findIdx?_eq_some_iff wf

/-- A graph finds nothing under a name that no node bears. -/
theorem find?_eq_none_iff : g.find? t = none ↔ ∀ i < g.nodes.size, g.nodes.name i ≠ t :=
  Nodes.findIdx?_eq_none_iff

/-- The names of a graph are those of its nodes. -/
theorem mem_names_iff : t ∈ g.names ↔ ∃ i < g.nodes.size, g.nodes.name i = t := by
  unfold names
  rw [List.mem_map]
  constructor
  · rintro ⟨n, hn, rfl⟩
    obtain ⟨i, hi, rfl⟩ := Array.mem_iff_getElem.1 (Array.mem_toList_iff.1 hn)
    exact ⟨i, hi, Nodes.name_of_getElem? (Array.getElem?_eq_getElem hi)⟩
  · rintro ⟨i, hi, rfl⟩
    refine ⟨g.nodes[i], Array.mem_toList_iff.2 (Array.getElem_mem hi), ?_⟩
    exact (Nodes.name_of_getElem? (Array.getElem?_eq_getElem hi)).symm

/-- No name is listed twice. -/
theorem nodup_names (wf : g.nodes.WellFormed) : g.names.Nodup := by
  have hnames : g.names = (List.range g.nodes.size).map g.nodes.name := by
    unfold names
    apply List.ext_getElem
    · simp
    · intro i hi hi'
      have hi : i < g.nodes.size := by simpa using hi
      rw [List.getElem_map, List.getElem_map, List.getElem_range, Array.getElem_toList]
      exact (Nodes.name_of_getElem? (Array.getElem?_eq_getElem hi)).symm
  rw [hnames]
  refine List.Nodup.map_on ?_ List.nodup_range
  intro i hi j hj
  exact wf.injective i j (List.mem_range.1 hi) (List.mem_range.1 hj)

/-- What interning a name does to the registry: the node returned bears the name, and a name that
is new shows as a class without any edges. -/
theorem intern_spec (wf : g.nodes.WellFormed) (t : Text) :
    (g.intern t).1.nodes.WellFormed ∧
      (g.intern t).2 < (g.intern t).1.nodes.size ∧
      (g.intern t).1.nodes.name (g.intern t).2 = t ∧
      (∀ i < g.nodes.size, i < (g.intern t).1.nodes.size ∧
        (g.intern t).1.nodes.name i = g.nodes.name i) ∧
      ∀ s, (g.intern t).1.nodes.view s =
        if s = t then some ((g.nodes.view s).getD {}) else g.nodes.view s := by
  unfold intern
  cases hfind : g.find? t with
  | some i =>
    obtain ⟨hi, ht⟩ := (find?_eq_some_iff wf).1 hfind
    refine ⟨wf, hi, ht, fun j hj => ⟨hj, rfl⟩, ?_⟩
    intro s
    show g.nodes.view s = if s = t then some ((g.nodes.view s).getD {}) else g.nodes.view s
    split
    · rename_i hs
      -- the name is known, so its entry stays
      cases hview : g.nodes.view s with
      | none => exact absurd (ht.trans hs.symm) (Nodes.view_eq_none_iff.1 hview i hi)
      | some e => rfl
    · rfl
  | none =>
    have hnew := find?_eq_none_iff.1 hfind
    refine ⟨wf.push hnew, ?_, Nodes.name_push_size, ?_, ?_⟩
    · show g.nodes.size < (g.nodes.push { name := t }).size
      rw [Array.size_push]
      exact Nat.lt_succ_self _
    · intro j hj
      refine ⟨?_, Nodes.name_push_of_lt hj⟩
      show j < (g.nodes.push { name := t }).size
      rw [Array.size_push]
      exact Nat.lt_succ_of_lt hj
    · intro s
      show Nodes.view (g.nodes.push { name := t }) s = _
      rw [Nodes.view_push wf hnew]
      split
      · rename_i hs
        rw [hs, Nodes.view_eq_none_iff.2 hnew]
        rfl
      · rfl

/-! ## Frames -/

/-- At most the registry differs between two graphs. -/
structure SameBesidesNodes (g h : Graph) : Prop where
  config : h.config = g.config
  memo : h.memo = g.memo
  sorted : h.sorted = g.sorted
  frozen : h.frozen = g.frozen

/-- What only changes the registry may be done twice. -/
theorem SameBesidesNodes.trans {g h k : Graph} (hgh : SameBesidesNodes g h)
    (hhk : SameBesidesNodes h k) : SameBesidesNodes g k :=
  ⟨hhk.config.trans hgh.config, hhk.memo.trans hgh.memo, hhk.sorted.trans hgh.sorted,
    hhk.frozen.trans hgh.frozen⟩

theorem sameBesidesNodes_withNodes (g : Graph) (ns : Nodes) :
    SameBesidesNodes g { g with nodes := ns } :=
  ⟨rfl, rfl, rfl, rfl⟩

/-- Interning a name changes nothing but the registry. -/
theorem sameBesidesNodes_intern (g : Graph) (t : Text) : SameBesidesNodes g (g.intern t).1 := by
  unfold intern
  cases g.find? t <;> exact ⟨rfl, rfl, rfl, rfl⟩

theorem sameBesidesNodes_modify (g : Graph) (i : Nat) (f : Node → Node) :
    SameBesidesNodes g (g.modify i f) :=
  sameBesidesNodes_withNodes g _

/-- Linearizing several nodes memoizes what is found, and changes nothing else. -/
theorem linearizeAll_eq (g : Graph) (is : List Nat) :
    ∃ memo, (g.linearizeAll is).1 = { g with memo } := by
  induction is generalizing g with
  | nil => exact ⟨g.memo, rfl⟩
  | cons i is ih =>
    obtain ⟨memo, hmemo⟩ := ih (g.linearize i).1
    exact ⟨memo, hmemo⟩

/-- Linearizing changes no node. -/
theorem nodes_linearizeAll (g : Graph) (is : List Nat) :
    (g.linearizeAll is).1.nodes = g.nodes := by
  obtain ⟨memo, hmemo⟩ := g.linearizeAll_eq is
  rw [hmemo]

end Graph

end Lineage
