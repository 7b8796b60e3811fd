import Lineage.Proofs.Graph.Flatten
import Lineage.Proofs.Graph.Intact

/-!
# Passes that only append

The passes that rewire the nodes append to the parents, the children and the doers of nodes and
change nothing else. So what one of them adds is never taken back by a later one: if several passes
together leave the nodes as they were, then so does each of them (`foldl_eq_self_iff`).

That is the rare case. Handing down the parents of roles changes nothing exactly if no role that
some type composes has a parent, and entering the inverse edges changes nothing exactly if no type
has a parent or a role.
-/

namespace Lineage

/-! ## Appending to a node -/

/-- The other node is the same one, perhaps with further parents, children and doers at the end. -/
structure Node.Extends (n n' : Node) : Prop where
  core : Nodes.core n' = Nodes.core n
  parents : n.parents <+: n'.parents
  children : n.children <+: n'.children
  doers : n.doers <+: n'.doers

namespace Node.Extends

variable {n n' n'' : Node}

theorem refl (n : Node) : n.Extends n :=
  ⟨rfl, List.prefix_refl _, List.prefix_refl _, List.prefix_refl _⟩

theorem trans (h : n.Extends n') (h' : n'.Extends n'') : n.Extends n'' :=
  ⟨h'.core.trans h.core, h.parents.trans h'.parents, h.children.trans h'.children,
    h.doers.trans h'.doers⟩

theorem antisymm (h : n.Extends n') (h' : n'.Extends n) : n' = n := by
  have hparents : n'.parents = n.parents := h'.parents.eq_of_length_le h.parents.length_le
  have hchildren : n'.children = n.children := h'.children.eq_of_length_le h.children.length_le
  have hdoers : n'.doers = n.doers := h'.doers.eq_of_length_le h.doers.length_le
  have hcore := h.core
  cases n
  cases n'
  simp only [Nodes.core, Node.mk.injEq] at hcore hparents hchildren hdoers ⊢
  tauto

end Node.Extends

namespace Nodes

variable {ns ns' ns'' : Nodes} {i : Nat}

/-- Each node is still there, perhaps with further edges. -/
structure Extends (ns ns' : Nodes) : Prop where
  size_eq : ns'.size = ns.size
  node : ∀ (i : Nat) n n', ns[i]? = some n → ns'[i]? = some n' → n.Extends n'

namespace Extends

theorem refl (ns : Nodes) : ns.Extends ns := by
  refine ⟨rfl, fun i n n' hn hn' => ?_⟩
  rw [Option.some.inj (hn'.symm.trans hn)]
  exact .refl n

theorem trans (h : ns.Extends ns') (h' : ns'.Extends ns'') : ns.Extends ns'' := by
  refine ⟨h'.size_eq.trans h.size_eq, fun i n n'' hn hn'' => ?_⟩
  obtain ⟨n', hn'⟩ := exists_of_lt_size (h.size_eq ▸ lt_size_of_getElem? hn)
  exact (h.node i n n' hn hn').trans (h'.node i n' n'' hn' hn'')

/-- What is added is not taken away again. -/
theorem antisymm (h : ns.Extends ns') (h' : ns'.Extends ns) : ns' = ns := by
  apply Array.ext_getElem?
  intro i
  by_cases hi : i < ns.size
  · obtain ⟨n, hn⟩ := exists_of_lt_size hi
    obtain ⟨n', hn'⟩ := exists_of_lt_size (h.size_eq ▸ hi)
    rw [hn, hn', (h.node i n n' hn hn').antisymm (h'.node i n' n hn' hn)]
  · rw [Array.getElem?_eq_none (Nat.le_of_not_lt hi),
      Array.getElem?_eq_none (h.size_eq ▸ Nat.le_of_not_lt hi)]

theorem agreeOn_core (h : ns.Extends ns') : AgreeOn core ns ns' := by
  intro i
  by_cases hi : i < ns.size
  · obtain ⟨n, hn⟩ := exists_of_lt_size hi
    obtain ⟨n', hn'⟩ := exists_of_lt_size (h.size_eq ▸ hi)
    rw [hn, hn', Option.map_some, Option.map_some, (h.node i n n' hn hn').core]
  · rw [Array.getElem?_eq_none (Nat.le_of_not_lt hi),
      Array.getElem?_eq_none (h.size_eq ▸ Nat.le_of_not_lt hi)]

end Extends

theorem extends_modify {f : Node → Node} (hf : ∀ n : Node, n.Extends (f n)) :
    Extends ns (ns.modify i f) := by
  refine ⟨Array.size_modify, fun j n n' hn hn' => ?_⟩
  by_cases hij : i = j
  · subst hij
    rw [getElem?_modify_self hn] at hn'
    cases hn'
    exact hf n
  · rw [getElem?_modify_of_ne hij] at hn'
    rw [Option.some.inj (hn'.symm.trans hn)]
    exact .refl n

theorem extends_addParents (ns : Nodes) (i : Nat) (more : List Nat) :
    ns.Extends (ns.addParents i more) :=
  extends_modify fun _ => ⟨rfl, List.prefix_append _ _, List.prefix_refl _, List.prefix_refl _⟩

theorem extends_addChild (ns : Nodes) (i child : Nat) : ns.Extends (ns.addChild i child) :=
  extends_modify fun _ => ⟨rfl, List.prefix_refl _, List.prefix_append _ _, List.prefix_refl _⟩

theorem extends_addDoer (ns : Nodes) (i doer : Nat) : ns.Extends (ns.addDoer i doer) :=
  extends_modify fun _ => ⟨rfl, List.prefix_refl _, List.prefix_refl _, List.prefix_append _ _⟩

section Fold

variable {γ : Type} {step : Nodes → γ → Nodes}

theorem extends_foldl (hstep : ∀ ns a, Extends ns (step ns a)) (as : List γ) (ns : Nodes) :
    ns.Extends (as.foldl step ns) :=
  List.foldlRecOn as step (Extends.refl ns) fun _ hns a _ => hns.trans (hstep _ a)

/-- Steps that only append leave the nodes as they were together only if each of them does. -/
theorem foldl_eq_self_iff (hstep : ∀ ns a, Extends ns (step ns a)) (as : List γ) :
    as.foldl step ns = ns ↔ ∀ a ∈ as, step ns a = ns := by
  induction as with
  | nil => simp
  | cons a as ih =>
    rw [List.foldl_cons, List.forall_mem_cons, ← ih]
    constructor
    · intro h
      have hback := extends_foldl hstep as (step ns a)
      rw [h] at hback
      have ha := (hstep ns a).antisymm hback
      rw [ha] at h
      exact ⟨ha, h⟩
    · rintro ⟨ha, h⟩
      rw [ha]
      exact h

end Fold

theorem modify_eq_self_iff {f : Node → Node} {n : Node} (hn : ns[i]? = some n) :
    ns.modify i f = ns ↔ f n = n := by
  constructor
  · intro h
    have hfn := getElem?_modify_self (f := f) hn
    rw [h, hn] at hfn
    exact (Option.some.inj hfn).symm
  · intro h
    apply Array.ext_getElem?
    intro j
    by_cases hij : i = j
    · subst hij
      rw [getElem?_modify_self hn, hn, h]
    · rw [getElem?_modify_of_ne hij]

theorem addParents_eq_self_iff {more : List Nat} (hi : i < ns.size) :
    ns.addParents i more = ns ↔ more = [] := by
  obtain ⟨n, hn⟩ := exists_of_lt_size hi
  unfold addParents
  rw [modify_eq_self_iff hn]
  constructor
  · intro h
    exact List.append_right_eq_self.1 (congrArg Node.parents h)
  · rintro rfl
    rw [List.append_nil]

theorem addChild_ne_self {child : Nat} (hi : i < ns.size) : ns.addChild i child ≠ ns := by
  obtain ⟨n, hn⟩ := exists_of_lt_size hi
  unfold addChild
  rw [Ne, modify_eq_self_iff hn]
  intro h
  exact List.cons_ne_nil _ _ (List.append_right_eq_self.1 (congrArg Node.children h))

theorem addDoer_ne_self {doer : Nat} (hi : i < ns.size) : ns.addDoer i doer ≠ ns := by
  obtain ⟨n, hn⟩ := exists_of_lt_size hi
  unfold addDoer
  rw [Ne, modify_eq_self_iff hn]
  intro h
  exact List.cons_ne_nil _ _ (List.append_right_eq_self.1 (congrArg Node.doers h))

/-! ## Passes that change nothing -/

/-- No role that some node composes has a parent. -/
def RolesParentless (ns : Nodes) : Prop :=
  ∀ i, ∀ r ∈ ns.roles i, ns.parents r = []

/-- No node has a parent or a role. -/
def Unlinked (ns : Nodes) : Prop :=
  ∀ i, ns.parents i = [] ∧ ns.roles i = []

end Nodes

namespace Graph

open Nodes

variable {ns ns' : Nodes} {of : Nat → List Nat} {i : Nat}

/-! ### Handing down parents -/

theorem extends_flattenOne (h : flattenOne ns i = some ns') : ns.Extends ns' := by
  obtain ⟨rs, _, rfl⟩ := Option.map_eq_some_iff.1 h
  exact extends_addParents _ _ _

theorem extends_flattenEach {is : List Nat} (h : flattenEach is ns = some ns') :
    ns.Extends ns' := by
  induction is generalizing ns with
  | nil =>
    cases h
    exact .refl _
  | cons i is ih =>
    obtain ⟨between, hone, hrest⟩ := Option.bind_eq_some_iff.1 h
    exact (extends_flattenOne hone).trans (ih hrest)

theorem flattenEach_eq_self_iff {is : List Nat} :
    flattenEach is ns = some ns ↔ ∀ i ∈ is, flattenOne ns i = some ns := by
  induction is with
  | nil => simp [flattenEach]
  | cons i is ih =>
    rw [List.forall_mem_cons, ← ih]
    constructor
    · intro h
      obtain ⟨between, hone, hrest⟩ := Option.bind_eq_some_iff.1 h
      obtain rfl := (extends_flattenOne hone).antisymm (extends_flattenEach hrest)
      exact ⟨hone, hrest⟩
    · rintro ⟨hone, hrest⟩
      exact Option.bind_eq_some_iff.2 ⟨ns, hone, hrest⟩

/-- One node is left as it is exactly if no role that it composes has a parent. -/
theorem flattenOne_eq_self_iff (h : Unfolds ns.roles of) (hi : i < ns.size) :
    flattenOne ns i = some ns ↔ ∀ r ∈ (ns.roles i).reverse.flatMap of, ns.parents r = [] := by
  unfold flattenOne
  rw [composed?_of_unfolds h, Option.map_some, Option.some_inj, addParents_eq_self_iff hi,
    List.flatMap_eq_nil_iff]

/-- The pass changes nothing exactly if there is nothing to hand down. -/
theorem flattenEach_range_eq_self_iff (h : Unfolds ns.roles of) :
    flattenEach (List.range ns.size) ns = some ns ↔ ns.RolesParentless := by
  rw [flattenEach_eq_self_iff]
  constructor
  · intro hone i r hr
    have hi : i < ns.size := lt_size_of_roles_ne_nil (List.ne_nil_of_mem hr)
    refine (flattenOne_eq_self_iff h hi).1 (hone i (List.mem_range.2 hi)) r ?_
    refine List.mem_flatMap.2 ⟨r, List.mem_reverse.2 hr, ?_⟩
    rw [h r]
    exact List.mem_cons_self
  · intro hnone i hi
    rw [flattenOne_eq_self_iff h (List.mem_range.1 hi)]
    intro q hq
    -- what a role unfolds to are that role and roles of others
    obtain ⟨r, hr, hq⟩ := List.mem_flatMap.1 hq
    exact h.closed (S := fun q => ns.parents q = []) (fun a _ b hb => hnone a b hb) r
      (hnone i r (List.mem_reverse.1 hr)) q hq

/-- The inverse edges of a node. -/
def inverses (n : Node) : List Nat × List Nat :=
  (n.children, n.doers)

theorem agreeOn_inverses_flattenEach {is : List Nat} (h : flattenEach is ns = some ns') :
    AgreeOn inverses ns ns' := by
  induction is generalizing ns with
  | nil =>
    cases h
    exact .refl _ _
  | cons i is ih =>
    obtain ⟨between, hone, hrest⟩ := Option.bind_eq_some_iff.1 h
    obtain ⟨rs, _, rfl⟩ := Option.map_eq_some_iff.1 hone
    have hfirst : AgreeOn inverses ns (ns.addParents i (rs.flatMap ns.parents)) :=
      agreeOn_modify fun _ => rfl
    exact hfirst.trans (ih hrest)

/-! ### Entering inverse edges -/

/-- Enters one node as a child of its parents. -/
def enterChild (ns : Nodes) (i : Nat) : Nodes :=
  (ns.parents i).foldl (fun ns p => ns.addChild p i) ns

/-- Enters one node as a doer of its roles. -/
def enterDoer (ns : Nodes) (i : Nat) : Nodes :=
  (ns.roles i).foldl (fun ns r => ns.addDoer r i) ns

theorem invertOne_eq (ns : Nodes) (i : Nat) : invertOne ns i = enterDoer (enterChild ns i) i :=
  rfl

theorem extends_enterChild (ns : Nodes) (i : Nat) : ns.Extends (enterChild ns i) :=
  extends_foldl (fun ns p => extends_addChild ns p i) _ _

theorem extends_enterDoer (ns : Nodes) (i : Nat) : ns.Extends (enterDoer ns i) :=
  extends_foldl (fun ns r => extends_addDoer ns r i) _ _

theorem extends_invertOne (ns : Nodes) (i : Nat) : ns.Extends (invertOne ns i) :=
  (extends_enterChild ns i).trans (extends_enterDoer _ i)

theorem enterChild_eq_self_iff (hns : ns.Intact) : enterChild ns i = ns ↔ ns.parents i = [] := by
  unfold enterChild
  rw [foldl_eq_self_iff fun ns p => extends_addChild ns p i, List.eq_nil_iff_forall_not_mem]
  constructor
  · intro h p hp
    exact addChild_ne_self (hns.wellFormed.parents_closed i p hp) (h p hp)
  · intro h p hp
    exact absurd hp (h p)

theorem enterDoer_eq_self_iff (hns : ns.Intact) : enterDoer ns i = ns ↔ ns.roles i = [] := by
  unfold enterDoer
  rw [foldl_eq_self_iff fun ns r => extends_addDoer ns r i, List.eq_nil_iff_forall_not_mem]
  constructor
  · intro h r hr
    exact addDoer_ne_self (hns.wellFormed.roles_closed i r hr) (h r hr)
  · intro h r hr
    exact absurd hr (h r)

theorem invertOne_eq_self_iff (hns : ns.Intact) :
    invertOne ns i = ns ↔ ns.parents i = [] ∧ ns.roles i = [] := by
  rw [← enterChild_eq_self_iff hns, ← enterDoer_eq_self_iff hns, invertOne_eq]
  constructor
  · intro h
    have hback := extends_enterDoer (enterChild ns i) i
    rw [h] at hback
    have hchild := (extends_enterChild ns i).antisymm hback
    rw [hchild] at h
    exact ⟨hchild, h⟩
  · rintro ⟨hchild, hdoer⟩
    rw [hchild, hdoer]

/-- The pass changes nothing exactly if there is no edge to invert. -/
theorem foldl_invertOne_eq_self_iff (hns : ns.Intact) :
    (List.range ns.size).foldl invertOne ns = ns ↔ ns.Unlinked := by
  rw [foldl_eq_self_iff extends_invertOne]
  constructor
  · intro h i
    by_cases hi : i < ns.size
    · exact (invertOne_eq_self_iff hns).1 (h i (List.mem_range.2 hi))
    · exact ⟨parents_of_size_le (Nat.le_of_not_lt hi), roles_of_size_le (Nat.le_of_not_lt hi)⟩
  · intro h i _
    exact (invertOne_eq_self_iff hns).2 (h i)

end Graph

end Lineage
