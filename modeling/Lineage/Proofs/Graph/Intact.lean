import Lineage.Proofs.Graph.Build

/-!
# Registries that stay intact

In an intact registry no two nodes share a name and every edge leads to a node, also the inverse
edges. The building passes keep a registry intact in whatever order they are run and however often,
whether or not the edges form cycles. They never take a node away, and those that only rewire the
nodes do not add any either.
-/

namespace Lineage

/-- All nodes that a node is linked to, in either direction. -/
def Node.neighbours (n : Node) : List Nat :=
  n.parents ++ n.roles ++ n.children ++ n.doers

/-- A change of a node that keeps its name and adds no edges but to the `new` nodes. -/
structure AddsEdges (new : List Nat) (f : Node → Node) : Prop where
  name : ∀ n, (f n).name = n.name
  neighbours : ∀ n, ∀ d ∈ (f n).neighbours, d ∈ n.neighbours ∨ d ∈ new

section AddsEdges

variable {f : Node → Node} {new : List Nat}

/-- It is enough to look at the lists of edges one by one. -/
theorem AddsEdges.of_fields (hname : ∀ n, (f n).name = n.name)
    (hparents : ∀ n, (f n).parents ⊆ n.parents ++ new) (hroles : ∀ n, (f n).roles ⊆ n.roles ++ new)
    (hchildren : ∀ n, (f n).children ⊆ n.children ++ new)
    (hdoers : ∀ n, (f n).doers ⊆ n.doers ++ new) : AddsEdges new f := by
  refine ⟨hname, ?_⟩
  intro n d hd
  have hp := @hparents n d
  have hr := @hroles n d
  have hc := @hchildren n d
  have ho := @hdoers n d
  simp only [Node.neighbours, List.mem_append] at hd hp hr hc ho ⊢
  tauto

theorem addsEdges_nil (hname : ∀ n, (f n).name = n.name)
    (hsame : ∀ n, (f n).neighbours = n.neighbours) : AddsEdges [] f :=
  ⟨hname, fun n _ hd => Or.inl (hsame n ▸ hd)⟩

theorem addsEdges_parents (new : List Nat) :
    AddsEdges new fun n => { n with parents := n.parents ++ new } :=
  .of_fields (fun _ => rfl) (fun _ => List.Subset.refl _) (fun _ => List.subset_append_left _ _)
    (fun _ => List.subset_append_left _ _) fun _ => List.subset_append_left _ _

theorem addsEdges_roles (new : List Nat) :
    AddsEdges new fun n => { n with roles := n.roles ++ new } :=
  .of_fields (fun _ => rfl) (fun _ => List.subset_append_left _ _) (fun _ => List.Subset.refl _)
    (fun _ => List.subset_append_left _ _) fun _ => List.subset_append_left _ _

theorem addsEdges_children (new : List Nat) :
    AddsEdges new fun n => { n with children := n.children ++ new } :=
  .of_fields (fun _ => rfl) (fun _ => List.subset_append_left _ _)
    (fun _ => List.subset_append_left _ _) (fun _ => List.Subset.refl _)
    fun _ => List.subset_append_left _ _

theorem addsEdges_doers (new : List Nat) :
    AddsEdges new fun n => { n with doers := n.doers ++ new } :=
  .of_fields (fun _ => rfl) (fun _ => List.subset_append_left _ _)
    (fun _ => List.subset_append_left _ _) (fun _ => List.subset_append_left _ _)
    fun _ => List.Subset.refl _

end AddsEdges

namespace Nodes

/-- No two nodes share a name, and every edge in either direction leads to a node. -/
structure Intact (ns : Nodes) : Prop where
  injective : ∀ i j, i < ns.size → j < ns.size → ns.name i = ns.name j → i = j
  closed : ∀ (i : Nat) n, ns[i]? = some n → ∀ d ∈ n.neighbours, d < ns.size

variable {ns ns' : Nodes} {i : Nat} {f : Node → Node} {new : List Nat}

theorem Intact.wellFormed (h : ns.Intact) : ns.WellFormed := by
  refine ⟨h.injective, ?_⟩
  intro i d hd
  obtain ⟨n, hn⟩ := exists_of_lt_size (lt_size_of_dependencies_ne_nil (List.ne_nil_of_mem hd))
  rw [dependencies_of_getElem? hn] at hd
  exact h.closed i n hn d (List.mem_append_left _ (List.mem_append_left _ hd))

theorem Intact.push (h : ns.Intact) {s : Text} (hnew : ∀ i < ns.size, ns.name i ≠ s) :
    Nodes.Intact (ns.push { name := s }) := by
  refine ⟨(h.wellFormed.push hnew).injective, ?_⟩
  intro i n hn d hd
  rw [Array.size_push]
  rw [Array.getElem?_push] at hn
  split at hn
  · -- the new node has no edges
    cases hn
    cases hd
  · exact Nat.lt_succ_of_lt (h.closed i n hn d hd)

theorem Intact.modify (h : ns.Intact) (hf : AddsEdges new f) (hnew : ∀ p ∈ new, p < ns.size) :
    Nodes.Intact (ns.modify i f) := by
  constructor
  · rw [Array.size_modify, name_modify hf.name]
    exact h.injective
  · intro j n hn d hd
    rw [Array.size_modify]
    by_cases hij : i = j
    · rw [Array.getElem?_modify, if_pos hij] at hn
      obtain ⟨m, hm, rfl⟩ := Option.map_eq_some_iff.1 hn
      rcases hf.neighbours m d hd with hd | hd
      · exact h.closed j m hm d hd
      · exact hnew d hd
    · rw [getElem?_modify_of_ne hij] at hn
      exact h.closed j n hn d hd

/-! ## Rewired nodes -/

/-- The nodes are rewired: the registry stays intact, with as many nodes. -/
structure Rewired (ns ns' : Nodes) : Prop where
  intact : ns'.Intact
  size_eq : ns'.size = ns.size

theorem Rewired.refl (h : ns.Intact) : Rewired ns ns :=
  ⟨h, rfl⟩

theorem Rewired.trans {ns'' : Nodes} (h : Rewired ns ns') (h' : Rewired ns' ns'') :
    Rewired ns ns'' :=
  ⟨h'.intact, h'.size_eq.trans h.size_eq⟩

theorem Intact.rewired_modify (h : ns.Intact) (hf : AddsEdges new f)
    (hnew : ∀ p ∈ new, p < ns.size) : Rewired ns (ns.modify i f) :=
  ⟨h.modify hf hnew, Array.size_modify⟩

/-- A node that exists may be linked to. -/
theorem Intact.rewired_link (h : ns.Intact) {p : Nat} (hf : AddsEdges [p] f) (hp : p < ns.size) :
    Rewired ns (ns.modify i f) := by
  refine h.rewired_modify hf ?_
  intro q hq
  rw [List.mem_singleton.1 hq]
  exact hp

/-- Rewiring may be repeated. -/
theorem Rewired.foldl {γ : Type} {step : Nodes → γ → Nodes} (as : List γ) (h : ns.Intact)
    (hstep : ∀ ns', Rewired ns ns' → ∀ a ∈ as, Rewired ns' (step ns' a)) :
    Rewired ns (as.foldl step ns) :=
  List.foldlRecOn as step (Rewired.refl h) fun _ hns' a ha => hns'.trans (hstep _ hns' a ha)

end Nodes

namespace Graph

open Nodes

variable {g h k : Graph} {ns ns' : Nodes} {i : Nat} {link : Node → Nat → Node}

/-- Flattening rewires the nodes, whatever the roles are. -/
theorem rewired_flattenEach (is : List Nat) (hns : ns.Intact) (h : flattenEach is ns = some ns') :
    Rewired ns ns' := by
  induction is generalizing ns with
  | nil =>
    cases h
    exact Rewired.refl hns
  | cons i is ih =>
    obtain ⟨between, hone, hrest⟩ := Option.bind_eq_some_iff.1 h
    obtain ⟨rs, _, rfl⟩ := Option.map_eq_some_iff.1 hone
    have hrewired : Rewired ns (ns.addParents i (rs.flatMap ns.parents)) := by
      refine hns.rewired_modify (addsEdges_parents _) ?_
      intro p hp
      obtain ⟨r, _, hp⟩ := List.mem_flatMap.1 hp
      exact hns.wellFormed.parents_closed r p hp
    exact hrewired.trans (ih hrewired.intact hrest)

/-- Entering a node in the inverse edges rewires the nodes. -/
theorem rewired_invertOne (hns : ns.Intact) (hi : i < ns.size) : Rewired ns (invertOne ns i) := by
  have hchildren : Rewired ns ((ns.parents i).foldl (fun ns p => ns.addChild p i) ns) :=
    Rewired.foldl _ hns fun ns' hns' p _ =>
      hns'.intact.rewired_link (addsEdges_children [i]) (hns'.size_eq ▸ hi)
  refine hchildren.trans (Rewired.foldl _ hchildren.intact fun ns' hns' r _ => ?_)
  refine hns'.intact.rewired_link (addsEdges_doers [i]) ?_
  rw [hns'.size_eq, hchildren.size_eq]
  exact hi

theorem rewired_buildInverses (hg : g.nodes.Intact) : Rewired g.nodes g.buildInverses.nodes := by
  refine Rewired.foldl _ hg ?_
  intro ns' hns' i hi
  refine rewired_invertOne hns'.intact ?_
  rw [hns'.size_eq]
  exact List.mem_range.1 hi

/-! ## Grown registries -/

/-- The registry has grown: it is intact and has at least as many nodes, and nothing else in the
graph has changed. -/
structure Grown (g h : Graph) : Prop extends SameBesidesNodes g h where
  intact : h.nodes.Intact
  size_le : g.nodes.size ≤ h.nodes.size

theorem Grown.refl (hg : g.nodes.Intact) : Grown g g :=
  ⟨⟨rfl, rfl, rfl, rfl⟩, hg, Nat.le_refl _⟩

theorem Grown.trans (hgh : Grown g h) (hhk : Grown h k) : Grown g k :=
  ⟨hgh.toSameBesidesNodes.trans hhk.toSameBesidesNodes, hhk.intact,
    Nat.le_trans hgh.size_le hhk.size_le⟩

theorem Grown.of_rewired (hns : Rewired g.nodes ns) : Grown g { g with nodes := ns } :=
  ⟨sameBesidesNodes_withNodes g ns, hns.intact, Nat.le_of_eq hns.size_eq.symm⟩

theorem grown_intern (hg : g.nodes.Intact) (t : Text) :
    Grown g (g.intern t).1 ∧ (g.intern t).2 < (g.intern t).1.nodes.size := by
  refine ⟨⟨sameBesidesNodes_intern g t, ?_, ?_⟩, (intern_spec hg.wellFormed t).2.1⟩
  · unfold intern
    cases hfind : g.find? t with
    | some i => exact hg
    | none => exact hg.push (find?_eq_none_iff.1 hfind)
  · unfold intern
    cases g.find? t with
    | some i => exact Nat.le_refl _
    | none =>
      show g.nodes.size ≤ (g.nodes.push { name := t }).size
      rw [Array.size_push]
      exact Nat.le_succ _

theorem grown_linkAll (hlink : ∀ p, AddsEdges [p] (link · p)) (hg : g.nodes.Intact) (i : Nat)
    (names : List Text) : Grown g (g.linkAll link i names) := by
  refine List.foldlRecOn names _ (Grown.refl hg) ?_
  intro h hgh t _
  obtain ⟨hintern, htarget⟩ := grown_intern hgh.intact t
  exact hgh.trans (hintern.trans (.of_rewired (hintern.intact.rewired_link (hlink _) htarget)))

theorem grown_ingestOne (hg : g.nodes.Intact) (d : Declaration) : Grown g (g.ingestOne d) := by
  obtain ⟨hintern, _⟩ := grown_intern hg d.name
  have hdescribe : Grown (g.intern d.name).1 ((g.intern d.name).1.modify (g.intern d.name).2
      fun n => { n with kind := d.kind, categories := d.categories }) := by
    refine .of_rewired (hintern.intact.rewired_modify
      (addsEdges_nil (fun _ => rfl) fun _ => rfl) ?_)
    intro p hp
    cases hp
  have hparents := grown_linkAll (fun p => addsEdges_parents [p]) hdescribe.intact
    (g.intern d.name).2 d.parents
  have hroles := grown_linkAll (fun r => addsEdges_roles [r]) hparents.intact
    (g.intern d.name).2 d.roles
  exact hintern.trans (hdescribe.trans (hparents.trans hroles))

theorem grown_ingest {ds : List Declaration} (hg : g.nodes.Intact) (h : g.ingest ds = .ok k) :
    Grown g k := by
  unfold ingest at h
  split at h
  · cases h
  · cases h
    exact List.foldlRecOn ds _ (Grown.refl hg) fun _ hgh d _ =>
      hgh.trans (grown_ingestOne hgh.intact d)

theorem grown_assignDefaultRoots (hg : g.nodes.Intact) (h : g.assignDefaultRoots = .ok k) :
    Grown g k := by
  rcases cases_of_assignDefaultRoots h with rfl | ⟨_, rfl⟩
  · exact Grown.refl hg
  · obtain ⟨hintern, hbase⟩ := grown_intern hg g.config.base
    refine hintern.trans (.of_rewired (Rewired.foldl _ hintern.intact fun ns' hns' i _ => ?_))
    exact hns'.intact.rewired_link (addsEdges_parents _) (hns'.size_eq ▸ hbase)

/-! A frozen graph does not grow. -/

theorem eq_of_ingest {ds : List Declaration} (hfrozen : g.frozen = true)
    (h : g.ingest ds = .ok k) : k = g := by
  unfold ingest at h
  rw [hfrozen, Bool.true_and] at h
  cases ds with
  | nil =>
    cases h
    rfl
  | cons d ds => cases h

theorem eq_of_assignDefaultRoots (hfrozen : g.frozen = true) (h : g.assignDefaultRoots = .ok k) :
    k = g := by
  rcases cases_of_assignDefaultRoots h with rfl | ⟨hmutable, _⟩
  · rfl
  · rw [hfrozen] at hmutable
    cases hmutable

end Graph

end Lineage
