import Mathlib
import Lineage.Proofs.Check.Termination
import Lineage.Proofs.Graph.Extension
import Lineage.Proofs.Session.Soundness

/-!
# Frozen graphs

A frozen graph takes no further node, declaration or freezing (`Refuses`). It is not read-only,
though. Handing down roles and entering inverse edges do not ask whether the graph is frozen, and
repeat on its nodes what they did before. All other requests but the edits of single nodes leave
the nodes as they are, and memoize linearizations at most.

So a frozen graph keeps its names, kinds, categories, roles and order, and it keeps its other edges
exactly as long as those two passes find nothing to do (`after_of_frozen`).
-/

namespace Lineage.Graph

open Nodes

variable {g : Graph} {ns : Nodes} {of : Nat → List Nat} {r : Request} {rs : List Request}

/-! ## Single requests -/

/-- Whether a request edits one node directly. -/
def Request.editsNode : Request → Bool
  | .addParent .. | .addRole .. | .setKind .. | .setCategories .. => true
  | _ => false

/-- What a request makes of the nodes of a frozen graph. -/
def Request.rewire : Request → Nodes → Nodes
  | .flattenRoles, ns => (flattenEach (List.range ns.size) ns).getD ns
  | .buildInverses, ns => (List.range ns.size).foldl invertOne ns
  | _, ns => ns

/-- What a frozen graph refuses. -/
structure Refuses (g : Graph) : Prop where
  fetch : ∀ name, g.fetch name = .error .frozen
  ingest : ∀ ds, g.ingest ds = if ds = [] then .ok g else .error .frozen
  assignDefaultRoots :
    g.assignDefaultRoots = if g.rootless = [] then .ok g else .error .frozen
  freeze : ∀ is, g.freeze is = .error .frozen

theorem refuses_of_frozen (hfrozen : g.frozen = true) : Refuses g where
  fetch name := by
    unfold Graph.fetch checkMutable
    rw [hfrozen]
    rfl
  ingest ds := by
    unfold Graph.ingest
    rw [hfrozen]
    cases ds <;> rfl
  assignDefaultRoots := by
    unfold Graph.assignDefaultRoots Graph.fetch checkMutable
    rw [hfrozen]
    simp only [List.isEmpty_iff]
    rfl
  freeze is := by
    unfold Graph.freeze checkMutable
    rw [hfrozen]
    rfl

/-- A frozen graph gets its nodes rewired and further linearizations memoized, and nothing else. -/
theorem perform_of_frozen (hfrozen : g.frozen = true) (hr : r.editsNode = false) :
    ∃ memo, (g.perform r).1 = { g with nodes := r.rewire g.nodes, memo } := by
  have hrefuses := refuses_of_frozen hfrozen
  cases r with
  | fetch name =>
    simp only [perform, hrefuses.fetch]
    exact ⟨g.memo, rfl⟩
  | ingest ds =>
    simp only [perform, hrefuses.ingest]
    split <;> exact ⟨g.memo, rfl⟩
  | flattenRoles =>
    refine ⟨g.memo, ?_⟩
    simp only [perform, flattenRoles, Request.rewire, size]
    cases flattenEach (List.range g.nodes.size) g.nodes <;> rfl
  | assignDefaultRoots =>
    simp only [perform, hrefuses.assignDefaultRoots]
    split <;> exact ⟨g.memo, rfl⟩
  | freeze order =>
    cases order with
    | none =>
      simp only [perform, hrefuses.freeze]
      exact ⟨g.memo, rfl⟩
    | some names =>
      simp only [perform, hrefuses.freeze]
      cases g.findAll names <;> exact ⟨g.memo, rfl⟩
  | linearize name =>
    rw [fst_perform_linearize]
    cases g.find name <;> exact ⟨_, rfl⟩
  | describe name | without name | isRole name =>
    refine ⟨g.memo, ?_⟩
    simp only [perform, asking]
    cases g.find name with
    | error e => rfl
    | ok i => cases hn : g.nodes[i]? <;> simp only [hn] <;> rfl
  | rename name =>
    refine ⟨g.memo, ?_⟩
    simp only [perform]
    cases g.find name <;> rfl
  | render format =>
    obtain ⟨memo, hmemo⟩ := g.linearizeAll_eq g.sorted
    have hrender : (g.render format).1 = (g.linearizeAll g.sorted).1 := by
      cases format <;> rfl
    exact ⟨memo, hrender.trans hmemo⟩
  | checkLinearization => exact g.linearizeAll_eq g.sorted
  | addParent name parent => cases hr
  | addRole name role => cases hr
  | setKind name word => cases hr
  | setCategories name categories => cases hr
  | buildInverses | order | lookup _ | contains _ | size | sorted | names | replace _ | edges =>
    exact ⟨g.memo, rfl⟩

theorem rewire_flattenRoles (ns : Nodes) :
    Request.flattenRoles.rewire ns = (flattenEach (List.range ns.size) ns).getD ns :=
  rfl

theorem extends_rewire (r : Request) (ns : Nodes) : ns.Extends (r.rewire ns) := by
  cases r with
  | flattenRoles =>
    rw [rewire_flattenRoles]
    cases h : flattenEach (List.range ns.size) ns with
    | none => exact .refl ns
    | some ns' => exact extends_flattenEach h
  | buildInverses => exact extends_foldl extends_invertOne _ ns
  | _ => exact .refl ns

theorem flattenEach_isSome (h : Unfolds ns.roles of) :
    (flattenEach (List.range ns.size) ns).isSome = true := by
  obtain ⟨ns', heach, _⟩ := flattenEach_spec (List.range ns.size) h (fun _ => Or.inl rfl)
    fun i hi => List.mem_range.1 hi
  rw [heach]
  rfl

theorem rewire_eq_self_iff (hns : ns.Intact) (h : Unfolds ns.roles of) :
    r.rewire ns = ns ↔
      (r = .flattenRoles → ns.RolesParentless) ∧ (r = .buildInverses → ns.Unlinked) := by
  cases r with
  | flattenRoles =>
    obtain ⟨ns', hns'⟩ := Option.isSome_iff_exists.1 (flattenEach_isSome h)
    simp [rewire_flattenRoles, ← flattenEach_range_eq_self_iff h, hns']
  | buildInverses => simp [Request.rewire, foldl_invertOne_eq_self_iff hns]
  | _ => simp [Request.rewire]

theorem agreeOn_parents_rewire (hr : r ≠ .flattenRoles) (ns : Nodes) :
    AgreeOn Node.parents ns (r.rewire ns) := by
  cases r with
  | flattenRoles => exact absurd rfl hr
  | buildInverses => exact agreeOn_buildInverses (fun _ _ _ => rfl) { nodes := ns }
  | _ => exact .refl _ _

theorem agreeOn_inverses_rewire (hr : r ≠ .buildInverses) (ns : Nodes) :
    AgreeOn inverses ns (r.rewire ns) := by
  cases r with
  | flattenRoles =>
    rw [rewire_flattenRoles]
    cases h : flattenEach (List.range ns.size) ns with
    | none => exact .refl _ _
    | some ns' => exact agreeOn_inverses_flattenEach h
  | buildInverses => exact absurd rfl hr
  | _ => exact .refl _ _

/-! ## Sequences of requests -/

theorem eq_after_of_frozen (hfrozen : g.frozen = true) (hrs : ∀ r ∈ rs, r.editsNode = false) :
    ∃ memo, g.after rs = { g with nodes := rs.foldl (fun ns r => r.rewire ns) g.nodes, memo } := by
  induction rs generalizing g with
  | nil => exact ⟨g.memo, rfl⟩
  | cons r rs ih =>
    obtain ⟨hr, hrs⟩ := List.forall_mem_cons.1 hrs
    obtain ⟨memo, hmemo⟩ := perform_of_frozen hfrozen hr
    obtain ⟨memo', hrest⟩ := @ih { g with nodes := r.rewire g.nodes, memo } hfrozen hrs
    refine ⟨memo', ?_⟩
    show (g.perform r).1.after rs = _
    rw [hmemo]
    exact hrest

theorem agreeOn_foldl_rewire {β : Type} {f : Node → β}
    (hrs : ∀ r ∈ rs, ∀ ns, AgreeOn f ns (r.rewire ns)) (ns : Nodes) :
    AgreeOn f ns (rs.foldl (fun ns r => r.rewire ns) ns) :=
  List.foldlRecOn rs _ (.refl f ns) fun _ h r hr => h.trans (hrs r hr _)

/-- How a graph goes on that is frozen: what is kept in any case, and when all of it is. -/
structure KeptFrozen (g : Graph) (rs : List Request) (h : Graph) : Prop where
  frozen : h.frozen = true
  config : h.config = g.config
  sorted : h.sorted = g.sorted
  /-- Names, kinds, categories and roles are kept, and edges are added at most. -/
  extends_nodes : g.nodes.Extends h.nodes
  parents : .flattenRoles ∉ rs → AgreeOn Node.parents g.nodes h.nodes
  inverses : .buildInverses ∉ rs → AgreeOn inverses g.nodes h.nodes
  nodes_eq_iff : h.nodes = g.nodes ↔
    (.flattenRoles ∈ rs → g.nodes.RolesParentless) ∧ (.buildInverses ∈ rs → g.nodes.Unlinked)
  /-- Roles can still be handed down; this does not go on without end. -/
  flattens : h.flattenRoles.isSome = true
  refuses : Refuses h

theorem keptFrozen_after (hfrozen : g.frozen = true) (hns : g.nodes.Intact)
    (hroles : Acyclic g.nodes.roles) (hrs : ∀ r ∈ rs, r.editsNode = false) :
    KeptFrozen g rs (g.after rs) := by
  obtain ⟨of, hof⟩ := exists_unfolds_roles hroles
  obtain ⟨memo, hafter⟩ := eq_after_of_frozen hfrozen hrs
  have hextends := extends_foldl (fun ns r => extends_rewire r ns) rs g.nodes
  rw [hafter]
  refine ⟨hfrozen, rfl, rfl, hextends, ?_, ?_, ?_, ?_, refuses_of_frozen hfrozen⟩
  · intro hno
    refine agreeOn_foldl_rewire (fun r hr => agreeOn_parents_rewire ?_) g.nodes
    exact fun heq => hno (heq ▸ hr)
  · intro hno
    refine agreeOn_foldl_rewire (fun r hr => agreeOn_inverses_rewire ?_) g.nodes
    exact fun heq => hno (heq ▸ hr)
  · -- nothing that is added is taken away, so it is enough to look at each request on its own
    show rs.foldl (fun ns r => r.rewire ns) g.nodes = g.nodes ↔ _
    rw [foldl_eq_self_iff fun ns r => extends_rewire r ns]
    constructor
    · intro h
      exact ⟨fun hr => ((rewire_eq_self_iff hns hof).1 (h _ hr)).1 rfl,
        fun hr => ((rewire_eq_self_iff hns hof).1 (h _ hr)).2 rfl⟩
    · rintro ⟨hflatten, hinverses⟩ r hr
      exact (rewire_eq_self_iff hns hof).2 ⟨fun h => hflatten (h ▸ hr), fun h => hinverses (h ▸ hr)⟩
  · have hof' := hextends.agreeOn_core.core_roles ▸ hof
    unfold flattenRoles
    rw [Option.isSome_map]
    exact flattenEach_isSome hof'

/-! ## Graphs that have been built -/

/-- The passes of a build, as requests. -/
def passes (ds : List Declaration) : List Request :=
  [.ingest ds, .flattenRoles, .assignDefaultRoots, .buildInverses, .freeze none]

theorem session_passes_of_build {ds : List Declaration} {c : Config}
    (hg : build ds c = some (.ok g)) : session c (passes ds) = g := by
  obtain ⟨g₁, g₂, g₃, hingest, hflatten, hroots, hfreeze⟩ := passes_of_build hg
  simp only [session, passes, after, List.foldl_cons, List.foldl_nil, perform, hingest,
    attempting, hflatten, Option.getD_some, hroots, hfreeze]

/-- A build that ends has composed the roles without a cycle. -/
theorem acyclic_roles_of_build {ds : List Declaration} {c : Config}
    (hg : build ds c = some (.ok g)) : Acyclic g.nodes.roles := by
  have hbuilt := Check.built_of_build hg
  obtain ⟨of, hof, hview⟩ := hbuilt.exists_view
  have hdeclared : (((declared ds).flattened of).rooted c).roles = (declared ds).roles := by
    funext t
    rw [View.roles_rooted, View.roles_flattened]
  rw [Nodes.acyclic_roles_iff hbuilt.wellFormed hview, hdeclared]
  exact hof.acyclic

/-- In particular, so goes on the graph of a build. -/
theorem keptFrozen_of_build {ds : List Declaration} {c : Config}
    (hg : build ds c = some (.ok g)) (hrs : ∀ r ∈ rs, r.editsNode = false) :
    KeptFrozen g rs (g.after rs) := by
  have hsound := sound_session c (passes ds)
  rw [session_passes_of_build hg] at hsound
  exact keptFrozen_after (frozen_of_build hg) hsound.intact (acyclic_roles_of_build hg) hrs

/-- A graph that has been frozen takes no further nodes, and keeps its order and the names, kinds,
categories and roles of its nodes whatever is requested, direct edits of nodes apart. All of its
nodes stay as they are exactly if roles are only handed down again where no composed role has a
parent, and inverse edges are only entered again where there are none. -/
theorem after_of_frozen (c : Config) (before : List Request) {g : Graph}
    (hg : session c before = g) (hfrozen : g.frozen = true) (hroles : Acyclic g.nodes.roles)
    (rs : List Request) (hrs : ∀ r ∈ rs, r.editsNode = false) : KeptFrozen g rs (g.after rs) := by
  have hsound := sound_session c before
  rw [hg] at hsound
  exact keptFrozen_after hfrozen hsound.intact hroles hrs

/-- The passes of a build on a class that composes a role with a parent. -/
def composingPasses : List Request :=
  passes [{ name := "Named" }, { name := "Pet", kind := .ofRole, parents := ["Named"] },
    { name := "Dog", roles := ["Pet"] }]

/-- The class has the parent of its role twice when roles are handed down in the frozen graph. -/
theorem after_of_frozen_again :
    ∃ g : Graph, session {} composingPasses = g ∧ g.frozen = true ∧ Acyclic g.nodes.roles ∧
      (∀ r ∈ [Request.linearize "Dog", .flattenRoles], r.editsNode = false) ∧
      (g.after [.linearize "Dog", .flattenRoles]).nodes ≠ g.nodes ∧
      (g.after [.linearize "Dog", .flattenRoles]).sorted = g.sorted := by
  have hfrozen : (session {} composingPasses).frozen = true := by cbv
  have hroles : Acyclic (session {} composingPasses).nodes.roles := by
    -- a role stands in front of what composes it
    refine acyclic_of_rank id fun i r hr => ?_
    have hnodes : (session {} composingPasses).nodes.map (·.roles) = #[[], [], [1], []] := by cbv
    rw [roles_eq_getD, ← Array.getElem?_map, hnodes] at hr
    obtain _ | _ | _ | _ | i := i <;> simp at hr
    simp [hr]
  have hparents : (session {} composingPasses).nodes.parents 1 = [0] := by cbv
  have hcomposes : (session {} composingPasses).nodes.roles 2 = [1] := by cbv
  have hedits : ∀ r ∈ [Request.linearize "Dog", .flattenRoles], r.editsNode = false := by
    simp [Request.editsNode]
  have hkept := after_of_frozen {} composingPasses rfl hfrozen hroles _ hedits
  refine ⟨_, rfl, hfrozen, hroles, hedits, ?_, hkept.sorted⟩
  intro hsame
  have hnone := (hkept.nodes_eq_iff.1 hsame).1 (by simp) 2 1
  rw [hcomposes, hparents] at hnone
  simp at hnone

end Lineage.Graph
