import Lineage.Proofs.Graph.Intact
import Lineage.Session.Graph

/-!
# What a request does to a graph

Whatever is requested of a graph, its registry grows or is rewired, or the graph is frozen in some
order of its nodes, or nodes are linearized (`effect_perform`). A refused request does one of these
to no extent. So a property of all graphs that a session can lead to is an induction over the
requests with these three cases.
-/

namespace Lineage.Graph

open Nodes

/-- The graph that is left by requests, whatever is answered. -/
def after (g : Graph) (rs : List Request) : Graph :=
  rs.foldl (fun g r => (g.perform r).1) g

/-- What a request can do to a graph. -/
inductive Effect (g : Graph) : Graph → Prop where
  /-- Nodes are added or rewired; none are added to a frozen graph. -/
  | grown {h : Graph} (grown : Grown g h)
      (size_eq : g.frozen = true → h.nodes.size = g.nodes.size) : Effect g h
  /-- The graph is frozen in some order. -/
  | frozen {is : List Nat} (length_eq : is.length = g.nodes.size)
      (closed : ∀ i ∈ is, i < g.nodes.size) : Effect g { g with sorted := is, frozen := true }
  /-- Some nodes are linearized, as far as possible. -/
  | linearized {is : List Nat} (closed : ∀ i ∈ is, i < g.nodes.size) :
      Effect g (g.linearizeAll is).1

variable {g h : Graph} {f : Node → Node} {link : Node → Nat → Node} {name : Text} {i : Nat}

namespace Effect

theorem refl (hg : g.nodes.Intact) : Effect g g :=
  .grown (.refl hg) fun _ => rfl

theorem of_rewired {ns : Nodes} (hns : Rewired g.nodes ns) : Effect g { g with nodes := ns } :=
  .grown (.of_rewired hns) fun _ => hns.size_eq

theorem linearize (hi : i < g.nodes.size) : Effect g (g.linearize i).1 := by
  have his : ∀ j ∈ [i], j < g.nodes.size := by simpa using hi
  exact .linearized his

end Effect

/-! ## The kinds of requests -/

/-- A refused operation leaves the graph as it was. -/
theorem effect_attempting (hg : g.nodes.Intact) {r : Except GraphError Graph}
    (hr : ∀ k, r = .ok k → Effect g k) : Effect g (g.attempting r).1 := by
  cases r with
  | ok k => exact hr k rfl
  | error e => exact .refl hg

theorem find_eq_ok_iff : g.find name = .ok i ↔ g.find? name = some i := by
  unfold find
  cases g.find? name <;> simp

theorem lt_size_of_find (hg : g.nodes.Intact) (hi : g.find name = .ok i) : i < g.nodes.size :=
  ((find?_eq_some_iff hg.wellFormed).1 (find_eq_ok_iff.1 hi)).1

theorem lt_size_of_findAll (hg : g.nodes.Intact) {names : List Text} {is : List Nat}
    (his : g.findAll names = .ok is) : ∀ i ∈ is, i < g.nodes.size := by
  induction names generalizing is with
  | nil =>
    cases his
    intro i hi
    cases hi
  | cons name names ih =>
    unfold findAll at his
    cases hname : g.find name with
    | error e =>
      rw [hname] at his
      cases his
    | ok j =>
      cases hrest : g.findAll names with
      | error e =>
        rw [hname, hrest] at his
        cases his
      | ok js =>
        rw [hname, hrest] at his
        cases his
        exact List.forall_mem_cons.2 ⟨lt_size_of_find hg hname, ih hrest⟩

theorem effect_changing (hg : g.nodes.Intact) (hf : AddsEdges [] f) :
    Effect g (g.changing name f).1 := by
  unfold changing
  cases g.find name with
  | error e => exact .refl hg
  | ok i =>
    refine .of_rewired (hg.rewired_modify hf ?_)
    intro p hp
    cases hp

theorem effect_linking (hg : g.nodes.Intact) (hlink : ∀ p, AddsEdges [p] (link · p))
    (name target : Text) : Effect g (g.linking name target link).1 := by
  unfold linking
  cases g.find name with
  | error e => exact .refl hg
  | ok i =>
    cases htarget : g.find target with
    | error e => exact .refl hg
    | ok j => exact .of_rewired (hg.rewired_link (hlink j) (lt_size_of_find hg htarget))

theorem effect_asking (hg : g.nodes.Intact) (name : Text) (answer : Node → Reply) :
    Effect g (g.asking name answer).1 := by
  unfold asking
  cases g.find name with
  | error e => exact .refl hg
  | ok i =>
    cases hn : g.nodes[i]? with
    | none =>
      simp only [hn]
      exact .refl hg
    | some n =>
      simp only [hn]
      exact .refl hg

theorem effect_freeze (hg : g.nodes.Intact) {is : List Nat} (his : ∀ i ∈ is, i < g.nodes.size) :
    Effect g (g.attempting (g.freeze is)).1 := by
  refine effect_attempting hg fun k hk => ?_
  obtain ⟨hlength, rfl⟩ := freeze_eq_ok hk
  exact .frozen hlength his

theorem effect_fetch (hg : g.nodes.Intact) (name : Text) :
    Effect g (g.perform (.fetch name)).1 := by
  unfold perform fetch checkMutable
  cases hfrozen : g.frozen with
  | true => exact .refl hg
  | false =>
    refine .grown (grown_intern hg name).1 fun hfrozen' => ?_
    rw [hfrozen] at hfrozen'
    cases hfrozen'

/-- What is left when a type has been asked for. -/
theorem fst_perform_linearize (g : Graph) (name : Text) :
    (g.perform (.linearize name)).1 =
      match g.find name with
      | .ok i => (g.linearize i).1
      | .error _ => g := by
  cases hname : g.find name with
  | error e => simp only [perform, hname]
  | ok i =>
    simp only [perform, hname]
    cases g.linearize i with
    | mk k answer => cases answer <;> rfl

theorem effect_linearize (hg : g.nodes.Intact) (name : Text) :
    Effect g (g.perform (.linearize name)).1 := by
  rw [fst_perform_linearize]
  cases hname : g.find name with
  | error e => exact .refl hg
  | ok i => exact .linearize (lt_size_of_find hg hname)

/-! ## All requests -/

/-- The nodes of a graph are intact, and its recorded order lists nothing else. -/
structure Registered (g : Graph) : Prop where
  intact : g.nodes.Intact
  sorted : ∀ i ∈ g.sorted, i < g.nodes.size

theorem effect_perform (hg : g.Registered) (r : Request) : Effect g (g.perform r).1 := by
  have hns := hg.intact
  cases r with
  | fetch name => exact effect_fetch hns name
  | ingest ds =>
    exact effect_attempting hns fun k hk =>
      .grown (grown_ingest hns hk) fun hfrozen => by rw [eq_of_ingest hfrozen hk]
  | flattenRoles =>
    show Effect g (g.flattenRoles.getD g)
    cases hflatten : g.flattenRoles with
    | none => exact .refl hns
    | some k =>
      obtain ⟨ns, heach, rfl⟩ := Option.map_eq_some_iff.1 hflatten
      exact .of_rewired (rewired_flattenEach _ hns heach)
  | assignDefaultRoots =>
    exact effect_attempting hns fun k hk =>
      .grown (grown_assignDefaultRoots hns hk) fun hfrozen => by
        rw [eq_of_assignDefaultRoots hfrozen hk]
  | buildInverses => exact .of_rewired (rewired_buildInverses hns)
  | freeze order =>
    cases order with
    | none =>
      have hperm := Order.sort_range_perm hns.wellFormed
      exact effect_freeze hns fun i hi => List.mem_range.1 (hperm.mem_iff.1 hi)
    | some names =>
      cases hnames : g.findAll names with
      | error e =>
        simp only [perform, hnames]
        exact .refl hns
      | ok is =>
        simp only [perform, hnames]
        exact effect_freeze hns (lt_size_of_findAll hns hnames)
  | linearize name => exact effect_linearize hns name
  | describe name => exact effect_asking hns name _
  | without name => exact effect_asking hns name _
  | isRole name => exact effect_asking hns name _
  | rename name =>
    cases hname : g.find name with
    | error e =>
      simp only [perform, hname]
      exact .refl hns
    | ok i =>
      simp only [perform, hname]
      exact .refl hns
  | addParent name parent => exact effect_linking hns (fun p => addsEdges_parents [p]) name parent
  | addRole name role => exact effect_linking hns (fun r => addsEdges_roles [r]) name role
  | setKind name word =>
    cases hkind : Kind.ofKeyword? word with
    | none =>
      simp only [perform, hkind]
      exact .refl hns
    | some kind =>
      simp only [perform, hkind]
      exact effect_changing hns (addsEdges_nil (fun _ => rfl) fun _ => rfl)
  | setCategories name categories =>
    exact effect_changing hns (addsEdges_nil (fun _ => rfl) fun _ => rfl)
  | render format =>
    have hrender : (g.render format).1 = (g.linearizeAll g.sorted).1 := by
      cases format <;> rfl
    show Effect g (g.render format).1
    rw [hrender]
    exact .linearized hg.sorted
  | checkLinearization => exact .linearized hg.sorted
  | order | lookup _ | contains _ | size | sorted | names | replace _ | edges => exact .refl hns

end Lineage.Graph
