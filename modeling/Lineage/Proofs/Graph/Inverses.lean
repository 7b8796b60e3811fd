import Mathlib
import Lineage.Proofs.Graph.FinalParents
import Lineage.Proofs.Graph.Mentions

/-!
# The inverse edges

The build enters each node, in registry order, as a child of each of its parents and as a doer of
each of its roles, and as often as they are listed (`getElem?_foldl_invertOne`). No earlier pass has
entered any inverse edge. So in the end the children of a node are all the nodes that list it among
their parents, in registry order and with their repeats, and the same holds of doers and roles
(`build_inverses`).
-/

open Relation (TransGen)

namespace Lineage.Graph

open Nodes

variable {g g' : Graph} {ns : Nodes} {ds : List Declaration} {c : Config}

/-! ## Entering the edges of nodes -/

/-- The nodes that lead to a node, each repeated as often as it does. -/
def sources (edges : Nat → List Nat) (is : List Nat) (p : Nat) : List Nat :=
  is.flatMap fun i => List.replicate ((edges i).count p) i

/-- A node with further children and doers. -/
def withInverses (children doers : List Nat) (n : Node) : Node :=
  { n with children := n.children ++ children, doers := n.doers ++ doers }

/-- If the targets of a node are changed one after the other, then each of them is changed once for
every time that it is a target. -/
theorem getElem?_foldl_modify (put : List Nat → Node → Node) {i : Nat}
    (hnil : ∀ n, put [] n = n) (hcons : ∀ n is, put is (put [i] n) = put (i :: is) n)
    (targets : List Nat) (ns : Nodes) (p : Nat) :
    (targets.foldl (fun ns t => ns.modify t (put [i])) ns)[p]? =
      ns[p]?.map (put (List.replicate (targets.count p) i)) := by
  induction targets generalizing ns with
  | nil =>
    have hsame : put [] = id := funext hnil
    rw [List.foldl_nil, List.count_nil, List.replicate_zero, hsame, Option.map_id_fun, id]
  | cons t targets ih =>
    rw [List.foldl_cons, ih, Array.getElem?_modify]
    by_cases htp : t = p
    · rw [if_pos htp, htp, List.count_cons_self, List.replicate_succ, Option.map_map]
      congr 1
      exact funext fun n => hcons n _
    · rw [if_neg htp, List.count_cons_of_ne htp]

theorem withInverses_nil (n : Node) : withInverses [] [] n = n := by
  unfold withInverses
  rw [List.append_nil, List.append_nil]

theorem withInverses_withInverses (children doers children' doers' : List Nat) (n : Node) :
    withInverses children' doers' (withInverses children doers n) =
      withInverses (children ++ children') (doers ++ doers') n := by
  unfold withInverses
  rw [List.append_assoc, List.append_assoc]

theorem addChild_eq (ns : Nodes) (p i : Nat) :
    ns.addChild p i = ns.modify p (withInverses [i] []) := by
  unfold addChild withInverses
  simp only [List.append_nil]

theorem addDoer_eq (ns : Nodes) (r i : Nat) :
    ns.addDoer r i = ns.modify r (withInverses [] [i]) := by
  unfold addDoer withInverses
  simp only [List.append_nil]

theorem getElem?_enterChild (ns : Nodes) (i p : Nat) : (enterChild ns i)[p]? =
    ns[p]?.map (withInverses (List.replicate ((ns.parents i).count p) i) []) := by
  unfold enterChild
  simp only [addChild_eq]
  exact getElem?_foldl_modify (fun is => withInverses is []) withInverses_nil
    (fun n is => withInverses_withInverses [i] [] is [] n) _ _ _

theorem getElem?_enterDoer (ns : Nodes) (i r : Nat) : (enterDoer ns i)[r]? =
    ns[r]?.map (withInverses [] (List.replicate ((ns.roles i).count r) i)) := by
  unfold enterDoer
  simp only [addDoer_eq]
  exact getElem?_foldl_modify (withInverses []) withInverses_nil
    (fun n is => withInverses_withInverses [] [i] [] is n) _ _ _

theorem getElem?_invertOne (ns : Nodes) (i p : Nat) : (invertOne ns i)[p]? =
    ns[p]?.map (withInverses (sources ns.parents [i] p) (sources ns.roles [i] p)) := by
  -- the roles are looked up when the node has been entered as a child already
  have hroles : (enterChild ns i).roles = ns.roles :=
    (extends_enterChild ns i).agreeOn_core.core_roles
  rw [invertOne_eq, getElem?_enterDoer, hroles, getElem?_enterChild, Option.map_map]
  congr 1
  funext n
  unfold sources
  rw [Function.comp_apply, withInverses_withInverses, List.append_nil, List.nil_append,
    List.flatMap_singleton, List.flatMap_singleton]

/-- Entering nodes one after the other gives each node all of them that lead to it, and changes
nothing else. -/
theorem getElem?_foldl_invertOne (is : List Nat) (ns : Nodes) (p : Nat) :
    (is.foldl invertOne ns)[p]? =
      ns[p]?.map (withInverses (sources ns.parents is p) (sources ns.roles is p)) := by
  induction is generalizing ns with
  | nil =>
    have hsame : withInverses [] [] = id := funext withInverses_nil
    unfold sources
    rw [List.foldl_nil, List.flatMap_nil, List.flatMap_nil, hsame, Option.map_id_fun, id]
  | cons i is ih =>
    have hcons : ∀ edges : Nat → List Nat,
        sources edges (i :: is) p = sources edges [i] p ++ sources edges is p := by
      intro edges
      unfold sources
      rw [← List.flatMap_append, List.singleton_append]
    -- the edges to be inverted stay as they are on the way
    have hparents : (invertOne ns i).parents = ns.parents :=
      (agreeOn_invertOne (f := Node.parents) (fun _ _ _ => rfl) ns i).parents_eq
    have hroles : (invertOne ns i).roles = ns.roles :=
      (extends_invertOne ns i).agreeOn_core.core_roles
    rw [List.foldl_cons, ih, getElem?_invertOne, hparents, hroles, Option.map_map, hcons, hcons]
    congr 1
    exact funext fun n => withInverses_withInverses _ _ _ _ n

/-! ## The passes of a build -/

theorem NoInverses.flattenRoles (h : NoInverses g.nodes) (hg : g.flattenRoles = some g') :
    NoInverses g'.nodes := by
  obtain ⟨ns, hns, rfl⟩ := Option.map_eq_some_iff.1 hg
  exact h.of_agreeOn (agreeOn_inverses_flattenEach hns)

theorem names_flattenRoles (hg : g.flattenRoles = some g') : g'.names = g.names := by
  obtain ⟨ns, hns, rfl⟩ := Option.map_eq_some_iff.1 hg
  have hname : AgreeOn Node.name g.nodes ns :=
    (extends_flattenEach hns).agreeOn_core.of_keeps fun _ _ hn => (congrArg Node.name hn :)
  exact names_eq_of_agreeOn hname

theorem NoInverses.assignDefaultRoots (h : NoInverses g.nodes)
    (hg : g.assignDefaultRoots = .ok g') : NoInverses g'.nodes := by
  rcases cases_of_assignDefaultRoots hg with rfl | ⟨_, rfl⟩
  · exact h
  · refine (h.intern g.config.base).of_agreeOn (agreeOn_foldl (fun ns i => ?_) _ _)
    exact agreeOn_modify fun _ => rfl

/-- If the base is registered only now, it goes last. -/
theorem names_assignDefaultRoots (hg : g.assignDefaultRoots = .ok g') :
    g'.names = g.names ∨ g'.names = addNew g.names g.config.base := by
  rcases cases_of_assignDefaultRoots hg with rfl | ⟨_, rfl⟩
  · exact Or.inl rfl
  · refine Or.inr ((names_eq_of_agreeOn ?_).trans (names_intern g g.config.base))
    refine agreeOn_foldl (fun ns i => ?_) _ _
    exact agreeOn_modify fun _ => rfl

/-- The children of each node are the nodes that list it among their parents, in registry order and
each as often as it lists it, and so are the doers of each node as to the roles. -/
structure Inverted (ns : Nodes) : Prop where
  children : ∀ (p : Nat) n, ns[p]? = some n →
    n.children = sources ns.parents (List.range ns.size) p
  doers : ∀ (r : Nat) n, ns[r]? = some n →
    n.doers = sources ns.roles (List.range ns.size) r

/-- Entering all nodes inverts all edges, if no inverse edge has been entered before. -/
theorem inverted_buildInverses (h : NoInverses g.nodes) : Inverted g.buildInverses.nodes := by
  have hsize : g.buildInverses.nodes.size = g.nodes.size :=
    (agreeOn_buildInverses (f := Node.parents) (fun _ _ _ => rfl) g).size_eq
  have hparents : g.buildInverses.nodes.parents = g.nodes.parents :=
    (agreeOn_buildInverses (f := Node.parents) (fun _ _ _ => rfl) g).parents_eq
  have hroles : g.buildInverses.nodes.roles = g.nodes.roles :=
    (agreeOn_buildInverses (f := Node.roles) (fun _ _ _ => rfl) g).roles_eq
  have hnode : ∀ (p : Nat) n, g.buildInverses.nodes[p]? = some n →
      n.children = sources g.nodes.parents (List.range g.nodes.size) p ∧
        n.doers = sources g.nodes.roles (List.range g.nodes.size) p := by
    intro p n hn
    obtain ⟨n₀, hn₀, rfl⟩ :=
      Option.map_eq_some_iff.1 ((getElem?_foldl_invertOne _ g.nodes p).symm.trans hn)
    obtain ⟨hchildren, hdoers⟩ := Prod.mk.inj (h p n₀ hn₀)
    unfold withInverses
    rw [hchildren, hdoers]
    exact ⟨List.nil_append _, List.nil_append _⟩
  constructor
  · rw [hsize, hparents]
    exact fun p n hn => (hnode p n hn).1
  · rw [hsize, hroles]
    exact fun r n hn => (hnode r n hn).2

theorem inverted_of_build (hg : build ds c = some (.ok g)) : Inverted g.nodes := by
  obtain ⟨g₁, g₂, g₃, hingest, hflatten, hroots, hfreeze⟩ := passes_of_build hg
  obtain rfl := Except.ok.inj ((ingest_of_mutable rfl ds).symm.trans hingest)
  have hnone : NoInverses ({ config := c } : Graph).nodes := fun i n hn => by cases hn
  obtain ⟨_, rfl⟩ := freeze_eq_ok hfreeze
  -- the passes in front of the last one enter no inverse edge
  exact inverted_buildInverses
    (((hnone.foldl_ingestOne ds).flattenRoles hflatten).assignDefaultRoots hroots)

/-- A graph that is built registers the names in the order in which they are mentioned first, and
the base behind them if it is registered without being mentioned. -/
theorem names_of_build (hg : build ds c = some (.ok g)) :
    g.names = (ds.flatMap (·.mentions)).eraseDups ∨
      g.names = (ds.flatMap (·.mentions) ++ [c.base]).eraseDups := by
  obtain ⟨g₁, g₂, g₃, hingest, hflatten, hroots, hfreeze⟩ := passes_of_build hg
  obtain rfl := Except.ok.inj ((ingest_of_mutable rfl ds).symm.trans hingest)
  have hnames := (names_flattenRoles hflatten).trans (ingested_foldl_ingestOne c ds).names
  have hconfig : g₂.config = c := by
    obtain ⟨ns, _, rfl⟩ := Option.map_eq_some_iff.1 hflatten
    exact (sameBesidesNodes_foldl_ingestOne _ ds).config
  have hsame : g.names = g₃.names := by
    obtain ⟨_, rfl⟩ := freeze_eq_ok hfreeze
    exact names_eq_of_agreeOn (agreeOn_buildInverses (fun _ _ _ => rfl) g₃)
  rw [hsame, ← addNew_eraseDups, ← hnames, ← hconfig]
  exact names_assignDefaultRoots hroots

/-- If the declared roles compose without a cycle, then the graph is built, and its inverse edges
are exactly the inverses of its edges: a node is listed as a child of another one as often as it
lists that one as a parent, and as a doer as often as it lists it as a role. They are listed in
registry order, which is that of the first mention, with the base last if it is not mentioned. -/
theorem build_inverses (ds : List Declaration) (c : Config)
    (hacyclic : ∀ t, ¬ TransGen (DeclaredEdge ds .composes) t t) :
    ∃ g, build ds c = some (.ok g) ∧ Inverted g.nodes ∧
      (g.names = (ds.flatMap (·.mentions)).eraseDups ∨
        g.names = (ds.flatMap (·.mentions) ++ [c.base]).eraseDups) := by
  obtain ⟨of, hof⟩ := exists_unfolds_declared (acyclic_roles_declared_iff.2 hacyclic)
  obtain ⟨g, hg, _⟩ := build_spec ds c hof
  exact ⟨g, hg, inverted_of_build hg, names_of_build hg⟩

/-- A parent that the class has from both of its roles lists the class twice among its children.
The base, which is not mentioned, comes last. -/
theorem build_inverses_twoRoles :
    ∃ g, build twoRoles {} = some (.ok g) ∧
      g.names = (["C", "R", "S", "P", "Q", "Any"] : List Text) ∧
      (∀ n, g.nodes[3]? = some n → n.children = [0, 0, 1, 2]) ∧
      (∀ n, g.nodes[5]? = some n → n.children = [3, 4]) ∧
      ∀ n, g.nodes[2]? = some n → n.doers = [0] := by
  obtain ⟨g, hg, hinverted, hnames⟩ := build_inverses twoRoles {} acyclic_twoRoles
  have hbuilt : (build twoRoles {}).map (fun r => r.toOption.map fun g =>
      (g.nodes.map (·.parents), g.nodes.map (·.roles))) =
    some (some (#[[4, 3, 3], [3], [4, 3], [5], [5], []], #[[1, 2], [], [], [], [], []])) := by
    cbv
  rw [hg] at hbuilt
  obtain ⟨hparents, hroles⟩ := Prod.mk.inj (Option.some.inj (Option.some.inj hbuilt))
  have hsize : g.nodes.size = 6 := by
    rw [← Array.size_map (f := Node.parents), hparents]
    rfl
  have hlength : g.names.length = 6 := by
    unfold names
    rw [List.length_map, Array.length_toList, hsize]
  have hbase : g.names = (twoRoles.flatMap (·.mentions) ++ [("Any" : Text)]).eraseDups := by
    refine hnames.resolve_left fun h => ?_
    rw [h] at hlength
    revert hlength
    decide
  have hparents : g.nodes.parents =
      fun i => (#[[4, 3, 3], [3], [4, 3], [5], [5], []][i]? : Option (List Nat)).getD [] := by
    funext i
    rw [parents_eq_getD, ← Array.getElem?_map, hparents]
  have hroles : g.nodes.roles =
      fun i => (#[[1, 2], [], [], [], [], []][i]? : Option (List Nat)).getD [] := by
    funext i
    rw [roles_eq_getD, ← Array.getElem?_map, hroles]
  refine ⟨g, hg, ?_, ?_, ?_, ?_⟩
  · rw [hbase]
    decide
  · intro n hn
    rw [hinverted.children 3 n hn, hsize, hparents]
    decide
  · intro n hn
    rw [hinverted.children 5 n hn, hsize, hparents]
    decide
  · intro n hn
    rw [hinverted.doers 2 n hn, hsize, hroles]
    decide

end Lineage.Graph
