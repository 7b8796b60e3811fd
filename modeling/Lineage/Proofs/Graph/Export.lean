import Lineage.Proofs.Declaration.Entries
import Lineage.Proofs.Session.Soundness

/-!
# What is handed on

However directed graphs are kept, as long as vertices and edges stay in the order in which they were
added, a graph that has been handed on shows exactly its types and its edges
(`Graph.exports_session`). No edge brings in a vertex of its own, since in whatever state a session
leaves a graph all edges lead to types of the registry.
-/

namespace Lineage

open DirectedGraph (vertices targets addVertex addEdge)

/-- What is relied on: a vertex or an edge that is new goes last, and one that is there already
keeps its place and takes the new label or relation. An edge brings in its ends if they are
missing. -/
class LawfulDirectedGraph (G : Type) [DirectedGraph G] : Prop where
  vertices_empty : vertices (DirectedGraph.empty : G) = []
  targets_empty (s : Text) : targets (DirectedGraph.empty : G) s = []
  vertices_addVertex (x : G) (s : Text) (l : Label) :
    vertices (addVertex x s l) = Json.put s (some l) (vertices x)
  targets_addVertex (x : G) (s : Text) (l : Label) (u : Text) :
    targets (addVertex x s l) u = targets x u
  vertices_addEdge (x : G) (s t : Text) (r : Relation) :
    vertices (addEdge x s t r) = Adjacency.addEnd t (Adjacency.addEnd s (vertices x))
  targets_addEdge_self (x : G) (s t : Text) (r : Relation) :
    targets (addEdge x s t r) s = Json.put t r (targets x s)
  targets_addEdge_of_ne (x : G) {s u : Text} (h : u ≠ s) (t : Text) (r : Relation) :
    targets (addEdge x s t r) u = targets x u

namespace Json

variable {α : Type} {k key : Text}

theorem lookup_put_self (key : Text) (value : α) (pairs : List (Text × α)) :
    (put key value pairs).lookup key = some value := by
  induction pairs with
  | nil => simp [put]
  | cons p pairs ih =>
    obtain ⟨k, v⟩ := p
    by_cases hk : k = key
    · simp [put, hk]
    · rw [put, if_neg (mt beq_iff_eq.1 hk), List.lookup_cons,
        beq_eq_false_iff_ne.2 (Ne.symm hk), ih]

theorem lookup_put_of_ne (h : k ≠ key) (value : α) (pairs : List (Text × α)) :
    (put key value pairs).lookup k = pairs.lookup k := by
  induction pairs with
  | nil => simp [put, List.lookup_cons, beq_eq_false_iff_ne.2 h]
  | cons p pairs ih =>
    obtain ⟨k', v⟩ := p
    by_cases hk : k' = key
    · subst hk
      rw [put, if_pos (beq_self_eq_true k'), List.lookup_cons, List.lookup_cons,
        beq_eq_false_iff_ne.2 h]
    · rw [put, if_neg (mt beq_iff_eq.1 hk), List.lookup_cons, List.lookup_cons, ih]

end Json

/-- Adjacency lists keep the order. -/
instance : LawfulDirectedGraph Adjacency where
  vertices_empty := rfl
  targets_empty _ := rfl
  vertices_addVertex _ _ _ := rfl
  targets_addVertex _ _ _ _ := rfl
  vertices_addEdge _ _ _ _ := rfl
  targets_addEdge_self x s t r := by
    show ((Json.put s _ x.targets).lookup s).getD [] = _
    rw [Json.lookup_put_self]
    rfl
  targets_addEdge_of_ne x _ _ h t r := by
    show ((Json.put _ _ x.targets).lookup _).getD [] = _
    rw [Json.lookup_put_of_ne h]
    rfl

namespace Graph

variable {G : Type} [DirectedGraph G] {x y z : G}

/-- The vertex of a node. -/
def vertexOf (n : Node) : Text × Option Label :=
  (n.name, some ⟨n.kind, nameSet n.categories⟩)

/-- The edges from a node with these roles and parents, by name: in the order of the first mention,
and inheriting wherever there is a parent. -/
def edgesOut (roles parents : List Text) : List (Text × Relation) :=
  (roles ++ parents).eraseDups.map fun t => (t, if t ∈ parents then .inherits else .composes)

/-- The edges from one vertex are these now, and everything else is as it was. -/
structure Directs (x y : G) (s : Text) (out : List (Text × Relation)) : Prop where
  vertices : vertices y = vertices x
  self : targets y s = out
  others : ∀ u ≠ s, targets y u = targets x u

theorem Directs.trans {s : Text} {out out' : List (Text × Relation)} (h : Directs x y s out)
    (h' : Directs y z s out') : Directs x z s out' where
  vertices := h'.vertices.trans h.vertices
  self := h'.self
  others u hu := (h'.others u hu).trans (h.others u hu)

variable [LawfulDirectedGraph G]

/-! ## Vertices -/

theorem vertices_foldl_addNode (ns : List Node) (x : G) :
    vertices (ns.foldl addNode x) = ns.foldl
      (fun vs n => Json.put n.name (some ⟨n.kind, nameSet n.categories⟩) vs) (vertices x) := by
  induction ns generalizing x with
  | nil => rfl
  | cons n ns ih =>
    rw [List.foldl_cons, List.foldl_cons, ih, addNode, LawfulDirectedGraph.vertices_addVertex]

theorem targets_foldl_addNode (ns : List Node) (x : G) (s : Text) :
    targets (ns.foldl addNode x) s = targets x s := by
  induction ns generalizing x with
  | nil => rfl
  | cons n ns ih => rw [List.foldl_cons, ih, addNode, LawfulDirectedGraph.targets_addVertex]

/-- Nodes of different names are vertices in the same order. -/
theorem vertices_nodes {ns : List Node} (h : (ns.map (·.name)).Nodup) :
    vertices (ns.foldl addNode (DirectedGraph.empty : G)) = ns.map vertexOf := by
  have hkeys : ((ns.map vertexOf).map (·.1)).Nodup := by
    rw [List.map_map]
    exact h
  rw [vertices_foldl_addNode, LawfulDirectedGraph.vertices_empty, ← Json.fields_of_nodup hkeys,
    Json.fields, List.foldl_map]
  rfl

/-! ## Edges -/

theorem addEnd_of_mem {s : Text} {vs : List (Text × Option Label)} (h : s ∈ vs.map (·.1)) :
    Adjacency.addEnd s vs = vs :=
  if_pos (List.contains_iff_mem.2 h)

/-- Between vertices, edges of one relation are added behind those that are there, which take the
relation where they lead to the same vertex. -/
theorem directs_foldl_addEdge {s : Text} {ks ts : List Text} {f : Text → Relation} (r : Relation)
    (hs : s ∈ (vertices x).map (·.1)) (hts : ∀ t ∈ ts, t ∈ (vertices x).map (·.1))
    (hks : ks.Nodup) (hout : targets x s = ks.map fun k => (k, f k)) :
    Directs x (ts.foldl (fun x t => addEdge x s t r) x) s
      ((ts.foldl addNew ks).map fun k => (k, if k ∈ ts then r else f k)) := by
  have hfold : Directs x (ts.foldl (fun x t => addEdge x s t r) x) s
      (ts.foldl (fun out t => Json.put t r out) (targets x s)) := by
    clear hout
    induction ts generalizing x with
    | nil => exact ⟨rfl, rfl, fun _ _ => rfl⟩
    | cons t ts ih =>
      obtain ⟨ht, hts⟩ := List.forall_mem_cons.1 hts
      have hvertices : vertices (addEdge x s t r) = vertices x := by
        rw [LawfulDirectedGraph.vertices_addEdge, addEnd_of_mem hs, addEnd_of_mem ht]
      have hstep : Directs x (addEdge x s t r) s (Json.put t r (targets x s)) :=
        ⟨hvertices, LawfulDirectedGraph.targets_addEdge_self x s t r,
          fun u hu => LawfulDirectedGraph.targets_addEdge_of_ne x hu t r⟩
      have hrest := ih (hvertices ▸ hs) (hvertices ▸ hts)
      rw [LawfulDirectedGraph.targets_addEdge_self] at hrest
      exact hstep.trans hrest
  rw [hout, Json.foldl_put _ hks] at hfold
  exact hfold

/-- The edges of a node are added at once, roles before parents. -/
theorem directs_addEdges {ns : Nodes} {n : Node} (hn : n.name ∈ (vertices x).map (·.1))
    (hends : ∀ t ∈ ns.names n.roles ++ ns.names n.parents, t ∈ (vertices x).map (·.1))
    (hnone : targets x n.name = []) :
    Directs x (addEdges ns x n) n.name (edgesOut (ns.names n.roles) (ns.names n.parents)) := by
  have hroles := directs_foldl_addEdge (f := fun _ => .composes) .composes hn
    (fun t ht => hends t (List.mem_append_left _ ht)) List.nodup_nil hnone
  have hadded : (ns.names n.roles).foldl addNew [] = (ns.names n.roles).eraseDups :=
    foldl_addNew _ []
  rw [hadded] at hroles
  have hparents := directs_foldl_addEdge .inherits (hroles.vertices ▸ hn)
    (fun t ht => hroles.vertices ▸ hends t (List.mem_append_right _ ht)) (nodup_eraseDups _)
    hroles.self
  rw [foldl_addNew] at hparents
  have hout : edgesOut (ns.names n.roles) (ns.names n.parents) =
      (ns.names n.roles ++ ns.names n.parents).eraseDups.map fun t =>
        (t, if t ∈ ns.names n.parents then .inherits
          else if t ∈ ns.names n.roles then .composes else .composes) :=
    List.map_congr_left fun t _ => by rw [ite_self]
  rw [hout]
  exact hroles.trans hparents

/-- The edges of nodes of different names do not get in each other's way. -/
theorem foldl_addEdges (ns : Nodes) {l : List Node} (hnames : (l.map (·.name)).Nodup)
    (hvertices : ∀ n ∈ l, n.name ∈ (vertices x).map (·.1))
    (hends : ∀ n ∈ l, ∀ t ∈ ns.names n.roles ++ ns.names n.parents, t ∈ (vertices x).map (·.1))
    (hnone : ∀ n ∈ l, targets x n.name = []) :
    vertices (l.foldl (addEdges ns) x) = vertices x ∧
      (∀ n ∈ l, targets (l.foldl (addEdges ns) x) n.name =
        edgesOut (ns.names n.roles) (ns.names n.parents)) ∧
      ∀ u ∉ l.map (·.name), targets (l.foldl (addEdges ns) x) u = targets x u := by
  induction l generalizing x with
  | nil => exact ⟨rfl, fun _ h => absurd h List.not_mem_nil, fun _ _ => rfl⟩
  | cons n l ih =>
    obtain ⟨hnew, hnames⟩ := List.nodup_cons.1 hnames
    have hstep := directs_addEdges (hvertices n List.mem_cons_self) (hends n List.mem_cons_self)
      (hnone n List.mem_cons_self)
    have hother : ∀ m ∈ l, m.name ≠ n.name := fun m hm =>
      ne_of_mem_of_not_mem (List.mem_map_of_mem hm) hnew
    obtain ⟨hsame, hout, hrest⟩ := ih hnames
      (fun m hm => hstep.vertices ▸ hvertices m (List.mem_cons_of_mem n hm))
      (fun m hm => hstep.vertices ▸ hends m (List.mem_cons_of_mem n hm))
      (fun m hm => (hstep.others _ (hother m hm)).trans (hnone m (List.mem_cons_of_mem n hm)))
    refine ⟨hsame.trans hstep.vertices, List.forall_mem_cons.2 ⟨?_, hout⟩, fun u hu => ?_⟩
    · exact (hrest n.name hnew).trans hstep.self
    · rw [List.map_cons, List.mem_cons, not_or] at hu
      exact (hrest u hu.2).trans (hstep.others u hu.1)

/-! ## The whole graph -/

/-- The directed graph shows the types of the registry, in its order and labelled, and all edges
between them but no other: one for each pair, which inherits if the target is a parent, in the order
in which the roles and then the parents first mention their targets. -/
structure Exports (g : Graph) (x : G) : Prop where
  names : (vertices x).map (·.1) = g.names
  label : ∀ n ∈ g.nodes, ∃ l : Label, (n.name, some l) ∈ vertices x ∧ l.kind = n.kind ∧
    l.categories.Pairwise (· < ·) ∧ ∀ t, t ∈ l.categories ↔ t ∈ n.categories
  edge_iff : ∀ s t r, (t, r) ∈ targets x s ↔ ∃ n ∈ g.nodes, n.name = s ∧ ∃ i, g.nodes.name i = t ∧
    (i ∈ n.parents ∧ r = .inherits ∨ i ∈ n.roles ∧ i ∉ n.parents ∧ r = .composes)
  once : ∀ s, ((targets x s).map (·.1)).Nodup
  order : ∀ n ∈ g.nodes, (targets x n.name).map (·.1) =
    (g.nodes.names (n.roles ++ n.parents)).eraseDups

theorem keys_edgesOut (roles parents : List Text) :
    (edgesOut roles parents).map (·.1) = (roles ++ parents).eraseDups := by
  unfold edgesOut
  rw [List.map_map]
  exact List.map_id _

theorem mem_edgesOut {roles parents : List Text} {t : Text} {r : Relation} :
    (t, r) ∈ edgesOut roles parents ↔
      t ∈ parents ∧ r = .inherits ∨ t ∈ roles ∧ t ∉ parents ∧ r = .composes := by
  simp only [edgesOut, List.mem_map, List.mem_eraseDups, List.mem_append, Prod.mk.injEq]
  constructor
  · rintro ⟨t, hmem, rfl, rfl⟩
    by_cases hparent : t ∈ parents
    · exact .inl ⟨hparent, if_pos hparent⟩
    · exact .inr ⟨hmem.resolve_right hparent, hparent, if_neg hparent⟩
  · rintro (⟨hparent, rfl⟩ | ⟨hrole, hparent, rfl⟩)
    · exact ⟨t, .inr hparent, rfl, if_pos hparent⟩
    · exact ⟨t, .inl hrole, rfl, if_neg hparent⟩

theorem mem_names_nodes {ns : Nodes} {is : List Nat} {t : Text} :
    t ∈ ns.names is ↔ ∃ i ∈ is, ns.name i = t :=
  List.mem_map

/-- Different nodes have different names, so an edge is known by the names of its ends. -/
theorem mem_edgesOut_names {ns : Nodes} (hns : ns.Intact) {n : Node} (hn : n ∈ ns) {t : Text}
    {r : Relation} : (t, r) ∈ edgesOut (ns.names n.roles) (ns.names n.parents) ↔
      ∃ i, ns.name i = t ∧
        (i ∈ n.parents ∧ r = .inherits ∨ i ∈ n.roles ∧ i ∉ n.parents ∧ r = .composes) := by
  obtain ⟨k, hk, rfl⟩ := Array.mem_iff_getElem.1 hn
  have hnode := Array.getElem?_eq_getElem hk
  have hparents := hns.wellFormed.parents_closed k
  have hroles := hns.wellFormed.roles_closed k
  rw [Nodes.parents_of_getElem? hnode] at hparents
  rw [Nodes.roles_of_getElem? hnode] at hroles
  -- a role with the name of a parent is that parent
  have hsame : ∀ i ∈ ns[k].roles, ns.name i ∈ ns.names ns[k].parents ↔ i ∈ ns[k].parents := by
    intro i hi
    rw [mem_names_nodes]
    constructor
    · rintro ⟨p, hp, hname⟩
      rwa [← hns.injective p i (hparents p hp) (hroles i hi) hname]
    · exact fun hp => ⟨i, hp, rfl⟩
  rw [mem_edgesOut]
  constructor
  · rintro (⟨hparent, hr⟩ | ⟨hrole, hnone, hr⟩)
    · obtain ⟨i, hi, rfl⟩ := mem_names_nodes.1 hparent
      exact ⟨i, rfl, .inl ⟨hi, hr⟩⟩
    · obtain ⟨i, hi, rfl⟩ := mem_names_nodes.1 hrole
      exact ⟨i, rfl, .inr ⟨hi, mt (hsame i hi).2 hnone, hr⟩⟩
  · rintro ⟨i, rfl, ⟨hi, hr⟩ | ⟨hi, hnone, hr⟩⟩
    · exact .inl ⟨mem_names_nodes.2 ⟨i, hi, rfl⟩, hr⟩
    · exact .inr ⟨mem_names_nodes.2 ⟨i, hi, rfl⟩, mt (hsame i hi).1 hnone, hr⟩

/-- All edges lead to vertices that are there already. -/
theorem ends_mem_names {g : Graph} (hg : g.nodes.Intact) {n : Node} (hn : n ∈ g.nodes) :
    ∀ t ∈ g.nodes.names n.roles ++ g.nodes.names n.parents, t ∈ g.names := by
  intro t ht
  obtain ⟨k, hk, rfl⟩ := Array.mem_iff_getElem.1 hn
  have hnode := Array.getElem?_eq_getElem hk
  rw [mem_names_iff]
  rcases List.mem_append.1 ht with ht | ht
  · obtain ⟨i, hi, rfl⟩ := mem_names_nodes.1 ht
    rw [← Nodes.roles_of_getElem? hnode] at hi
    exact ⟨i, hg.wellFormed.roles_closed k i hi, rfl⟩
  · obtain ⟨i, hi, rfl⟩ := mem_names_nodes.1 ht
    rw [← Nodes.parents_of_getElem? hnode] at hi
    exact ⟨i, hg.wellFormed.parents_closed k i hi, rfl⟩

theorem exports_of_intact {g : Graph} (hg : g.nodes.Intact) : Exports g (g.toDirected : G) := by
  have hnodup : (g.nodes.toList.map (·.name)).Nodup := nodup_names hg.wellFormed
  have hstart := vertices_nodes (G := G) hnodup
  have hkeys :
      (vertices (g.nodes.toList.foldl addNode (DirectedGraph.empty : G))).map (·.1) = g.names := by
    rw [hstart, List.map_map]
    rfl
  have hnone (s : Text) :
      targets (g.nodes.toList.foldl addNode (DirectedGraph.empty : G)) s = [] := by
    rw [targets_foldl_addNode, LawfulDirectedGraph.targets_empty]
  obtain ⟨hvertices, hout, hothers⟩ := foldl_addEdges g.nodes hnodup
    (fun n hn => hkeys ▸ List.mem_map_of_mem hn)
    (fun n hn => hkeys ▸ ends_mem_names hg (Array.mem_toList_iff.1 hn)) fun n _ => hnone n.name
  replace hout (n : Node) (hn : n ∈ g.nodes) : targets (g.toDirected : G) n.name =
      edgesOut (g.nodes.names n.roles) (g.nodes.names n.parents) :=
    hout n (Array.mem_toList_iff.2 hn)
  replace hothers (s : Text) (hs : s ∉ g.names) : targets (g.toDirected : G) s = [] :=
    (hothers s hs).trans (hnone s)
  have horder (n : Node) (hn : n ∈ g.nodes) : (targets (g.toDirected : G) n.name).map (·.1) =
      (g.nodes.names (n.roles ++ n.parents)).eraseDups := by
    rw [hout n hn, keys_edgesOut, Nodes.names, Nodes.names, Nodes.names, List.map_append]
  have hnode (s : Text) : s ∈ g.names ↔ ∃ n ∈ g.nodes, n.name = s := by
    simp only [names, List.mem_map, Array.mem_toList_iff]
  refine ⟨?_, ?_, ?_, ?_, horder⟩
  · exact (congrArg (List.map (·.1)) hvertices).trans hkeys
  · intro n hn
    have hvertex : vertexOf n ∈ vertices (g.toDirected : G) := by
      rw [toDirected, hvertices, hstart]
      exact List.mem_map_of_mem (Array.mem_toList_iff.2 hn)
    exact ⟨_, hvertex, rfl, pairwise_nameSet _, fun _ => mem_nameSet⟩
  · intro s t r
    constructor
    · intro hedge
      by_cases hs : s ∈ g.names
      · obtain ⟨n, hn, rfl⟩ := (hnode s).1 hs
        rw [hout n hn, mem_edgesOut_names hg hn] at hedge
        exact ⟨n, hn, rfl, hedge⟩
      · rw [hothers s hs] at hedge
        cases hedge
    · rintro ⟨n, hn, rfl, hedge⟩
      rw [hout n hn, mem_edgesOut_names hg hn]
      exact hedge
  · intro s
    by_cases hs : s ∈ g.names
    · obtain ⟨n, hn, rfl⟩ := (hnode s).1 hs
      rw [horder n hn]
      exact nodup_eraseDups _
    · rw [hothers s hs]
      exact List.nodup_nil

/-- Whatever is requested, the graph is handed on as it is. -/
theorem exports_session (c : Config) (rs : List Request) :
    Exports (session c rs) ((session c rs).toDirected : G) :=
  exports_of_intact (sound_session c rs).intact

/-- A role that is a parent as well keeps its place among the roles. -/
theorem exports_session_twice :
    ∃ g : Graph, Exports g (g.toDirected : Adjacency) ∧ g.names = ["A", "B", "R"] ∧
      targets (g.toDirected : Adjacency) "A" =
        [(("R" : Text), .composes), (("B" : Text), .inherits)] :=
  ⟨session {} [.ingest [
      { name := "A", parents := ["B", "B"], roles := ["R", "B", "R"] }]],
    exports_session _ _, by decide +kernel, by decide +kernel⟩

end Graph

end Lineage
