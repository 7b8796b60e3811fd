import Lineage.Proofs.Declaration.References
import Lineage.Proofs.Graph.Extension

/-!
# The registry after ingestion

Ingestion registers the names in the order in which they are mentioned first. A declaration mentions
its own name, then its parents, then its roles (`names_foldl_ingestOne`). With what each name shows
afterwards (`ingest_spec`) this settles the whole registry: nothing is lost, nothing is invented,
and it makes no difference how the declarations are split over several calls (`ingested_of_calls`).
-/

namespace Lineage

/-- All names of a declaration, in the order in which it mentions them. -/
def Declaration.mentions (d : Declaration) : List Text :=
  d.name :: (d.parents ++ d.roles)

namespace Graph

open Nodes

variable {g h : Graph} {link : Node → Nat → Node} {ns ns' : Nodes}

/-! ## Names in registry order -/

theorem getElem?_names (g : Graph) (i : Nat) : g.names[i]? = g.nodes[i]?.map (·.name) := by
  unfold names
  rw [List.getElem?_map, Array.getElem?_toList]

/-- Nodes that keep their names keep their places. -/
theorem names_eq_of_agreeOn (hnames : AgreeOn Node.name g.nodes h.nodes) : h.names = g.names := by
  apply List.ext_getElem?
  intro i
  rw [getElem?_names, getElem?_names, hnames i]

/-- A name that is new goes last. -/
theorem names_intern (g : Graph) (t : Text) : (g.intern t).1.names = addNew g.names t := by
  unfold intern addNew
  cases hfind : g.find? t with
  | some i =>
    have hmem : t ∈ g.names := by
      by_contra hno
      have hnone : g.find? t = none :=
        find?_eq_none_iff.2 fun i hi ht => hno (mem_names_iff.2 ⟨i, hi, ht⟩)
      rw [hnone] at hfind
      cases hfind
    rw [if_pos (List.contains_iff_mem.2 hmem)]
  | none =>
    have hnew : t ∉ g.names := by
      rw [mem_names_iff]
      rintro ⟨i, hi, ht⟩
      exact find?_eq_none_iff.1 hfind i hi ht
    rw [if_neg fun hmem => hnew (List.contains_iff_mem.1 hmem)]
    unfold names
    rw [Array.toList_push, List.map_append, List.map_singleton]

theorem names_modify {f : Node → Node} (hf : ∀ n, (f n).name = n.name) (g : Graph) (i : Nat) :
    (g.modify i f).names = g.names :=
  names_eq_of_agreeOn (agreeOn_modify hf)

theorem names_linkAll (hlink : ∀ n p, (link n p).name = n.name) (g : Graph) (i : Nat)
    (ts : List Text) : (g.linkAll link i ts).names = ts.foldl addNew g.names := by
  induction ts generalizing g with
  | nil => rfl
  | cons t ts ih =>
    -- linking keeps the names, so only the interning counts
    have hone : ((g.intern t).1.modify i (link · (g.intern t).2)).names = addNew g.names t := by
      rw [names_modify (fun n => hlink n _), names_intern]
    rw [List.foldl_cons, ← hone]
    exact ih _

theorem names_ingestOne (g : Graph) (d : Declaration) :
    (g.ingestOne d).names = d.mentions.foldl addNew g.names := by
  have hdescribed : ((g.intern d.name).1.modify (g.intern d.name).2
      fun n => { n with kind := d.kind, categories := d.categories }).names =
        addNew g.names d.name := by
    refine (names_modify ?_ _ _).trans (names_intern g d.name)
    exact fun _ => rfl
  unfold Declaration.mentions
  rw [List.foldl_cons, List.foldl_append, ← hdescribed,
    ← names_linkAll links_parent.name _ (g.intern d.name).2,
    ← names_linkAll links_role.name _ (g.intern d.name).2]
  rfl

theorem names_foldl_ingestOne (g : Graph) (ds : List Declaration) :
    (ds.foldl ingestOne g).names = (ds.flatMap (·.mentions)).foldl addNew g.names := by
  induction ds generalizing g with
  | nil => rfl
  | cons d ds ih => rw [List.foldl_cons, ih, names_ingestOne, List.flatMap_cons, List.foldl_append]

/-! ## No inverse edges yet -/

/-- No inverse edge has been entered. -/
def NoInverses (ns : Nodes) : Prop :=
  ∀ (i : Nat) n, ns[i]? = some n → inverses n = ([], [])

theorem NoInverses.of_agreeOn (h : NoInverses ns) (hns : AgreeOn inverses ns ns') :
    NoInverses ns' := by
  intro i n' hn'
  obtain ⟨n, hn, hinverses⟩ := hns.getElem? hn'
  rw [hinverses]
  exact h i n hn

theorem NoInverses.intern (h : NoInverses g.nodes) (t : Text) :
    NoInverses (g.intern t).1.nodes := by
  unfold Graph.intern
  cases g.find? t with
  | some i => exact h
  | none =>
    intro i n hn
    rw [Array.getElem?_push] at hn
    split at hn
    · cases hn
      rfl
    · exact h i n hn

theorem NoInverses.linkAll (hlink : ∀ n p, inverses (link n p) = inverses n)
    (h : NoInverses g.nodes) (i : Nat) (ts : List Text) :
    NoInverses (g.linkAll link i ts).nodes := by
  refine List.foldlRecOn (motive := fun g : Graph => NoInverses g.nodes) ts _ h ?_
  intro g hg t _
  exact (hg.intern t).of_agreeOn (agreeOn_modify fun n => hlink n _)

theorem NoInverses.foldl_ingestOne (h : NoInverses g.nodes) (ds : List Declaration) :
    NoInverses (ds.foldl ingestOne g).nodes := by
  refine List.foldlRecOn (motive := fun g : Graph => NoInverses g.nodes) ds _ h ?_
  intro g hg d _
  have hdescribed : NoInverses ((g.intern d.name).1.modify (g.intern d.name).2
      fun n => { n with kind := d.kind, categories := d.categories }).nodes :=
    (hg.intern d.name).of_agreeOn (agreeOn_modify fun _ => rfl)
  have hparent : ∀ (n : Node) p, inverses { n with parents := n.parents ++ [p] } = inverses n :=
    fun _ _ => rfl
  have hrole : ∀ (n : Node) r, inverses { n with roles := n.roles ++ [r] } = inverses n :=
    fun _ _ => rfl
  exact (hdescribed.linkAll hparent _ d.parents).linkAll hrole _ d.roles

/-! ## The registry -/

variable {c : Config} {ds : List Declaration}

theorem sameBesidesNodes_foldl_ingestOne (g : Graph) (ds : List Declaration) :
    SameBesidesNodes g (ds.foldl ingestOne g) :=
  List.foldlRecOn ds _ (sameBesidesNodes_withNodes g g.nodes) fun _ hg d _ =>
    hg.trans (sameBesidesNodes_ingestOne _ d)

theorem ingest_of_mutable (hmutable : g.frozen = false) (ds : List Declaration) :
    g.ingest ds = .ok (ds.foldl ingestOne g) := by
  unfold ingest
  rw [hmutable]
  rfl

/-- Declarations that are ingested call by call are ingested as if by one call. -/
theorem foldlM_ingest (hmutable : g.frozen = false) (calls : List (List Declaration)) :
    calls.foldlM ingest g = .ok (calls.flatten.foldl ingestOne g) := by
  induction calls generalizing g with
  | nil => rfl
  | cons ds calls ih =>
    -- the graph is still not frozen when the next call comes
    have hframe := sameBesidesNodes_foldl_ingestOne g ds
    rw [List.foldlM_cons, ingest_of_mutable hmutable, List.flatten_cons, List.foldl_append]
    exact ih (hframe.frozen.trans hmutable)

/-- Nodes of the registry are what it has under their names. -/
theorem map_find?_names (wf : g.nodes.WellFormed) {is : List Nat}
    (his : ∀ i ∈ is, i < g.nodes.size) : (g.nodes.names is).map g.find? = is.map some := by
  unfold Nodes.names
  rw [List.map_map]
  exact List.map_congr_left fun i hi => (find?_eq_some_iff wf).2 ⟨his i hi, rfl⟩

theorem entry_of_declared (wf : g.nodes.WellFormed) (hview : g.nodes.view = declared ds) {i : Nat}
    {n : Node} (hn : g.nodes[i]? = some n) :
    g.nodes.entry n = .ofDeclarations (ds.filter (·.name == n.name)) := by
  have hentry := view_of_getElem? wf hn
  rw [hview] at hentry
  unfold declared at hentry
  split at hentry
  · exact (Option.some.inj hentry).symm
  · cases hentry

/-- The registry holds what the declarations say, and nothing else. -/
structure Ingested (c : Config) (ds : List Declaration) (g : Graph) : Prop where
  /-- The names are those mentioned, in the order in which each is mentioned first. -/
  names : g.names = (ds.flatMap (·.mentions)).eraseDups
  /-- Each name is that of one node. -/
  find?_eq_some_iff : ∀ t i, g.find? t = some i ↔ i < g.size ∧ g.nodes.name i = t
  /-- The parents of all declarations of a name, in order; each of them is the node of its name. -/
  parents : ∀ (i : Nat) n, g.nodes[i]? = some n →
    n.parents.map some = ((ds.filter (·.name == n.name)).flatMap (·.parents)).map g.find?
  roles : ∀ (i : Nat) n, g.nodes[i]? = some n →
    n.roles.map some = ((ds.filter (·.name == n.name)).flatMap (·.roles)).map g.find?
  /-- The last declaration of a name decides on its kind and its categories. -/
  last : ∀ (i : Nat) n d, g.nodes[i]? = some n →
    (ds.filter (·.name == n.name)).getLast? = some d → n.kind = d.kind ∧ n.categories = d.categories
  /-- A name that is only referred to is a class without categories. -/
  undeclared : ∀ (i : Nat) n, g.nodes[i]? = some n → (∀ d ∈ ds, d.name ≠ n.name) →
    n.kind = .ofClass ∧ n.categories = []
  inverses : ∀ (i : Nat) n, g.nodes[i]? = some n → n.children = [] ∧ n.doers = []
  /-- Nothing is memoized, and nothing else in the graph has changed. -/
  frame : g = { config := c, nodes := g.nodes }

theorem ingested_foldl_ingestOne (c : Config) (ds : List Declaration) :
    Ingested c ds (ds.foldl ingestOne { config := c }) := by
  obtain ⟨g, hg, hframe, wf, hview⟩ := ingest_spec ds c
  obtain rfl : ds.foldl ingestOne { config := c } = g := by
    rw [ingest_of_mutable rfl] at hg
    exact Except.ok.inj hg
  have hentry := fun (i : Nat) n (hn : (ds.foldl ingestOne { config := c }).nodes[i]? = some n) =>
    entry_of_declared wf hview hn
  refine ⟨?_, fun t i => find?_eq_some_iff wf, ?_, ?_, ?_, ?_, ?_, ?_⟩
  · rw [names_foldl_ingestOne]
    exact foldl_addNew _ []
  · intro i n hn
    have hnames := congrArg Entry.parents (hentry i n hn)
    rw [← parents_of_getElem? hn, ← map_find?_names wf (wf.parents_closed i),
      parents_of_getElem? hn]
    exact congrArg (List.map _) hnames
  · intro i n hn
    have hnames := congrArg Entry.roles (hentry i n hn)
    rw [← roles_of_getElem? hn, ← map_find?_names wf (wf.roles_closed i), roles_of_getElem? hn]
    exact congrArg (List.map _) hnames
  · intro i n d hn hd
    have hkind := congrArg Entry.kind (hentry i n hn)
    have hcategories := congrArg Entry.categories (hentry i n hn)
    unfold Entry.ofDeclarations at hkind hcategories
    rw [hd] at hkind hcategories
    exact ⟨hkind, hcategories⟩
  · intro i n hn hno
    have hempty := hentry i n hn
    rw [filter_eq_nil_of_undeclared hno] at hempty
    exact ⟨congrArg Entry.kind hempty, congrArg Entry.categories hempty⟩
  · intro i n hn
    have hnone : NoInverses ({ config := c } : Graph).nodes := fun i n hn => by cases hn
    exact Prod.mk.inj (hnone.foldl_ingestOne ds i n hn)
  · rw [Graph.mk.injEq]
    exact ⟨hframe.config, rfl, hframe.memo, hframe.sorted, hframe.frozen⟩

/-- Declarations are ingested into an empty graph without fail, however they are split over calls.
The registry then holds the names mentioned in the order in which they are mentioned first, and each
name has one node, to which every reference to it leads. A node has the parents and the roles of all
declarations of its name and the kind and the categories of the last one; if there is none, it is a
class without categories. No inverse edge has been entered and nothing has been memoized. -/
theorem ingested_of_calls (c : Config) (calls : List (List Declaration)) :
    ∃ g, calls.foldlM ingest ({ config := c } : Graph) = .ok g ∧ Ingested c calls.flatten g :=
  ⟨_, foldlM_ingest rfl calls, ingested_foldl_ingestOne c calls.flatten⟩

end Graph

end Lineage
