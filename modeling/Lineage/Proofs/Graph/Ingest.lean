import Lineage.Declaration.References
import Lineage.Graph.Build
import Lineage.Proofs.Graph.View
import Mathlib.Data.List.Induction

/-!
# What the declarations put into the registry

Ingestion meets the declarations one after the other. What a name shows afterwards depends on the
declarations of that name, in their order, and on whether the name is mentioned at all:

* a name is registered if and only if some declaration mentions it (`ingest_spec`);
* its parents and its roles are those of all its declarations in a row;
* its kind and its categories are those of its last declaration.

So declarations of different names may change places (`declared_eq_of_perm`).
-/

open Relation (TransGen)

namespace Lineage

/-! ## Declared entries -/

/-- Whether some declaration mentions a name, as declared or as a target. -/
def Mentioned (ds : List Declaration) (t : Text) : Prop :=
  ∃ d ∈ ds, t = d.name ∨ t ∈ d.parents ∨ t ∈ d.roles

/-- What a name shows of its own declarations. -/
def Entry.ofDeclarations (own : List Declaration) : Entry :=
  { kind := (own.getLast?.map (·.kind)).getD .ofClass
    categories := (own.getLast?.map (·.categories)).getD []
    parents := own.flatMap (·.parents)
    roles := own.flatMap (·.roles) }

instance (ds : List Declaration) (t : Text) : Decidable (Mentioned ds t) :=
  inferInstanceAs (Decidable (∃ d ∈ ds, t = d.name ∨ t ∈ d.parents ∨ t ∈ d.roles))

/-- What the declarations say of a name, if they mention it. -/
def declared (ds : List Declaration) : View := fun t =>
  if Mentioned ds t then some (.ofDeclarations (ds.filter (·.name == t))) else none

/-- Some declaration of the first name refers to the second one through the relation. -/
def DeclaredEdge (ds : List Declaration) (r : Relation) (a b : Text) : Prop :=
  ∃ d ∈ ds, d.name = a ∧ b ∈ d.targets r

/-- What a name shows once one more declaration has been met. -/
def Declaration.enter (d : Declaration) (t : Text) (e : Option Entry) : Option Entry :=
  if t = d.name then
    some { kind := d.kind, categories := d.categories
           parents := (e.getD {}).parents ++ d.parents, roles := (e.getD {}).roles ++ d.roles }
  else if t ∈ d.parents ∨ t ∈ d.roles then some (e.getD {})
  else e

theorem mentioned_append_singleton {ds : List Declaration} {d : Declaration} {t : Text} :
    Mentioned (ds ++ [d]) t ↔ Mentioned ds t ∨ t = d.name ∨ t ∈ d.parents ∨ t ∈ d.roles := by
  unfold Mentioned
  simp only [List.mem_append, List.mem_singleton, or_and_right, exists_or, exists_eq_left]

theorem filter_eq_nil_of_undeclared {ds : List Declaration} {t : Text}
    (h : ∀ d ∈ ds, d.name ≠ t) : ds.filter (·.name == t) = [] := by
  rw [List.filter_eq_nil_iff]
  intro d hd ht
  exact h d hd (beq_iff_eq.1 ht)

/-- A name that is not mentioned has no declaration. -/
theorem filter_eq_nil_of_not_mentioned {ds : List Declaration} {t : Text} (h : ¬ Mentioned ds t) :
    ds.filter (·.name == t) = [] :=
  filter_eq_nil_of_undeclared fun d hd ht => h ⟨d, hd, Or.inl ht.symm⟩

/-- What a name shows of its declarations, also if it is not mentioned. -/
theorem getD_declared (ds : List Declaration) (t : Text) :
    (declared ds t).getD {} = .ofDeclarations (ds.filter (·.name == t)) := by
  unfold declared
  split
  · rfl
  · rename_i h
    rw [filter_eq_nil_of_not_mentioned h]
    rfl

/-- Meeting a declaration puts it behind those met before. -/
theorem enter_declared (ds : List Declaration) (d : Declaration) (t : Text) :
    d.enter t (declared ds t) = declared (ds ++ [d]) t := by
  unfold Declaration.enter
  rw [getD_declared]
  unfold declared
  rw [List.filter_append]
  by_cases ht : t = d.name
  · -- the name declared: the declaration counts as its last one
    have hself : [d].filter (·.name == t) = [d] := by
      rw [List.filter_cons_of_pos (by simp [ht]), List.filter_nil]
    rw [if_pos ht, if_pos (mentioned_append_singleton.2 (Or.inr (Or.inl ht))), hself]
    unfold Entry.ofDeclarations
    simp only [List.getLast?_append, List.getLast?_singleton, Option.some_or, Option.map_some,
      Option.getD_some, List.flatMap_append, List.flatMap_singleton]
  · -- another name only becomes known, if it was not mentioned before
    have hother : [d].filter (·.name == t) = [] := by
      rw [List.filter_cons_of_neg (by simpa using Ne.symm ht), List.filter_nil]
    rw [if_neg ht, hother, List.append_nil]
    by_cases hmem : t ∈ d.parents ∨ t ∈ d.roles
    · rw [if_pos hmem, if_pos (mentioned_append_singleton.2 (Or.inr (Or.inr hmem)))]
    · have hiff : Mentioned (ds ++ [d]) t ↔ Mentioned ds t := by
        rw [mentioned_append_singleton]
        simp only [ht, hmem, or_false]
      rw [if_neg hmem]
      exact (if_congr hiff rfl rfl).symm

theorem foldl_enter (ds : List Declaration) (t : Text) :
    ds.foldl (fun e d => d.enter t e) none = declared ds t := by
  induction ds using List.reverseRecOn with
  | nil =>
    unfold declared Mentioned
    simp
  | append_singleton ds d ih =>
    rw [List.foldl_append, ih]
    exact enter_declared ds d t

/-- What the entry of a name shows is what its declarations refer to. -/
theorem declaredEdge_iff {ds : List Declaration} {r : Relation} {a b : Text} :
    DeclaredEdge ds r a b ↔ b ∈ (ds.filter (·.name == a)).flatMap (·.targets r) := by
  unfold DeclaredEdge
  simp only [List.mem_flatMap, List.mem_filter, beq_iff_eq, and_assoc]

theorem parents_declared (ds : List Declaration) (t : Text) :
    (declared ds).parents t = (ds.filter (·.name == t)).flatMap (·.parents) := by
  unfold View.parents declared
  split
  · rfl
  · rename_i h
    rw [filter_eq_nil_of_not_mentioned h]
    rfl

theorem roles_declared (ds : List Declaration) (t : Text) :
    (declared ds).roles t = (ds.filter (·.name == t)).flatMap (·.roles) := by
  unfold View.roles declared
  split
  · rfl
  · rename_i h
    rw [filter_eq_nil_of_not_mentioned h]
    rfl

/-- The declared roles of a name lead along the edges that its declarations compose. -/
theorem step_roles_declared_iff {ds : List Declaration} {a b : Text} :
    Step (declared ds).roles a b ↔ DeclaredEdge ds .composes a b := by
  rw [declaredEdge_iff, Step, roles_declared]
  rfl

theorem step_roles_declared (ds : List Declaration) :
    Step (declared ds).roles = DeclaredEdge ds .composes := by
  funext a b
  exact propext step_roles_declared_iff

theorem acyclic_roles_declared_iff {ds : List Declaration} :
    Acyclic (declared ds).roles ↔ ∀ t, ¬ TransGen (DeclaredEdge ds .composes) t t := by
  unfold Acyclic
  rw [step_roles_declared]

/-- The declared parents of a name lead along the edges that its declarations inherit. -/
theorem step_parents_declared_iff {ds : List Declaration} {a b : Text} :
    Step (declared ds).parents a b ↔ DeclaredEdge ds .inherits a b := by
  rw [declaredEdge_iff, Step, parents_declared]
  rfl

theorem mentioned_of_declaredEdge {ds : List Declaration} {r : Relation} {a b : Text}
    (h : DeclaredEdge ds r a b) : Mentioned ds a ∧ Mentioned ds b := by
  obtain ⟨d, hd, rfl, hb⟩ := h
  refine ⟨⟨d, hd, Or.inl rfl⟩, ⟨d, hd, Or.inr ?_⟩⟩
  cases r with
  | inherits => exact Or.inl hb
  | composes => exact Or.inr hb

/-- Declarations of different names may change places. -/
theorem declared_eq_of_perm {ds ds' : List Declaration} (hperm : ds.Perm ds')
    (hown : ∀ t, ds.filter (·.name == t) = ds'.filter (·.name == t)) :
    declared ds = declared ds' := by
  funext t
  have hmentioned : Mentioned ds t ↔ Mentioned ds' t := by
    unfold Mentioned
    simp only [hperm.mem_iff]
  unfold declared
  rw [hown t]
  exact if_congr hmentioned rfl rfl

namespace Graph

/-! ## Links -/

/-- A way to link a node to another one, and what the link does to the entry. -/
structure Links (link : Node → Nat → Node) (linkEntry : Entry → Text → Entry) : Prop where
  name : ∀ n p, (link n p).name = n.name
  edges : ∀ n p, ∀ d ∈ (link n p).parents ++ (link n p).roles, d ∈ n.parents ++ n.roles ∨ d = p
  entry : ∀ (ns : Nodes) n p, ns.entry (link n p) = linkEntry (ns.entry n) (ns.name p)

theorem links_parent : Links (fun n p => { n with parents := n.parents ++ [p] })
    (fun e p => { e with parents := e.parents ++ [p] }) := by
  refine ⟨fun _ _ => rfl, ?_, ?_⟩
  · intro n p d hd
    simp only [List.mem_append, List.mem_singleton] at hd ⊢
    tauto
  · intro ns n p
    unfold Nodes.entry Nodes.names
    simp only [List.map_append, List.map_singleton]

theorem links_role : Links (fun n r => { n with roles := n.roles ++ [r] })
    (fun e r => { e with roles := e.roles ++ [r] }) := by
  refine ⟨fun _ _ => rfl, ?_, ?_⟩
  · intro n r d hd
    simp only [List.mem_append, List.mem_singleton] at hd ⊢
    tauto
  · intro ns n r
    unfold Nodes.entry Nodes.names
    simp only [List.map_append, List.map_singleton]

variable {g : Graph} {i : Nat} {link : Node → Nat → Node} {linkEntry : Entry → Text → Entry}

/-- Linking a node to a name registers the name and links the entry of the node. -/
theorem linkOne_spec (hlink : Links link linkEntry) (t : Text) (wf : g.nodes.WellFormed)
    (hi : i < g.nodes.size) {h : Graph}
    (hh : h = (g.intern t).1.modify i (link · (g.intern t).2)) :
    h.nodes.WellFormed ∧ i < h.nodes.size ∧ h.nodes.name i = g.nodes.name i ∧
      ∀ s, h.nodes.view s =
        if s = g.nodes.name i then (g.nodes.view s).map (linkEntry · t)
        else if s = t then some ((g.nodes.view s).getD {})
        else g.nodes.view s := by
  subst hh
  obtain ⟨wf₁, htarget, htname, hold, hview₁⟩ := intern_spec wf t
  obtain ⟨hi₁, hname₁⟩ := hold i hi
  obtain ⟨n, hn⟩ := Nodes.exists_of_lt_size hi₁
  have hnname : n.name = g.nodes.name i := by
    rw [← hname₁, Nodes.name_of_getElem? hn]
  have hkeep : ∀ n, (link n (g.intern t).2).name = n.name := fun n => hlink.name n _
  -- the link leads to a node that exists
  have wf₂ : Nodes.WellFormed ((g.intern t).1.nodes.modify i (link · (g.intern t).2)) := by
    refine wf₁.modify hkeep ?_
    intro m hm d hd
    rcases hlink.edges m _ d hd with hd | rfl
    · rw [← Nodes.dependencies_of_getElem? hm] at hd
      exact wf₁.closed i d hd
    · exact htarget
  refine ⟨wf₂, ?_, ?_, ?_⟩
  · show i < ((g.intern t).1.nodes.modify i (link · (g.intern t).2)).size
    rw [Array.size_modify]
    exact hi₁
  · show Nodes.name ((g.intern t).1.nodes.modify i (link · (g.intern t).2)) i = _
    rw [Nodes.name_modify hkeep, hname₁]
  · intro s
    refine (Nodes.view_modify wf₁ hkeep wf₂ hn s).trans ?_
    rw [hnname, hlink.entry, htname]
    by_cases hs : s = g.nodes.name i
    · -- the node showed before the target was registered
      obtain ⟨m, hm⟩ := Nodes.exists_of_lt_size hi
      have hbefore := Nodes.view_of_getElem? wf hm
      have hafter := Nodes.view_of_getElem? wf₁ hn
      rw [← Nodes.name_of_getElem? hm, ← hs] at hbefore
      rw [hnname, ← hs, hview₁ s, hbefore, Option.getD_some, ite_self] at hafter
      rw [if_pos hs, if_pos hs, hbefore, hafter, Option.map_some]
    · rw [if_neg hs, if_neg hs, hview₁ s]

/-- Linking a node to names registers the names and links the entry to them in order. -/
theorem linkAll_spec (hlink : Links link linkEntry) (names : List Text)
    (wf : g.nodes.WellFormed) (hi : i < g.nodes.size) :
    (g.linkAll link i names).nodes.WellFormed ∧
      i < (g.linkAll link i names).nodes.size ∧
      (g.linkAll link i names).nodes.name i = g.nodes.name i ∧
      ∀ s, (g.linkAll link i names).nodes.view s =
        if s = g.nodes.name i then (g.nodes.view s).map (names.foldl linkEntry)
        else if s ∈ names then some ((g.nodes.view s).getD {})
        else g.nodes.view s := by
  induction names generalizing g with
  | nil =>
    refine ⟨wf, hi, rfl, ?_⟩
    intro s
    show g.nodes.view s = _
    simp
  | cons t names ih =>
    obtain ⟨wf₁, hi₁, hname₁, hview₁⟩ := linkOne_spec hlink t wf hi rfl
    obtain ⟨wf₂, hi₂, hname₂, hview₂⟩ := ih wf₁ hi₁
    refine ⟨wf₂, hi₂, hname₂.trans hname₁, ?_⟩
    intro s
    refine (hview₂ s).trans ?_
    rw [hname₁, hview₁ s]
    by_cases hs : s = g.nodes.name i
    · rw [if_pos hs, if_pos hs, if_pos hs, Option.map_map]
      rfl
    · rw [if_neg hs, if_neg hs, if_neg hs]
      by_cases hst : s = t
      · simp [hst]
      · simp [hst]

/-- Linking changes nothing but the registry. -/
theorem sameBesidesNodes_linkAll (names : List Text) :
    SameBesidesNodes g (g.linkAll link i names) := by
  induction names generalizing g with
  | nil => exact ⟨rfl, rfl, rfl, rfl⟩
  | cons t names ih =>
    exact (sameBesidesNodes_intern g t).trans ((sameBesidesNodes_modify _ _ _).trans ih)

/-! ## Declarations -/

/-- Describing the node of a name sets the kind and the categories of its entry. -/
theorem describe_spec (d : Declaration) (wf : g.nodes.WellFormed) (hi : i < g.nodes.size)
    (hname : g.nodes.name i = d.name) {h : Graph}
    (hh : h = g.modify i fun n => { n with kind := d.kind, categories := d.categories }) :
    h.nodes.WellFormed ∧ i < h.nodes.size ∧ h.nodes.name i = d.name ∧
      ∀ s, h.nodes.view s =
        if s = d.name then
          (g.nodes.view s).map fun e => { e with kind := d.kind, categories := d.categories }
        else g.nodes.view s := by
  subst hh
  obtain ⟨n, hn⟩ := Nodes.exists_of_lt_size hi
  have hnname : n.name = d.name := by
    rw [← hname, Nodes.name_of_getElem? hn]
  have hkeep : ∀ n : Node,
      { n with kind := d.kind, categories := d.categories : Node }.name = n.name := fun _ => rfl
  -- neither the name nor an edge changes
  have wf₁ : Nodes.WellFormed (g.nodes.modify i fun n =>
      { n with kind := d.kind, categories := d.categories }) := by
    refine wf.modify hkeep ?_
    intro m hm e he
    rw [← Nodes.dependencies_of_getElem? hm] at he
    exact wf.closed i e he
  refine ⟨wf₁, ?_, ?_, ?_⟩
  · show i < (g.nodes.modify i _).size
    rw [Array.size_modify]
    exact hi
  · show Nodes.name (g.nodes.modify i _) i = _
    rw [Nodes.name_modify hkeep, hname]
  · intro s
    refine (Nodes.view_modify wf hkeep wf₁ hn s).trans ?_
    rw [hnname]
    split
    · rename_i hs
      rw [hs, ← hnname, Nodes.view_of_getElem? wf hn]
      rfl
    · rfl

theorem foldl_parents (ps : List Text) (e : Entry) :
    ps.foldl (fun e p => { e with parents := e.parents ++ [p] }) e =
      { e with parents := e.parents ++ ps } := by
  induction ps generalizing e with
  | nil => simp
  | cons p ps ih => simp [ih]

theorem foldl_roles (rs : List Text) (e : Entry) :
    rs.foldl (fun e r => { e with roles := e.roles ++ [r] }) e =
      { e with roles := e.roles ++ rs } := by
  induction rs generalizing e with
  | nil => simp
  | cons r rs ih => simp [ih]

/-- Ingesting a declaration enters it under every name. -/
theorem ingestOne_spec (wf : g.nodes.WellFormed) (d : Declaration) :
    (g.ingestOne d).nodes.WellFormed ∧
      ∀ s, (g.ingestOne d).nodes.view s = d.enter s (g.nodes.view s) := by
  obtain ⟨wf₁, hi₁, hname₁, _, hview₁⟩ := intern_spec wf d.name
  obtain ⟨wf₂, hi₂, hname₂, hview₂⟩ := describe_spec d wf₁ hi₁ hname₁ rfl
  obtain ⟨wf₃, hi₃, hname₃, hview₃⟩ := linkAll_spec links_parent d.parents wf₂ hi₂
  obtain ⟨wf₄, _, _, hview₄⟩ := linkAll_spec links_role d.roles wf₃ hi₃
  refine ⟨wf₄, ?_⟩
  intro s
  refine (hview₄ s).trans ?_
  rw [hname₃, hname₂, hview₃ s, hname₂, hview₂ s, hview₁ s]
  unfold Declaration.enter
  by_cases hs : s = d.name
  · simp only [if_pos hs, Option.map_some, foldl_parents, foldl_roles]
  · simp only [if_neg hs]
    by_cases hp : s ∈ d.parents
    · simp [hp]
    · simp [hp]

theorem sameBesidesNodes_ingestOne (g : Graph) (d : Declaration) :
    SameBesidesNodes g (g.ingestOne d) := by
  unfold ingestOne
  exact (sameBesidesNodes_intern g d.name).trans ((sameBesidesNodes_modify _ _ _).trans
    ((sameBesidesNodes_linkAll d.parents).trans (sameBesidesNodes_linkAll d.roles)))

theorem wellFormed_empty : Nodes.WellFormed #[] := by
  refine ⟨fun i _ hi => absurd hi (Nat.not_lt_zero i), ?_⟩
  intro i d hd
  cases hd

/-- The registry after ingestion shows what the declarations say. -/
theorem ingest_spec (ds : List Declaration) (c : Config) :
    ∃ g : Graph, ({ config := c } : Graph).ingest ds = .ok g ∧
      SameBesidesNodes { config := c } g ∧ g.nodes.WellFormed ∧ g.nodes.view = declared ds := by
  have hfold : ∀ (ds : List Declaration) (g : Graph), g.nodes.WellFormed →
      SameBesidesNodes g (ds.foldl ingestOne g) ∧ (ds.foldl ingestOne g).nodes.WellFormed ∧
        ∀ s, (ds.foldl ingestOne g).nodes.view s =
          ds.foldl (fun e d => d.enter s e) (g.nodes.view s) := by
    intro ds
    induction ds with
    | nil => exact fun g wf => ⟨⟨rfl, rfl, rfl, rfl⟩, wf, fun _ => rfl⟩
    | cons d ds ih =>
      intro g wf
      obtain ⟨wf₁, hview₁⟩ := ingestOne_spec wf d
      obtain ⟨hframe, wf₂, hview₂⟩ := ih (g.ingestOne d) wf₁
      refine ⟨(sameBesidesNodes_ingestOne g d).trans hframe, wf₂, ?_⟩
      intro s
      rw [List.foldl_cons, List.foldl_cons, hview₂ s, hview₁ s]
  obtain ⟨hframe, wf, hview⟩ := hfold ds { config := c } wellFormed_empty
  refine ⟨_, rfl, hframe, wf, ?_⟩
  funext s
  have hnone : Nodes.view #[] s = none := Nodes.view_eq_none_iff.2 fun i hi => by cases hi
  rw [hview s]
  show ds.foldl (fun e d => d.enter s e) (Nodes.view #[] s) = _
  rw [hnone]
  exact foldl_enter ds s

end Graph

end Lineage
