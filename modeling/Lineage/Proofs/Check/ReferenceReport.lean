import Mathlib
import Lineage.Proofs.Check.References
import Lineage.Proofs.Graph.FinalParents

/-!
# The report on references

The check of the references never looks at a graph: it finds the kind of a name among the
declarations. Still it agrees with the graph that is built. It goes through the references in order
and lists what each of them warrants (`Warrants`), where the kinds are those of the nodes, and
nothing else. A name without a declaration is reported at its first reference only, and its node is
a class without categories and roles (`references_of_build`).
-/

open Relation (TransGen)

namespace Lineage.Check

/-! ## What is to be reported -/

/-- What the warning on a reference is to be, given the references before it. -/
inductive Warrants (ds : List Declaration) (c : Config) (g : Graph) (earlier : List Reference) :
    Reference → ReferenceFinding → Prop
  /-- The target has no declaration, is neither the root nor the base, and is referred to for the
  first time. -/
  | undeclared {s t : Text} {r : Relation} (hno : ∀ d ∈ ds, d.name ≠ t) (hroot : t ≠ c.root)
      (hbase : t ≠ c.base) (hfirst : ∀ ref ∈ earlier, ref.2.2 ≠ t) :
      Warrants ds c g earlier (s, r, t) (.undeclared s r t)
  /-- The target is declared, and its node is a role, but it is a parent. -/
  | inheritsRole {s t : Text} {i : Nat} {n : Node} (hdeclared : ∃ d ∈ ds, d.name = t)
      (hfind : g.find? t = some i) (hn : g.nodes[i]? = some n) (hrole : n.isRole = true) :
      Warrants ds c g earlier (s, .inherits, t) (.inheritsRole s t)
  /-- The target is declared, and its node is not a role, but it is composed. -/
  | composesOther {s t : Text} {i : Nat} {n : Node} (hdeclared : ∃ d ∈ ds, d.name = t)
      (hfind : g.find? t = some i) (hn : g.nodes[i]? = some n) (hrole : n.isRole = false) :
      Warrants ds c g earlier (s, .composes, t) (.composesOther s t n.kind)

/-- The findings are what is warranted by each reference in turn, if anything is, after those that
were there before. -/
inductive Listed (warrants : List Reference → Reference → ReferenceFinding → Prop) :
    List Reference → List Reference → List ReferenceFinding → Prop
  | nil {earlier} : Listed warrants earlier [] []
  | warned {earlier ref refs f fs} (hwarrant : warrants earlier ref f)
      (hrest : Listed warrants (earlier ++ [ref]) refs fs) :
      Listed warrants earlier (ref :: refs) (f :: fs)
  | passed {earlier ref refs fs} (hno : ∀ f, ¬ warrants earlier ref f)
      (hrest : Listed warrants (earlier ++ [ref]) refs fs) :
      Listed warrants earlier (ref :: refs) fs

variable {ds : List Declaration} {c : Config} {g : Graph} {earlier refs : List Reference}
  {ref : Reference} {f : ReferenceFinding} {fs fs' : List ReferenceFinding}

section Listed

variable {warrants : List Reference → Reference → ReferenceFinding → Prop}

theorem Listed.cons {o : Option ReferenceFinding} (ho : ∀ f, warrants earlier ref f ↔ o = some f)
    (hrest : Listed warrants (earlier ++ [ref]) refs fs) :
    Listed warrants earlier (ref :: refs) (o.toList ++ fs) := by
  cases o with
  | none => exact .passed (fun f hf => nomatch (ho f).1 hf) hrest
  | some f => exact .warned ((ho f).2 rfl) hrest

/-- If a reference warrants one finding at most, then there is one list of findings only. -/
theorem Listed.unique
    (hwarrants : ∀ {earlier ref f f'}, warrants earlier ref f → warrants earlier ref f' → f = f')
    (h : Listed warrants earlier refs fs) (h' : Listed warrants earlier refs fs') : fs' = fs := by
  induction h generalizing fs' with
  | nil =>
    cases h'
    rfl
  | warned hf _ ih =>
    cases h' with
    | warned hf' hrest' => rw [hwarrants hf hf', ih hrest']
    | passed hno' _ => exact absurd hf (hno' _)
  | passed hno _ ih =>
    cases h' with
    | warned hf' _ => exact absurd hf' (hno _)
    | passed _ hrest' => exact ih hrest'

end Listed

theorem declaredFinding?_eq_some_iff {s t : Text} {r : Relation} {k : Kind} :
    declaredFinding? s r t k = some f ↔
      r = .inherits ∧ k = .ofRole ∧ f = .inheritsRole s t ∨
        r = .composes ∧ k ≠ .ofRole ∧ f = .composesOther s t k := by
  cases r <;> cases k <;> simp [declaredFinding?, eq_comm]

/-- The reference of a declared name warrants what can be told from the kind of its node. -/
theorem warrants_declared_iff {s t : Text} {r : Relation} {i : Nat} {n : Node}
    (hdeclared : ∃ d ∈ ds, d.name = t) (hfind : g.find? t = some i) (hn : g.nodes[i]? = some n) :
    Warrants ds c g earlier (s, r, t) f ↔ declaredFinding? s r t n.kind = some f := by
  have hnode : ∀ {i' n'}, g.find? t = some i' → g.nodes[i']? = some n' → n' = n := by
    intro i' n' hfind' hn'
    obtain rfl := Option.some.inj (hfind'.symm.trans hfind)
    exact Option.some.inj (hn'.symm.trans hn)
  have hkind : n.isRole = true ↔ n.kind = .ofRole := beq_iff_eq
  rw [declaredFinding?_eq_some_iff]
  constructor
  · intro h
    cases h with
    | undeclared hno _ _ _ =>
      obtain ⟨d, hd, ht⟩ := hdeclared
      exact absurd ht (hno d hd)
    | inheritsRole _ hfind' hn' hrole =>
      obtain rfl := hnode hfind' hn'
      exact Or.inl ⟨rfl, hkind.1 hrole, rfl⟩
    | composesOther _ hfind' hn' hrole =>
      obtain rfl := hnode hfind' hn'
      exact Or.inr ⟨rfl, fun h => Bool.false_ne_true (hrole.symm.trans (hkind.2 h)), rfl⟩
  · rintro (⟨rfl, hrole, rfl⟩ | ⟨rfl, hrole, rfl⟩)
    · exact .inheritsRole hdeclared hfind hn (hkind.2 hrole)
    · exact .composesOther hdeclared hfind hn (Bool.eq_false_iff.2 fun h => hrole (hkind.1 h))

/-- The reference of an undeclared name warrants a report of that name, unless it is exempt or has
been referred to before. -/
theorem warrants_undeclared_iff {s t : Text} {r : Relation} (hno : ∀ d ∈ ds, d.name ≠ t) :
    Warrants ds c g earlier (s, r, t) f ↔
      (t ∉ [c.root, c.base] ∧ ∀ ref ∈ earlier, ref.2.2 ≠ t) ∧ f = .undeclared s r t := by
  rw [List.mem_cons, List.mem_singleton, not_or]
  constructor
  · intro h
    cases h with
    | undeclared _ hroot hbase hfirst => exact ⟨⟨⟨hroot, hbase⟩, hfirst⟩, rfl⟩
    | inheritsRole hdeclared _ _ _ | composesOther hdeclared _ _ _ =>
      obtain ⟨d, hd, ht⟩ := hdeclared
      exact absurd ht (hno d hd)
  · rintro ⟨⟨⟨hroot, hbase⟩, hfirst⟩, rfl⟩
    exact .undeclared hno hroot hbase hfirst

/-- Each declared name has a node, whose kind is the one that is found among the declarations. -/
def KindsAgree (ds : List Declaration) (g : Graph) : Prop :=
  ∀ t, (∃ d ∈ ds, d.name = t) →
    ∃ i n, g.find? t = some i ∧ g.nodes[i]? = some n ∧ Model.kindOf? ⟨ds⟩ t = some n.kind

/-- No reference warrants two findings. -/
theorem Warrants.unique (hkinds : KindsAgree ds g) {f' : ReferenceFinding}
    (h : Warrants ds c g earlier ref f) (h' : Warrants ds c g earlier ref f') : f = f' := by
  obtain ⟨s, r, t⟩ := ref
  -- what is warranted depends on the target only through its declarations and its node
  by_cases hno : ∀ d ∈ ds, d.name ≠ t
  · rw [warrants_undeclared_iff hno] at h h'
    exact h.2.trans h'.2.symm
  · push Not at hno
    obtain ⟨i, n, hfind, hn, _⟩ := hkinds t hno
    rw [warrants_declared_iff hno hfind hn] at h h'
    exact Option.some.inj (h.symm.trans h')

/-! ## What is reported -/

/-- The undeclared names that have been referred to are remembered, the exempt ones apart. -/
def Remembers (ds : List Declaration) (c : Config) (earlier : List Reference)
    (reported : List Text) : Prop :=
  ∀ t, (∀ d ∈ ds, d.name ≠ t) → t ∉ [c.root, c.base] →
    (t ∈ reported ↔ ∃ ref ∈ earlier, ref.2.2 = t)

section Remembers

variable {reported : List Text} {s t : Text} {r : Relation}

theorem exists_target_append {t' : Text} :
    (∃ ref ∈ earlier ++ [(s, r, t)], ref.2.2 = t') ↔ (∃ ref ∈ earlier, ref.2.2 = t') ∨ t = t' := by
  simp only [List.mem_append, List.mem_singleton, or_and_right, exists_or, exists_eq_left]

/-- There is nothing to remember of a name that is declared, exempt or remembered already. -/
theorem Remembers.skip (h : Remembers ds c earlier reported)
    (hskip : (∃ d ∈ ds, d.name = t) ∨ t ∈ [c.root, c.base] ∨ t ∈ reported) :
    Remembers ds c (earlier ++ [(s, r, t)]) reported := by
  intro t' hno hexempt
  rw [exists_target_append, ← h t' hno hexempt]
  refine ⟨Or.inl, ?_⟩
  rintro (hmem | rfl)
  · exact hmem
  · rcases hskip with ⟨d, hd, ht⟩ | hmem | hmem
    · exact absurd ht (hno d hd)
    · exact absurd hmem hexempt
    · exact hmem

theorem Remembers.report (h : Remembers ds c earlier reported) :
    Remembers ds c (earlier ++ [(s, r, t)]) (t :: reported) := by
  intro t' hno hexempt
  rw [exists_target_append, ← h t' hno hexempt, List.mem_cons, or_comm, eq_comm]

end Remembers

/-- The check lists what is warranted as long as it remembers the undeclared names that it has
met. -/
theorem listed_findReferences (hkinds : KindsAgree ds g) {reported : List Text}
    (hreported : Remembers ds c earlier reported) :
    Listed (Warrants ds c g) earlier refs
      (findReferences (Model.kindOf? ⟨ds⟩) [c.root, c.base] reported refs) := by
  -- what is remembered and the references before grow together
  induction refs generalizing earlier reported with
  | nil => exact .nil
  | cons ref refs ih =>
    obtain ⟨s, r, t⟩ := ref
    unfold findReferences
    -- the check splits on the kind that it finds, and it finds one exactly for declared names
    by_cases hno : ∀ d ∈ ds, d.name ≠ t
    · rw [kindOf?_eq_none hno]
      simp only [Bool.or_eq_true, List.contains_iff_mem]
      split
      · rename_i hskip
        refine .passed (fun f hf => ?_) (ih (hreported.skip (Or.inr hskip)))
        obtain ⟨⟨hexempt, hfirst⟩, _⟩ := (warrants_undeclared_iff hno).1 hf
        obtain ⟨ref, href, ht⟩ := (hreported t hno hexempt).1 (hskip.resolve_left hexempt)
        exact hfirst ref href ht
      · rename_i hnew
        obtain ⟨hexempt, hunreported⟩ := not_or.1 hnew
        rw [hreported t hno hexempt] at hunreported
        push Not at hunreported
        exact .warned ((warrants_undeclared_iff hno).2 ⟨⟨hexempt, hunreported⟩, rfl⟩)
          (ih hreported.report)
    · push Not at hno
      obtain ⟨i, n, hfind, hn, hkind⟩ := hkinds t hno
      rw [hkind]
      exact .cons (fun f => warrants_declared_iff hno hfind hn) (ih (hreported.skip (Or.inl hno)))

/-- The report agrees with the graph. -/
structure ReportsReferences (ds : List Declaration) (c : Config) (g : Graph) : Prop where
  /-- It lists what the references warrant in turn, and nothing else: one warning for each finding,
  about the declaration that the reference stands in. -/
  listed : ∃ fs, Listed (Warrants ds c g) [] (allReferences ⟨ds⟩) fs ∧
    (∀ fs', Listed (Warrants ds c g) [] (allReferences ⟨ds⟩) fs' → fs' = fs) ∧
    (references ⟨ds⟩ c).issues = fs.map fun
      | .undeclared s r t =>
        { code := "UNDECLARED_TYPE"
          message := "'" ++ s ++ " " ++ r.keyword ++ " " ++ t ++ "' references undeclared type '" ++
            t ++ "'"
          severity := .warning
          subject := some s
          details := [("referenced_type", .text t)] }
      | .inheritsRole s t =>
        { code := "INHERITS_ROLE"
          message := "'" ++ s ++ "' inherits from role '" ++ t ++ "'; use 'does' to compose it"
          severity := .warning
          subject := some s
          details := [("referenced_type", .text t)] }
      | .composesOther s t k =>
        { code := "DOES_NON_ROLE"
          message := "'" ++ s ++ "' composes '" ++ t ++ "', which is a " ++ k.keyword ++
            ", not a role"
          severity := .warning
          subject := some s
          details := [("referenced_type", .text t)] }
  /-- An undeclared name that is referred to, whether it is reported or exempt, has been left a
  class without categories and roles. -/
  placeholder : ∀ ref ∈ allReferences ⟨ds⟩, (∀ d ∈ ds, d.name ≠ ref.2.2) →
    ∃ i n, g.find? ref.2.2 = some i ∧ g.nodes[i]? = some n ∧
      n.kind = .ofClass ∧ n.categories = [] ∧ n.roles = []

theorem mentioned_of_reference (href : ref ∈ allReferences ⟨ds⟩) : Mentioned ds ref.2.2 := by
  obtain ⟨s, r, t⟩ := ref
  obtain ⟨d, hd, hsource, htarget⟩ := mem_allReferences.1 href
  exact (mentioned_of_declaredEdge ⟨d, hd, hsource, htarget⟩).2

section View

variable {of : Text → List Text} (wf : g.nodes.WellFormed)
  (hview : g.nodes.view.firsts = (((declared ds).flattened of).rooted c).firsts)

include wf hview

theorem kindsAgree_of_view : KindsAgree ds g := by
  rintro t ⟨d, hd, ht⟩
  obtain ⟨i, n, hfind, hn, hkind, _⟩ := Graph.node_of_mentioned wf hview ⟨d, hd, Or.inl ht.symm⟩
  refine ⟨i, n, hfind, hn, ?_⟩
  -- both kinds are that of the last declaration, and there is one
  have hmem : d ∈ ds.filter (·.name == t) := List.mem_filter.2 ⟨hd, beq_iff_eq.2 ht⟩
  have hlast := List.getLast?_eq_some_getLast (List.ne_nil_of_mem hmem)
  unfold Model.kindOf? Model.declarationsOf
  unfold Entry.ofDeclarations at hkind
  rw [hlast] at hkind ⊢
  rw [hkind]
  rfl

theorem reportsReferences_of_view : ReportsReferences ds c g := by
  have hkinds := kindsAgree_of_view wf hview
  have hnothing : Remembers ds c [] [] := fun t _ _ => by simp
  have hlisted : Listed (Warrants ds c g) [] (allReferences ⟨ds⟩) _ :=
    listed_findReferences hkinds hnothing
  constructor
  · refine ⟨_, hlisted, fun fs' h => hlisted.unique (fun hf hf' => hf.unique hkinds hf') h, ?_⟩
    exact List.map_congr_left fun f _ => by cases f <;> rfl
  · intro ref href hno
    obtain ⟨i, n, hfind, hn, hkind, hcategories, hroles⟩ :=
      Graph.node_of_mentioned wf hview (mentioned_of_reference href)
    rw [filter_eq_nil_of_undeclared hno] at hkind hcategories hroles
    exact ⟨i, n, hfind, hn, hkind, hcategories, List.map_eq_nil_iff.1 hroles⟩

end View

/-- If the declared roles compose without a cycle, then the graph is built, and the report on the
references agrees with it. The references are gone through declaration by declaration, parents
before roles. A name without a declaration is reported once, at its first reference, unless it is
the root or the base; a declared name is reported at each reference that its node does not fit, as a
parent that is a role or as a role that is none. What is not declared has been left a class without
categories and roles. -/
theorem references_of_build (ds : List Declaration) (c : Config)
    (hacyclic : ∀ t, ¬ TransGen (DeclaredEdge ds .composes) t t) :
    ∃ g, Graph.build ds c = some (.ok g) ∧ ReportsReferences ds c g := by
  obtain ⟨of, hof⟩ := Graph.exists_unfolds_declared (acyclic_roles_declared_iff.2 hacyclic)
  obtain ⟨g, hg, wf, _, _, _, hview⟩ := Graph.build_spec ds c hof
  exact ⟨g, hg, reportsReferences_of_view wf hview⟩

/-- A class that inherits from a role and composes a class, and a name that is not declared. -/
def misfits : List Declaration :=
  [{ name := "A", parents := ["R", "X"], roles := ["B"] },
    { name := "B", parents := ["X", "Any", "R"] }, { name := "R", kind := .ofRole }]

theorem acyclic_misfits (t : Text) : ¬ TransGen (DeclaredEdge misfits .composes) t t :=
  Graph.acyclic_of_declared_rank (fun t => if t = "A" then 1 else 0) (by decide) t

/-- The role is reported at both references, and the undeclared name at the first one only. -/
theorem references_of_build_misfits :
    ∃ g fs, Graph.build misfits {} = some (.ok g) ∧
      Listed (Warrants misfits {} g) [] (allReferences ⟨misfits⟩) fs ∧
      fs.map (·.message) = ([
        "'A' inherits from role 'R'; use 'does' to compose it",
        "'A is X' references undeclared type 'X'",
        "'A' composes 'B', which is a class, not a role",
        "'B' inherits from role 'R'; use 'does' to compose it"] : List Text) ∧
      ∃ i n, g.find? "X" = some i ∧ g.nodes[i]? = some n ∧ n.kind = .ofClass := by
  obtain ⟨g, hg, ⟨fs, hlisted, _, hissues⟩, hplaceholder⟩ :=
    references_of_build misfits {} acyclic_misfits
  have hmessages : (references ⟨misfits⟩ {}).issues.map (·.message) = fs.map (·.message) := by
    rw [hissues, List.map_map]
    exact List.map_congr_left fun f _ => by cases f <;> rfl
  obtain ⟨i, n, hfind, hn, hkind, _⟩ :=
    hplaceholder ("A", .inherits, "X") (by decide) (by decide)
  refine ⟨g, fs, hg, hlisted, ?_, i, n, hfind, hn, hkind⟩
  rw [← hmessages]
  cbv

end Lineage.Check
