import Lineage.Proofs.Check.Verdict
import Mathlib.Logic.Function.Iterate

/-!
# When a build ends

Handing down the parents of roles empties one worklist for each node. A worklist grows while it is
emptied, and the same role is taken up once for every way that leads to it. If the worklist gets
empty after all, then no path along the roles on it is endless (`acc_of_emptied`), so no cycle of
roles can be reached from the node. Without a cycle, on the other hand, the budget of the draining
suffices. The build ends exactly in this case, and the check of the roles decides it from the
declarations alone (`roleCycles_guards_build`).
-/

open Relation (TransGen)

namespace Lineage

namespace Graph

variable {ns : Nodes} {work : List Nat}

/-! ## Worklists -/

/-- One turn at a worklist: the next role is taken off, and its own roles are put on. -/
def pop (ns : Nodes) : List Nat → List Nat
  | [] => []
  | r :: rest => (ns.roles r).reverse ++ rest

theorem iterate_pop_nil (ns : Nodes) (n : Nat) : (pop ns)^[n] [] = [] :=
  Function.iterate_fixed rfl n

/-- Draining succeeds exactly if the worklist is empty after as many turns. -/
theorem isSome_drain_iff (fuel : Nat) (work taken : List Nat) :
    (drain ns fuel work taken).isSome = true ↔ (pop ns)^[fuel] work = [] := by
  induction fuel generalizing work taken with
  | zero => cases work <;> simp [drain]
  | succ fuel ih =>
    rw [Function.iterate_succ_apply]
    cases work with
    | nil => simp [drain, pop, iterate_pop_nil]
    | cons r rest => exact ih _ _

/-- If a worklist gets empty, then every path along the roles on it ends. -/
theorem acc_of_emptied {n : Nat} (h : (pop ns)^[n] work = []) :
    ∀ r ∈ work, Acc (fun q a => q ∈ ns.roles a) r := by
  induction n generalizing work with
  | zero =>
    intro r hr
    rw [show work = [] from h] at hr
    cases hr
  | succ n ih =>
    rw [Function.iterate_succ_apply] at h
    cases work with
    | nil => exact fun r hr => absurd hr List.not_mem_nil
    | cons r rest =>
      have hnext := ih h
      intro s hs
      rcases List.mem_cons.1 hs with rfl | hs
      · -- the roles of the role have been put on the worklist
        exact ⟨_, fun q hq => hnext q (List.mem_append_left _ (List.mem_reverse.2 hq))⟩
      · exact hnext s (List.mem_append_right _ hs)

/-- Every path along the roles ends if the worklists of all nodes get empty. -/
theorem acyclic_of_emptied
    (h : ∀ i < ns.size, ∃ n, (pop ns)^[n] (ns.roles i).reverse = []) : Acyclic ns.roles := by
  intro i hi
  obtain ⟨p, hp, _⟩ := Step.mem_next_of_path hi
  obtain ⟨n, hn⟩ := h i (Nodes.lt_size_of_roles_ne_nil (List.ne_nil_of_mem hp))
  exact not_cyclic_of_acc ⟨i, fun q hq => acc_of_emptied hn q (List.mem_reverse.2 hq)⟩ hi

/-- Handing down parents leaves the roles alone, so the worklist of every node gets empty by the
roles as they were at first. -/
theorem emptied_of_flattenEach {is : List Nat} (h : (flattenEach is ns).isSome = true) :
    ∀ i ∈ is, ∃ n, (pop ns)^[n] (ns.roles i).reverse = [] := by
  induction is generalizing ns with
  | nil => exact fun i hi => absurd hi List.not_mem_nil
  | cons i is ih =>
    unfold flattenEach flattenOne at h
    cases hcomposed : composed? ns i with
    | none =>
      rw [hcomposed] at h
      cases h
    | some rs =>
      rw [hcomposed] at h
      have hrest := ih h
      -- the rest was flattened after the node got more parents, which no worklist sees
      have hroles : (ns.addParents i (rs.flatMap ns.parents)).roles = ns.roles :=
        (agreeOn_addParents ns i _).core_roles
      have hpop : pop (ns.addParents i (rs.flatMap ns.parents)) = pop ns := by
        funext work
        unfold pop
        rw [hroles]
      intro j hj
      rcases List.mem_cons.1 hj with rfl | hj
      · exact ⟨_, (isSome_drain_iff _ _ _).1 (Option.isSome_of_eq_some hcomposed)⟩
      · rw [← hpop, ← hroles]
        exact hrest j hj

theorem emptied_of_build {ds : List Declaration} {c : Config} {g : Graph}
    (hingest : ({ config := c } : Graph).ingest ds = .ok g)
    (h : (build ds c).isSome = true) :
    ∀ i < g.size, ∃ n, (pop g.nodes)^[n] (g.nodes.roles i).reverse = [] := by
  unfold build at h
  rw [hingest] at h
  simp only [flattenRoles, Option.isSome_map] at h
  exact fun i hi => emptied_of_flattenEach h i (List.mem_range.2 hi)

end Graph

namespace Check

/-! ## The guard -/

variable {m : Model} {c : Config}

/-- What the check of the roles tells about the build of a model. -/
structure Guards (m : Model) (c : Config) : Prop where
  /-- The build ends exactly if no error is reported. -/
  ends_iff : (Graph.build m.declarations c).isSome = true ↔
    ∀ issue ∈ (roleCycles m).issues, issue.severity ≠ .error
  /-- If the build ends, then without an error, and the frozen graph lists each type once. -/
  result : ∀ res, Graph.build m.declarations c = some res →
    ∃ g, res = .ok g ∧ g.frozen = true ∧ g.sorted.Perm (List.range g.size)
  /-- The build ends exactly if all worklists get empty. If an error is reported, then the worklist
  of some node is not empty after any number of turns. -/
  worklists : ∃ g, ({ config := c } : Graph).ingest m.declarations = .ok g ∧
    ((Graph.build m.declarations c).isSome = true ↔
      ∀ i < g.size, ∃ n, (Graph.pop g.nodes)^[n] (g.nodes.roles i).reverse = []) ∧
    ((∃ issue ∈ (roleCycles m).issues, issue.severity = .error) →
      ∃ i < g.size, ∀ n, (Graph.pop g.nodes)^[n] (g.nodes.roles i).reverse ≠ [])

/-- The ingested roles compose each other as the declared ones do. -/
theorem exists_ingested (m : Model) (c : Config) :
    ∃ g, ({ config := c } : Graph).ingest m.declarations = .ok g ∧
      (Acyclic g.nodes.roles ↔ (roleCycles m).isValid = true) := by
  obtain ⟨g, hg, _, wf, hview⟩ := Graph.ingest_spec m.declarations c
  refine ⟨g, hg, ?_⟩
  rw [Nodes.acyclic_roles_iff wf (congrArg View.firsts hview), acyclic_roles_declared_iff,
    roleCycles, isValid_cycles_iff]

/-- A build that ends is that of a model whose roles compose without a cycle. -/
theorem built_of_build {ds : List Declaration} {g : Graph}
    (hg : Graph.build ds c = some (.ok g)) : Built ⟨ds⟩ c g := by
  obtain ⟨_, hingest, hroles⟩ := exists_ingested ⟨ds⟩ c
  have hemptied := Graph.emptied_of_build hingest (Option.isSome_of_eq_some hg)
  obtain ⟨g', hbuilt⟩ := exists_built c (hroles.1 (Graph.acyclic_of_emptied hemptied))
  exact hbuilt.eq_of_build hg ▸ hbuilt

/-- The check of the roles guards the build exactly: it reports an error for those models whose
build does not end, and for no others. -/
theorem roleCycles_guards_build (m : Model) (c : Config) : Guards m c := by
  obtain ⟨g, hingest, hroles⟩ := exists_ingested m c
  have hvalid : (roleCycles m).isValid = true → (Graph.build m.declarations c).isSome = true := by
    intro h
    obtain ⟨g', hg'⟩ := exists_built c h
    rw [hg'.build]
    rfl
  -- from the build to the worklists, from these to the roles, and by the check back to the build
  have hends : (Graph.build m.declarations c).isSome = true ↔
      ∀ i < g.size, ∃ n, (Graph.pop g.nodes)^[n] (g.nodes.roles i).reverse = [] := by
    constructor
    · exact Graph.emptied_of_build hingest
    · exact fun h => hvalid (hroles.1 (Graph.acyclic_of_emptied h))
  have hguard : (Graph.build m.declarations c).isSome = true ↔ (roleCycles m).isValid = true :=
    ⟨fun h => hroles.1 (Graph.acyclic_of_emptied (hends.1 h)), hvalid⟩
  constructor
  · rw [hguard, Report.isValid_iff]
  · -- a build that ends is that of a valid model, whose result is known
    intro res hres
    obtain ⟨g', hg'⟩ := exists_built c (hguard.1 (Option.isSome_of_eq_some hres))
    obtain rfl := Option.some.inj (hres.symm.trans hg'.build)
    exact ⟨g', rfl, Graph.frozen_of_build hg'.build, hg'.sorted⟩
  · refine ⟨g, hingest, hends, ?_⟩
    rintro ⟨issue, hissue, herror⟩
    by_contra hall
    push Not at hall
    exact Report.isValid_iff.1 (hguard.1 (hends.2 hall)) issue hissue herror

end Check

end Lineage
