import Lineage.Proofs.Graph.Build
import Lineage.Proofs.MixedPaths

/-!
# The edges of the graph in terms of the declarations

The graph that is built has edges that no declaration contains: flattening hands the parents of a
role down to all that compose it, and rooting gives the base to each name that has no parent then.
By name, these are all edges that there are (`step_parents_iff`, `step_dependencies_iff`).

If the declarations link no name to itself, then flattening closes no cycle. Rooting closes one
exactly if the base leads to a name that is given the base (`acyclic_parents_iff`,
`acyclic_dependencies_iff`).
-/

open Relation (TransGen ReflTransGen)

namespace Lineage

variable {ds : List Declaration} {c : Config} {of : Text → List Text} {a p t : Text}

/-- Some declaration of the first name refers to the second one, as a role or as a parent. -/
def DeclaredLink (ds : List Declaration) (a b : Text) : Prop :=
  DeclaredEdge ds .composes a b ∨ DeclaredEdge ds .inherits a b

/-- The second name is a declared parent of the first one, or of a role that the first one
composes, directly or through other roles. -/
def Inherited (ds : List Declaration) : Text → Text → Prop :=
  Relation.Comp (ReflTransGen (DeclaredEdge ds .composes)) (DeclaredEdge ds .inherits)

/-- The name is given the base as its parent: it is mentioned, inherits from nothing, and is neither
a role nor the root nor the base. -/
structure TakesBase (ds : List Declaration) (c : Config) (t : Text) : Prop where
  mentioned : Mentioned ds t
  not_role : Model.kindOf? ⟨ds⟩ t ≠ some .ofRole
  no_parent : ∀ p, ¬ Inherited ds t p
  ne_root : t ≠ c.root
  ne_base : t ≠ c.base

/-! ## Edges by name -/

theorem mem_parents_flattened_iff (hof : Unfolds (declared ds).roles of) :
    p ∈ ((declared ds).flattened of).parents a ↔ Inherited ds a p := by
  rw [View.parents_flattened hof, List.mem_flatMap]
  refine exists_congr fun r => ?_
  rw [hof.mem_iff, step_roles_declared]
  exact and_congr_right fun _ => step_parents_declared_iff

/-- The names without a parent that are to get one are those that take the base. -/
theorem rootless_flattened_iff (hof : Unfolds (declared ds).roles of) :
    ((declared ds).flattened of).Rootless c t ↔ TakesBase ds c t := by
  have hno : (of t).flatMap (declared ds).parents = [] ↔ ∀ p, ¬ Inherited ds t p := by
    rw [← View.parents_flattened hof, List.eq_nil_iff_forall_not_mem]
    exact forall_congr' fun p => not_congr (mem_parents_flattened_iff hof)
  have hkind : ∀ k : Option Kind, k.getD .ofClass ≠ .ofRole ↔ k ≠ some .ofRole := by
    intro k
    cases k <;> simp
  have hentry : ((declared ds).flattened of).Rootless c t ↔ Mentioned ds t ∧
      Model.kindOf? ⟨ds⟩ t ≠ some .ofRole ∧ (of t).flatMap (declared ds).parents = [] ∧
        t ≠ c.root ∧ t ≠ c.base := by
    rw [← hkind]
    unfold View.Rootless View.flattened View.withParents declared Entry.isRootless
    by_cases h : Mentioned ds t
    · simp [h, Entry.ofDeclarations, Model.kindOf?, Model.declarationsOf, and_assoc]
    · simp [h]
  rw [hentry, hno]
  constructor
  · rintro ⟨hmentioned, hrole, hparent, hroot, hbase⟩
    exact ⟨hmentioned, hrole, hparent, hroot, hbase⟩
  · intro h
    exact ⟨h.mentioned, h.not_role, h.no_parent, h.ne_root, h.ne_base⟩

/-- The parents in the graph are those that are inherited and, where there is none, the base. -/
theorem step_parents_iff (hof : Unfolds (declared ds).roles of) :
    Step (((declared ds).flattened of).rooted c).parents a p ↔
      WithDefault (Inherited ds) (TakesBase ds c) c.base a p := by
  unfold Step WithDefault
  rw [View.mem_parents_rooted_iff, mem_parents_flattened_iff hof, rootless_flattened_iff hof]

/-- A type depends on the roles that it is declared to compose, besides its parents. -/
theorem step_dependencies_iff (hof : Unfolds (declared ds).roles of) :
    Step (((declared ds).flattened of).rooted c).dependencies a p ↔
      WithDefault (fun a p => Inherited ds a p ∨ DeclaredEdge ds .composes a p)
        (TakesBase ds c) c.base a p := by
  have hparent := step_parents_iff (c := c) (a := a) (p := p) hof
  have hrole : Step (declared ds).roles a p ↔ DeclaredEdge ds .composes a p :=
    step_roles_declared_iff
  unfold Step at hparent hrole ⊢
  unfold View.dependencies
  rw [List.mem_append, hparent, View.roles_rooted, View.roles_flattened, hrole]
  unfold WithDefault
  tauto

/-! ## Cycles -/

section Cycles

variable (h : ∀ t, ¬ TransGen (DeclaredLink ds) t t)

theorem transGen_link_of_inherited (hap : TransGen (Inherited ds) a p) :
    TransGen (DeclaredLink ds) a p :=
  TransGen.closed (fun _ _ => mixed_of_long_step) a p hap

theorem transGen_dependency_iff :
    TransGen (fun a p => Inherited ds a p ∨ DeclaredEdge ds .composes a p) a p ↔
      TransGen (DeclaredLink ds) a p :=
  transGen_long_or_single_iff

theorem reflTransGen_base_iff {r : Text → Text → Prop} (ht : TakesBase ds c t) :
    ReflTransGen r c.base t ↔ TransGen r c.base t := by
  rw [Relation.reflTransGen_iff_eq_or_transGen]
  exact or_iff_right ht.ne_base

include h

/-- Along the parents, only a name that the base inherits from can close a cycle, by taking the
base. -/
theorem acyclic_parents_iff (hof : Unfolds (declared ds).roles of) :
    Acyclic (((declared ds).flattened of).rooted c).parents ↔
      ∀ t, TakesBase ds c t → ¬ TransGen (Inherited ds) c.base t := by
  have hstep : Step (((declared ds).flattened of).rooted c).parents =
      WithDefault (Inherited ds) (TakesBase ds c) c.base := by
    funext x y
    exact propext (step_parents_iff hof)
  unfold Acyclic
  rw [hstep, acyclic_withDefault_iff fun t ht => h t (transGen_link_of_inherited ht)]
  exact forall₂_congr fun t ht => not_congr (reflTransGen_base_iff ht)

/-- Along parents and roles, only a name that the base is linked to can close a cycle, by taking
the base. -/
theorem acyclic_dependencies_iff (hof : Unfolds (declared ds).roles of) :
    Acyclic (((declared ds).flattened of).rooted c).dependencies ↔
      ∀ t, TakesBase ds c t → ¬ TransGen (DeclaredLink ds) c.base t := by
  have hstep : Step (((declared ds).flattened of).rooted c).dependencies =
      WithDefault (fun a p => Inherited ds a p ∨ DeclaredEdge ds .composes a p)
        (TakesBase ds c) c.base := by
    funext x y
    exact propext (step_dependencies_iff hof)
  unfold Acyclic
  rw [hstep, acyclic_withDefault_iff fun t ht => h t (transGen_dependency_iff.1 ht)]
  refine forall₂_congr fun t ht => not_congr ?_
  rw [reflTransGen_base_iff ht, transGen_dependency_iff]

end Cycles

end Lineage
