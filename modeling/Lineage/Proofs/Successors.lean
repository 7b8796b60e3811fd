import Lineage.Proofs.Repeats
import Mathlib.Logic.Relation

/-!
# Directed graphs as successor lists

The parents of the nodes, their roles and all their dependencies are three directed graphs of one
form: a function that lists the successors of each vertex. A vertex may be listed twice, and the
graph may have cycles.

Two such graphs show the same structure if one is a renaming of the other up to repeated
successors. What is decided by searches from the front is carried over by such a renaming.
-/

open Relation (TransGen ReflTransGen)

namespace Lineage

variable {α β : Type}

/-- The second vertex is a successor of the first. -/
def Step (next : α → List α) (a b : α) : Prop :=
  b ∈ next a

/-- No vertex lies on a cycle. -/
def Acyclic (next : α → List α) : Prop :=
  ∀ a, ¬ TransGen (Step next) a a

/-- A graph whose steps lower some number has no cycle. -/
theorem acyclic_of_rank {next : α → List α} (rank : α → Nat)
    (h : ∀ a, ∀ p ∈ next a, rank p < rank a) : Acyclic next := by
  have hlt : ∀ {a b : α}, TransGen (Step next) a b → rank b < rank a := by
    intro a b hab
    induction hab with
    | single hb => exact h _ _ hb
    | tail _ hc ih => exact Nat.lt_trans (h _ _ hc) ih
  intro a ha
  exact Nat.lt_irrefl _ (hlt ha)

/-- A path leaves its first vertex for one of the successors. -/
theorem Step.mem_next_of_path {next : α → List α} {a b : α} (h : TransGen (Step next) a b) :
    ∃ p ∈ next a, ReflTransGen (Step next) p b :=
  TransGen.head'_iff.1 h

/-- Leaving a vertex for a successor that leads back to it closes a cycle at that successor. -/
theorem Step.cycle_at_successor {next : α → List α} {a p : α} (hp : p ∈ next a)
    (h : ReflTransGen (Step next) p a) : TransGen (Step next) p p :=
  TransGen.tail' h hp

/-- What leads to a vertex, and the vertex itself, leads to its successors. -/
theorem Step.paths_to_successor {next : α → List α} {a p : α} {before : List α}
    (h : ∀ x ∈ before, TransGen (Step next) x a) (hp : p ∈ next a) :
    ∀ x ∈ a :: before, TransGen (Step next) x p := by
  intro x hx
  rcases List.mem_cons.1 hx with rfl | hx
  · exact .single hp
  · exact (h x hx).tail hp

/-- A vertex from which every path ends lies on no cycle. -/
theorem not_cyclic_of_acc {next : α → List α} {a : α} (h : Acc (fun q a => q ∈ next a) a) :
    ¬ TransGen (Step next) a a := by
  induction h with
  | intro a _ ih =>
    intro ha
    obtain ⟨p, hp, hpa⟩ := Step.mem_next_of_path ha
    exact ih p hp (Step.cycle_at_successor hp hpa)

theorem acyclic_of_wellFounded {next : α → List α} (h : WellFounded fun q a => q ∈ next a) :
    Acyclic next :=
  fun a => not_cyclic_of_acc (h.apply a)

/-- `f` renames the vertices in `S` one by one, and the successors up to repeats. -/
structure Renaming [BEq β] (next : α → List α) (next' : β → List β) (f : α → β)
    (S : α → Prop) : Prop where
  closed : ∀ a, S a → ∀ p ∈ next a, S p
  injective : ∀ a b, S a → S b → f a = f b → a = b
  successors : ∀ a, S a → SameFirsts (next' (f a)) ((next a).map f)

namespace Renaming

variable [BEq β] {next : α → List α} {next' : β → List β} {f : α → β} {S : α → Prop}

theorem reaches (h : Renaming next next' f S) {a b : α} (ha : S a)
    (hab : ReflTransGen (Step next) a b) : S b := by
  induction hab with
  | refl => exact ha
  | tail _ hbc ih => exact h.closed _ ih _ hbc

variable [LawfulBEq β]

theorem mem_iff (h : Renaming next next' f S) {a p : α} (ha : S a) (hp : S p) :
    f p ∈ next' (f a) ↔ p ∈ next a := by
  rw [(h.successors a ha).mem_iff, List.mem_map]
  constructor
  · rintro ⟨q, hq, hqp⟩
    rwa [← h.injective q p (h.closed a ha q hq) hp hqp]
  · intro hpa
    exact ⟨p, hpa, rfl⟩

/-- Every successor of a renamed vertex is the new name of a successor. -/
theorem of_mem (h : Renaming next next' f S) {a : α} {q : β} (ha : S a) (hq : q ∈ next' (f a)) :
    ∃ p ∈ next a, f p = q := by
  rw [(h.successors a ha).mem_iff, List.mem_map] at hq
  exact hq

/-- Successors that are not listed somewhere are not listed there under their new names. -/
theorem disjoint_map (h : Renaming next next' f S) {a : α} {l : List α} (ha : S a)
    (hl : ∀ x ∈ l, S x) (hno : ∀ q ∈ next a, q ∉ l) : ∀ q ∈ next' (f a), q ∉ l.map f := by
  intro q hq hmem
  obtain ⟨p, hp, rfl⟩ := h.of_mem ha hq
  obtain ⟨x, hx, hxp⟩ := List.mem_map.1 hmem
  rw [h.injective x p (hl x hx) (h.closed a ha p hp) hxp] at hx
  exact hno p hp hx

/-- Erasing repeats commutes with the renaming of successors. -/
theorem eraseDups_map [BEq α] [LawfulBEq α] (h : Renaming next next' f S) {a : α} (ha : S a) :
    (next' (f a)).eraseDups = (next a).eraseDups.map f := by
  rw [h.successors a ha]
  apply eraseDups_map_of_injOn
  intro p hp q hq hpq
  exact h.injective p q (h.closed a ha p hp) (h.closed a ha q hq) hpq

/-- A renaming may be cut down to a part that its successors do not leave, and there the renamed
graph may be replaced by one that agrees with it. -/
theorem restrict {next'' : β → List β} {T : β → Prop} (h : Renaming next next' f S)
    (hclosed : ∀ b, T b → ∀ q ∈ next' b, T q) (heq : ∀ b, T b → next'' b = next' b) :
    Renaming next next'' f fun a => S a ∧ T (f a) where
  closed a ha p hp :=
    have hSp := h.closed a ha.1 p hp
    ⟨hSp, hclosed (f a) ha.2 (f p) ((h.mem_iff ha.1 hSp).2 hp)⟩
  injective a b ha hb := h.injective a b ha.1 hb.1
  successors a ha := by
    rw [heq (f a) ha.2]
    exact h.successors a ha.1

/-- Two graphs that agree up to repeats on a part that is not left are renamed into each other
there, each vertex to itself. -/
theorem of_sameFirsts [BEq α] {more : α → List α} (hclosed : ∀ a, S a → ∀ p ∈ next a, S p)
    (h : ∀ a, S a → SameFirsts (more a) (next a)) : Renaming next more id S where
  closed := hclosed
  injective _ _ _ _ hab := hab
  successors a ha := by
    rw [List.map_id]
    exact h a ha

/-- Two graphs on the same vertices are renamed together. -/
theorem append {more : α → List α} {more' : β → List β} (h : Renaming next next' f S)
    (hmore : Renaming more more' f S) :
    Renaming (fun a => next a ++ more a) (fun b => next' b ++ more' b) f S where
  closed a ha p hp := (List.mem_append.1 hp).elim (h.closed a ha p) (hmore.closed a ha p)
  injective := h.injective
  successors a ha := by
    rw [List.map_append]
    exact (h.successors a ha).append (hmore.successors a ha)

/-! ## Renamed paths -/

theorem path_map (h : Renaming next next' f S) {a b : α} (ha : S a)
    (hab : TransGen (Step next) a b) : TransGen (Step next') (f a) (f b) := by
  induction hab with
  | single hb => exact .single ((h.mem_iff ha (h.closed a ha _ hb)).2 hb)
  | tail hab hbc ih =>
    have hb := h.reaches ha hab.to_reflTransGen
    exact ih.tail ((h.mem_iff hb (h.closed _ hb _ hbc)).2 hbc)

/-- Every path from a renamed vertex is the renamed one of a path. -/
theorem of_path_map (h : Renaming next next' f S) {a : α} {q : β} (ha : S a)
    (haq : TransGen (Step next') (f a) q) : ∃ b, TransGen (Step next) a b ∧ f b = q := by
  induction haq with
  | single hq =>
    obtain ⟨b, hb, rfl⟩ := h.of_mem ha hq
    exact ⟨b, .single hb, rfl⟩
  | tail _ hq ih =>
    obtain ⟨b, hab, rfl⟩ := ih
    obtain ⟨c, hc, rfl⟩ := h.of_mem (h.reaches ha hab.to_reflTransGen) hq
    exact ⟨c, hab.tail hc, rfl⟩

theorem cycle_iff (h : Renaming next next' f S) {a : α} (ha : S a) :
    TransGen (Step next') (f a) (f a) ↔ TransGen (Step next) a a := by
  constructor
  · intro hcycle
    obtain ⟨b, hab, hba⟩ := h.of_path_map ha hcycle
    rwa [h.injective b a (h.reaches ha hab.to_reflTransGen) ha hba] at hab
  · exact h.path_map ha

/-- A renaming of all vertices with successors keeps a graph free of cycles, and the other way
round. -/
theorem acyclic_iff (h : Renaming next next' f S) (hfrom : ∀ a, next a ≠ [] → S a)
    (honto : ∀ b, next' b ≠ [] → ∃ a, S a ∧ f a = b) : Acyclic next ↔ Acyclic next' := by
  constructor
  · intro hacyclic b hb
    obtain ⟨q, hq, _⟩ := Step.mem_next_of_path hb
    obtain ⟨a, ha, rfl⟩ := honto b (List.ne_nil_of_mem hq)
    exact hacyclic a ((h.cycle_iff ha).1 hb)
  · intro hacyclic a ha
    obtain ⟨p, hp, _⟩ := Step.mem_next_of_path ha
    exact hacyclic (f a) (h.path_map (hfrom a (List.ne_nil_of_mem hp)) ha)

end Renaming

end Lineage
