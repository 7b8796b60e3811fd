import Lineage.Proofs.Graph.Build
import Lineage.Proofs.Linearization.Search

/-!
# What every linearization looks like

Whatever has been asked for before, in whatever order and with whatever success, a linearization
has the shape that the C3 rule gives it: the node comes first, nothing comes twice, everything
above the node is listed and stands behind what lies below it, and the linearization of each
element is contained in order.
-/

open Relation (TransGen ReflTransGen)

namespace Lineage.Linearization

variable {ns : Nodes} {memo : Memo}

/-- The memo holds only what linearizing nodes of the registry has left behind. -/
inductive Recorded (ns : Nodes) : Memo → Prop where
  | empty : Recorded ns {}
  /-- One more node is asked for. -/
  | linearize {memo : Memo} (before : Recorded ns memo) (i : Nat) :
      Recorded ns (linearize ns memo i).1

/-- Asking for nodes records nothing but what follows the rule. -/
theorem Recorded.follows (h : Recorded ns memo) : Follows ns memo := by
  induction h with
  | empty => exact follows_empty ns
  | linearize _ i ih => exact ih.linearize i

theorem Recorded.linearizeAll {g : Graph} (h : Recorded g.nodes g.memo) (is : List Nat) :
    Recorded g.nodes (g.linearizeAll is).1.memo := by
  induction is generalizing g with
  | nil => exact h
  | cons i is ih => exact ih (g := (g.linearize i).1) (h.linearize i)

theorem recorded_of_build {ds : List Declaration} {c : Config} {g : Graph}
    (hg : Graph.build ds c = some (.ok g)) : Recorded g.nodes g.memo := by
  rw [Graph.memo_of_build hg]
  exact .empty

/-- In a graph that has been built, and on any nodes whose memo was written by linearizing them, a
linearization starts with its node, has no repeats, lists the node and all that lies above it, puts
each element before what lies above that, and holds the linearization of each element in order,
which can be asked for at any time. -/
theorem linearization_of_recorded :
    (∀ ds c g, Graph.build ds c = some (.ok g) → Recorded g.nodes g.memo) ∧
      ∀ ns memo, Recorded ns memo → ∀ i l, (linearize ns memo i).2 = .ok l →
        l.head? = some i ∧ l.Nodup ∧
          (∀ a, a ∈ l ↔ ReflTransGen (Step ns.parents) i a) ∧
          (∀ a ∈ l, ∀ b, TransGen (Step ns.parents) a b → [a, b].Sublist l) ∧
          ∀ a ∈ l, ∀ memo', Recorded ns memo' →
            ∃ m, (linearize ns memo' a).2 = .ok m ∧ m.Sublist l := by
  refine ⟨fun ds c g hg => recorded_of_build hg, ?_⟩
  intro ns memo hmemo i l hl
  have hrule : Linearizes ns.parents i l := (linearize_eq_ok_iff hmemo.follows).1 hl
  refine ⟨hrule.head?_eq, hrule.nodup, fun a => hrule.mem_iff, ?_, ?_⟩
  · intro a ha b hab
    exact hrule.before_ancestor ha hab
  · intro a ha memo' hmemo'
    obtain ⟨m, hm, hml⟩ := hrule.sublist ha
    exact ⟨m, (linearize_eq_ok_iff hmemo'.follows).2 hm, hml⟩

/-- A class below a root, asked for twice, in a graph that has been built. -/
theorem linearization_of_recorded_child :
    (∃ g, Graph.build [{ name := "B", parents := ["A"] }] {} = some (.ok g) ∧
        Recorded g.nodes g.memo) ∧
      (linearize #[{ name := "A" }, { name := "B", parents := [0] }]
          (linearize #[{ name := "A" }, { name := "B", parents := [0] }] {} 1).1 1).2 = .ok [1, 0] ∧
      [1, 0].Nodup ∧ [1, 0].head? = some 1 := by
  have hof : Unfolds (declared [{ name := "B", parents := ["A"] }]).roles fun t => [t] := by
    intro t
    have hnil : (declared [{ name := "B", parents := ["A"] }]).roles t = [] := by
      rw [roles_declared, List.filter_cons]
      split <;> rfl
    rw [hnil]
    rfl
  obtain ⟨g, hg, _⟩ := Graph.build_spec [{ name := "B", parents := ["A"] }] {} hof
  have hrule : Linearizes
      (Nodes.parents #[{ name := "A" }, { name := "B", parents := [0] }]) 1 [1, 0] :=
    (Linearizes.iff_of_single_parent rfl).2
      ⟨[0], (Linearizes.iff_of_no_parent rfl).2 rfl, rfl⟩
  have hmemo : Recorded #[{ name := "A" }, { name := "B", parents := [0] }] _ :=
    .linearize .empty 1
  have hl := (linearize_eq_ok_iff hmemo.follows).2 hrule
  obtain ⟨hbuilt, hshape⟩ := linearization_of_recorded
  obtain ⟨hhead, hnodup, _⟩ := hshape _ _ hmemo 1 [1, 0] hl
  exact ⟨⟨g, hg, hbuilt _ _ g hg⟩, hl, hnodup, hhead⟩

end Lineage.Linearization
