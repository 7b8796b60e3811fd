import Mathlib
import Lineage.Proofs.Session.Soundness

/-!
# Freezing in an order that is offered

A graph can be frozen in any list of its nodes. What is looked at is the length of the list: another
one than that of the registry is refused, and the graph goes on as it was, without an order. A list
of the right length is recorded as it is. So the recorded order lists every node once exactly if the
list repeats none (`freezes_of_mutable`). The dependency order never repeats a node.
-/

namespace Lineage.Graph

open Nodes

variable {g h : Graph} {is : List Nat}

/-! ## Graphs without an order -/

/-- An order is recorded in a frozen graph only. -/
theorem sorted_of_effect (hg : g.frozen = false → g.sorted = []) (heffect : Effect g h) :
    h.frozen = false → h.sorted = [] := by
  intro hh
  cases heffect with
  | grown hgrown hsize =>
    rw [hgrown.frozen] at hh
    rw [hgrown.sorted]
    exact hg hh
  | frozen hlength his => cases hh
  | @linearized js hjs =>
    obtain ⟨memo, hmemo⟩ := g.linearizeAll_eq js
    rw [hmemo] at hh ⊢
    exact hg hh

theorem sorted_of_mutable (c : Config) (rs : List Request)
    (hmutable : (session c rs).frozen = false) : (session c rs).sorted = [] := by
  have hkept : Sound (session c rs) ∧
      ((session c rs).frozen = false → (session c rs).sorted = []) := by
    refine List.foldlRecOn (motive := fun g => Sound g ∧ (g.frozen = false → g.sorted = []))
      rs _ ⟨sound_empty c, fun _ => rfl⟩ ?_
    rintro g ⟨hsound, hg⟩ r _
    exact ⟨hsound.perform r, sorted_of_effect hg (effect_perform hsound.toRegistered r)⟩
  exact hkept.2 hmutable

/-! ## The list that is offered -/

/-- A list of as many nodes as there are lists each of them once exactly if it repeats none. -/
theorem lists_once_iff {n : Nat} (hlength : is.length = n) (his : ∀ i ∈ is, i < n) :
    (∀ i < n, is.count i = 1) ↔ is.Nodup := by
  constructor
  · intro honce
    refine List.nodup_iff_count_le_one.2 fun i => ?_
    by_cases hi : i ∈ is
    · exact Nat.le_of_eq (honce i (his i hi))
    · rw [List.count_eq_zero_of_not_mem hi]
      exact Nat.zero_le 1
  · intro hnodup
    have hsubset : is ⊆ List.range n := fun i hi => List.mem_range.2 (his i hi)
    -- a part of the nodes that is as long as all of them is all of them
    have hperm : is.Perm (List.range n) := by
      refine (hnodup.subperm hsubset).perm_of_length_le ?_
      rw [List.length_range, hlength]
    intro i hi
    rw [hperm.count_eq]
    exact List.count_eq_one_of_mem List.nodup_range (List.mem_range.2 hi)

/-- How a graph goes on that is frozen in a list of its nodes. -/
structure Freezes (g : Graph) (is : List Nat) : Prop where
  /-- A list of another length is refused, and the graph stays as it was. -/
  refused : is.length ≠ g.size →
    g.attempting (g.freeze is) = (g, .error (.wrongLength is.length g.size))
  /-- A list of the right length is recorded as it is. -/
  recorded : is.length = g.size →
    g.attempting (g.freeze is) = ({ g with sorted := is, frozen := true }, .ok .done)
  lists_once_iff : is.length = g.size → ((∀ i < g.size, is.count i = 1) ↔ is.Nodup)

theorem freeze_eq_of_mutable (hmutable : g.frozen = false) (is : List Nat) :
    g.freeze is = if is.length = g.size then .ok { g with sorted := is, frozen := true }
      else .error (.wrongLength is.length g.size) := by
  unfold freeze checkMutable
  rw [hmutable]
  rfl

theorem freezes_of_sound (hmutable : g.frozen = false) (his : ∀ i ∈ is, i < g.size) :
    Freezes g is := by
  have hfreeze := freeze_eq_of_mutable hmutable is
  refine ⟨?_, ?_, fun hlength => Graph.lists_once_iff hlength his⟩
  · intro hlength
    rw [hfreeze, if_neg hlength]
    rfl
  · intro hlength
    rw [hfreeze, if_pos hlength]
    rfl

/-- A graph that is not frozen has no order, whatever has been requested of it. Offered a list of
its nodes, it refuses one of another length than its registry, stays as it was, and records any
other. The order that it is frozen in lists every node once exactly if the list repeats none. The
dependency order is such a list. -/
theorem freezes_of_mutable (c : Config) (rs : List Request) {g : Graph} (hg : session c rs = g)
    (hmutable : g.frozen = false) (is : List Nat) (his : ∀ i ∈ is, i < g.size) :
    g.sorted = [] ∧ Freezes g is ∧ Freezes g g.order ∧ ∀ i < g.size, g.order.count i = 1 := by
  subst hg
  have hperm := Order.sort_range_perm (sound_session c rs).intact.wellFormed
  have horder : ∀ i ∈ (session c rs).order, i < (session c rs).size := fun i hi =>
    List.mem_range.1 (hperm.mem_iff.1 hi)
  have hfreezes := freezes_of_sound hmutable horder
  refine ⟨sorted_of_mutable c rs hmutable, freezes_of_sound hmutable his, hfreezes, ?_⟩
  refine (hfreezes.lists_once_iff ?_).2 (hperm.nodup_iff.2 List.nodup_range)
  exact hperm.length_eq.trans List.length_range

/-- Two types are ingested. -/
def ingestedTwo : List Request :=
  [.ingest [{ name := "A" }, { name := "B" }]]

/-- Of two types, the first one is offered twice. The graph is frozen in that order, and the second
type is not in it. -/
theorem freezes_of_mutable_repeated :
    ∃ g, session {} ingestedTwo = g ∧ g.frozen = false ∧
      (∀ i ∈ [0, 0], i < g.size) ∧ g.sorted = [] ∧
      (g.attempting (g.freeze [0, 0])).1.frozen = true ∧
      (g.attempting (g.freeze [0, 0])).1.sorted = [0, 0] ∧
      g.find? "B" = some 1 ∧ ¬ ∀ i < g.size, [0, 0].count i = 1 := by
  have hsize : (session {} ingestedTwo).size = 2 := by cbv
  have hmutable : (session {} ingestedTwo).frozen = false := by cbv
  have hclosed : ∀ i ∈ [0, 0], i < (session {} ingestedTwo).size := by
    rw [hsize]
    decide
  obtain ⟨hsorted, hfreezes, _⟩ :=
    freezes_of_mutable {} ingestedTwo rfl hmutable [0, 0] hclosed
  have hrecorded := hfreezes.recorded hsize.symm
  refine ⟨_, rfl, hmutable, hclosed, hsorted, ?_, ?_, by cbv, ?_⟩
  · rw [hrecorded]
  · rw [hrecorded]
  · rw [hfreezes.lists_once_iff hsize.symm]
    decide

end Lineage.Graph
