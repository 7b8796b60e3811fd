import Lineage.Proofs.Linearization.Coherence
import Lineage.Proofs.Session.Steps

/-!
# What holds in every session

Requests may come in any order, also in one that no build would choose: types may be linearized
before all their parents are known, and parents may be added to them afterwards, even so that the
edges close a cycle. Whatever is requested, the registry stays in order, a frozen graph lists as
many entries as it has nodes, and the memo holds together (`Sound`).
-/

namespace Lineage.Graph

open Linearization Nodes

variable {g h : Graph} {i : Nat}

/-- What every request preserves. -/
structure Sound (g : Graph) : Prop extends Registered g where
  complete : g.frozen = true → g.sorted.length = g.nodes.size
  known : ∀ i, g.memo.has i = true → i < g.nodes.size
  coherent : Coherent g.memo

theorem sound_empty (c : Config) : Sound { config := c } := by
  refine ⟨⟨⟨?_, ?_⟩, ?_⟩, ?_, ?_, coherent_empty⟩
  · intro i j hi
    cases hi
  · intro i n hn
    cases hn
  · intro i hi
    cases hi
  · intro hfrozen
    cases hfrozen
  · intro i hi
    cases hi

namespace Sound

theorem grown (hg : Sound g) (hgrown : Grown g h)
    (hsize : g.frozen = true → h.nodes.size = g.nodes.size) : Sound h where
  intact := hgrown.intact
  sorted i hi := by
    rw [hgrown.sorted] at hi
    exact Nat.lt_of_lt_of_le (hg.sorted i hi) hgrown.size_le
  complete hfrozen := by
    rw [hgrown.frozen] at hfrozen
    rw [hgrown.sorted, hsize hfrozen]
    exact hg.complete hfrozen
  known i hi := by
    rw [hgrown.memo] at hi
    exact Nat.lt_of_lt_of_le (hg.known i hi) hgrown.size_le
  coherent := by
    rw [hgrown.memo]
    exact hg.coherent

theorem linearize (hg : Sound g) (hi : i < g.nodes.size) : Sound (g.linearize i).1 where
  intact := hg.intact
  sorted := hg.sorted
  complete := hg.complete
  known := has_linearize_in (S := (· < g.nodes.size))
    (fun j _ => hg.intact.wellFormed.parents_closed j) hi hg.known
  coherent := hg.coherent.linearize g.nodes i

theorem linearizeAll (hg : Sound g) (is : List Nat) (his : ∀ i ∈ is, i < g.nodes.size) :
    Sound (g.linearizeAll is).1 := by
  induction is generalizing g with
  | nil => exact hg
  | cons i is ih =>
    obtain ⟨hi, his⟩ := List.forall_mem_cons.1 his
    exact ih (hg.linearize hi) his

theorem effect (hg : Sound g) (heffect : Effect g h) : Sound h := by
  cases heffect with
  | grown hgrown hsize => exact hg.grown hgrown hsize
  | frozen hlength his => exact ⟨⟨hg.intact, his⟩, fun _ => hlength, hg.known, hg.coherent⟩
  | linearized his => exact hg.linearizeAll _ his

theorem perform (hg : Sound g) (r : Request) : Sound (g.perform r).1 :=
  hg.effect (effect_perform hg.toRegistered r)

end Sound

/-- The graph that requests lead to from an empty one. -/
def session (c : Config) (rs : List Request) : Graph :=
  ({ config := c } : Graph).after rs

theorem sound_session (c : Config) (rs : List Request) : Sound (session c rs) :=
  List.foldlRecOn rs _ (sound_empty c) fun _ hg r _ => hg.perform r

/-- Whatever is requested of an empty graph, each name leads to the node of that name; all edges,
the recorded order and the memo hold nodes of the registry; the order of a frozen graph has as many
entries as the registry; and each memoized linearization starts with its node, has no repeats, and
contains in order what is memoized for each of its elements, which is something. -/
theorem session_spec (c : Config) (rs : List Request) :
    (∀ t i, (session c rs).find? t = some i ↔
      i < (session c rs).size ∧ (session c rs).nodes.name i = t) ∧
      (∀ (i : Nat) n, (session c rs).nodes[i]? = some n →
        ∀ d ∈ n.parents ++ n.roles ++ n.children ++ n.doers, d < (session c rs).size) ∧
      (∀ i ∈ (session c rs).sorted, i < (session c rs).size) ∧
      ((session c rs).frozen = true → (session c rs).sorted.length = (session c rs).size) ∧
      ∀ i l, (session c rs).memo.get? i = some l →
        i < (session c rs).size ∧ l.head? = some i ∧ l.Nodup ∧
          ∀ a ∈ l, a < (session c rs).size ∧
            ∃ m, (session c rs).memo.get? a = some m ∧ m.Sublist l := by
  have hsound := sound_session c rs
  have hknown : ∀ i l, (session c rs).memo.get? i = some l → i < (session c rs).size :=
    fun i l hl => hsound.known i (Memo.has_of_get? hl)
  refine ⟨fun t i => find?_eq_some_iff hsound.intact.wellFormed, hsound.intact.closed,
    hsound.sorted, hsound.complete, ?_⟩
  intro i l hl
  refine ⟨hknown i l hl, hsound.coherent.head i l hl, hsound.coherent.nodup i l hl, ?_⟩
  intro a ha
  obtain ⟨m, hm, hsub⟩ := hsound.coherent.contains i l hl a ha
  exact ⟨hknown a m hm, m, hm, hsub⟩

end Lineage.Graph
