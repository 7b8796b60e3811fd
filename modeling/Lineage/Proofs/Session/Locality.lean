import Mathlib
import Lineage.Proofs.Check.Termination
import Lineage.Proofs.Linearization.Coherence

/-!
# What a request leaves behind

A search can stop in the middle, with some ancestors linearized and others under way. Even so a
request changes nothing but the memo, and that only at the node and above it: a linearization is
memoized for nodes that have one, it is the one that they would get in the graph as it was built,
and no other node is touched (`local_of_build`). So a request that fails leaves neither the node
memoized nor the node at fault.
-/

open Relation (ReflTransGen)

namespace Lineage

namespace Linearization

variable {ns : Nodes} {memo : Memo} {i k : Nat} {l : List Nat}

/-! ## The memo of a request -/

theorem Recorded.coherent (h : Recorded ns memo) : Coherent memo := by
  induction h with
  | empty => exact coherent_empty
  | linearize _ i ih => exact ih.linearize ns i

/-- What lies above a memoized node is memoized. -/
theorem Recorded.above (h : Recorded ns memo) (hi : memo.has i = true)
    (hik : ReflTransGen (Step ns.parents) i k) : memo.has k = true := by
  have hl := Memo.get?_of_has hi
  have hk : k ∈ (memo.get? i).getD [] := (h.follows i _ hl).mem_iff.2 hik
  obtain ⟨m, hm, _⟩ := h.coherent.contains i _ hl k hk
  exact Memo.has_of_get? hm

theorem get?_linearize (h : memo.get? k = some l) : (linearize ns memo i).1.get? k = some l := by
  obtain ⟨fault, hvisits⟩ := exists_visits_linearize ns memo i
  exact hvisits.grows h

/-- A node that is linearized is memoized from then on. -/
theorem has_linearize_self (h : (linearize ns memo i).2 = .ok l) :
    (linearize ns memo i).1.has i = true := by
  obtain ⟨after, fault, hvisits, heq⟩ := linearize_eq_visits ns memo i
  rw [heq] at h ⊢
  cases fault with
  | none => exact hvisits.known_of_mem rfl (List.mem_singleton_self i)
  | some f => cases h

/-- Only the node and what lies above it are memoized anew. -/
theorem known_or_above_of_linearize (h : Recorded ns memo)
    (hk : (linearize ns memo i).1.has k = true) :
    memo.has k = true ∨ ReflTransGen (Step ns.parents) i k := by
  refine has_linearize_in (S := fun k => memo.has k = true ∨ ReflTransGen (Step ns.parents) i k)
    ?_ (Or.inr .refl) (fun k hk => Or.inl hk) k hk
  rintro j (hj | hj) p hp
  · exact Or.inl (h.above hj (.single hp))
  · exact Or.inr (hj.tail hp)

end Linearization

namespace Graph

open Linearization

variable {fresh g : Graph} {i : Nat}

/-- Asking the graph `g` for a node has a local effect, where `fresh` is the graph as it was
built. -/
structure Local (fresh g : Graph) (i : Nat) : Prop where
  /-- Nothing but the memo has changed since the graph was built. -/
  frame : ∃ memo, (g.linearize i).1 = { fresh with memo }
  /-- What was memoized stays as it is. -/
  keeps : ∀ k l, g.memo.get? k = some l → (g.linearize i).1.memo.get? k = some l
  /-- What is memoized anew is the node or lies above it, and gets its linearization. -/
  adds : ∀ k l, g.memo.get? k = none → (g.linearize i).1.memo.get? k = some l →
    ReflTransGen (Step fresh.nodes.parents) i k ∧ (fresh.linearize k).2 = .ok l
  /-- If there is an answer, all that lies above the node is memoized. -/
  complete : ∀ l, (g.linearize i).2 = .ok l → ∀ k, ReflTransGen (Step fresh.nodes.parents) i k →
    (g.linearize i).1.memo.has k = true
  /-- If there is none, neither the node is memoized nor the one that is named, nor any other node
  without a linearization. -/
  fails : ∀ f, (g.linearize i).2 = .error f →
    (g.linearize i).1.memo.has i = false ∧
      (∀ k < fresh.size, fresh.nodes.name k = (g.report i f).name →
        (g.linearize i).1.memo.has k = false) ∧
      ∀ k, (∀ l, (fresh.linearize k).2 ≠ .ok l) → (g.linearize i).1.memo.has k = false

/-- What is at fault is a node of the registry without a linearization. -/
theorem stuck_of_named {memo : Memo} {f : HierarchyFault} (wf : fresh.nodes.WellFormed)
    (hmemo : Recorded fresh.nodes memo)
    (hf : (Linearization.linearize fresh.nodes memo i).2 = .error f) {k : Nat}
    (hk : k < fresh.nodes.size) (hname : fresh.nodes.name k = fresh.nodes.name f.node) :
    ¬ Linearizable fresh.nodes.parents k := by
  obtain ⟨_, hstuck⟩ := (culprit_of_linearize hmemo.follows hf).stuck (by simp)
  have hnode : f.node < fresh.nodes.size := lt_size_of_not_linearizable hstuck
  rw [wf.injective k f.node hk hnode hname]
  exact hstuck

theorem local_of_recorded (wf : fresh.nodes.WellFormed) (hfresh : Recorded fresh.nodes fresh.memo)
    {memo : Memo} (hmemo : Recorded fresh.nodes memo) (i : Nat) :
    Local fresh { fresh with memo } i where
  frame := ⟨_, rfl⟩
  keeps k l h := get?_linearize h
  adds k l hnew hl := by
    have hafter : Recorded fresh.nodes _ := hmemo.linearize i
    refine ⟨?_, (linearize_eq_ok_iff hfresh.follows).2 (hafter.follows k l hl)⟩
    refine (known_or_above_of_linearize hmemo (Memo.has_of_get? hl)).resolve_left fun hold => ?_
    rw [Memo.has, hnew] at hold
    cases hold
  complete l hl k hk := (hmemo.linearize i).above (has_linearize_self hl) hk
  fails f hf := by
    have hafter : Recorded fresh.nodes _ := hmemo.linearize i
    have hunknown : ∀ k, ¬ Linearizable fresh.nodes.parents k →
        (Linearization.linearize fresh.nodes memo i).1.has k = false :=
      fun k hk => Bool.eq_false_iff.2 fun hknown => hk (hafter.follows.linearizable hknown)
    refine ⟨?_, ?_, ?_⟩
    · exact hunknown i ((linearize_isError_iff hmemo.follows).1 ⟨f, hf⟩)
    · exact fun k hk hname => hunknown k
        (stuck_of_named wf hmemo hf hk (hname.trans (HierarchyFault.name_report _ _ _)))
    · rintro k hk
      refine hunknown k ?_
      rintro ⟨l, hl⟩
      exact hk l ((linearize_eq_ok_iff hfresh.follows).2 hl)

/-- Whatever has been asked for before, asking a graph that has been built for a node changes
nothing but the memo, and that only at the node and above it, where a linearization exists. -/
theorem local_of_build {ds : List Declaration} {c : Config} {g : Graph}
    (hg : build ds c = some (.ok g)) (asked : List Nat) (i : Nat) :
    Local g (g.linearizeAll asked).1 i := by
  have hbuilt := Check.built_of_build hg
  have hrecorded := hbuilt.recorded.linearizeAll asked
  obtain ⟨memo, hmemo⟩ := g.linearizeAll_eq asked
  rw [hmemo] at hrecorded ⊢
  exact local_of_recorded hbuilt.wellFormed hbuilt.recorded hrecorded i

/-- A class inherits from a plain one and from a class that inherits from it in turn. -/
def cyclicAbovePlain : List Declaration :=
  [{ name := "C" }, { name := "A", parents := ["C", "B"] }, { name := "B", parents := ["A"] }]

/-- The search stops at the cycle. By then the plain class has been linearized, and it stays
memoized. -/
theorem local_of_build_cyclicAbovePlain :
    ∃ g, build cyclicAbovePlain {} = some (.ok g) ∧ Local g (g.linearizeAll [3]).1 1 ∧
      ((g.linearizeAll [3]).1.linearize 1).2 = .error (.cycle 1 2) ∧
      (g.linearizeAll [3]).1.memo.get? 0 = none ∧
      ((g.linearizeAll [3]).1.linearize 1).1.memo.get? 0 = some [0, 3] ∧
      ((g.linearizeAll [3]).1.linearize 1).1.memo.has 1 = false := by
  have hg : build cyclicAbovePlain {} = some (.ok {
      nodes := #[{ name := "C", parents := [3], children := [1] },
        { name := "A", parents := [0, 2], children := [2] },
        { name := "B", parents := [1], children := [1] }, { name := "Any", children := [0] }]
      sorted := [3, 0, 2, 1], frozen := true }) := by cbv
  exact ⟨_, hg, local_of_build hg [3] 1, by cbv, by cbv, by cbv, by cbv⟩

end Graph

end Lineage
