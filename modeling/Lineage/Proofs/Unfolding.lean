import Lineage.Proofs.Successors
import Mathlib.Data.Finset.Card
import Mathlib.Algebra.Order.BigOperators.Group.List
import Mathlib.Algebra.Order.Ring.Nat
import Mathlib.Tactic.Ring

/-!
# Unfolding a graph without cycles

A graph without cycles can be unfolded from each vertex: the vertex comes first, then the
unfoldings of its successors, the last successor first. A vertex is listed once for every path that
leads to it.

* A graph on finitely many vertices has an unfolding if it has no cycle (`Acyclic.exists_unfolds`).
* Its size is at most exponential in the number of vertices (`Unfolds.length_le_pow`).
* If lists are attached to the vertices, it makes no difference up to repeats whether some of them
  stand already for all that the vertex unfolds to (`Unfolds.sameFirsts_flatMap`).
-/

open Relation (TransGen ReflTransGen)

namespace Lineage

variable {α β : Type} {next : α → List α} {of : α → List α}

/-- `of` lists each vertex in front of the unfoldings of its successors, the last one first. -/
def Unfolds (next of : α → List α) : Prop :=
  ∀ a, of a = a :: (next a).reverse.flatMap of

/-! ## Existence -/

/-- In a finite graph without cycles there is no endless path. -/
theorem Acyclic.wellFounded [DecidableEq α] (h : Acyclic next) (U : Finset α)
    (hU : ∀ a, next a ≠ [] → a ∈ U) : WellFounded fun q a => q ∈ next a := by
  -- the vertices that can be reached and have successors get fewer with each step
  have hacc : ∀ (U : Finset α) (a : α),
      (∀ b, ReflTransGen (Step next) a b → next b ≠ [] → b ∈ U) →
        Acc (fun q a => q ∈ next a) a := by
    intro U
    induction U using Finset.strongInduction with
    | H U ih =>
      intro a hreach
      constructor
      intro q hq
      have ha : a ∈ U := hreach a .refl (List.ne_nil_of_mem hq)
      refine ih (U.erase a) (Finset.erase_ssubset ha) q ?_
      intro b hqb hb
      refine Finset.mem_erase.2 ⟨?_, hreach b (.head hq hqb) hb⟩
      rintro rfl
      exact h b (.head' hq hqb)
  exact ⟨fun a => hacc U a fun b _ hb => hU b hb⟩

theorem Acyclic.exists_unfolds [DecidableEq α] (h : Acyclic next) (U : Finset α)
    (hU : ∀ a, next a ≠ [] → a ∈ U) : ∃ of, Unfolds next of := by
  have wf := h.wellFounded U hU
  refine ⟨wf.fix fun a of => a :: (next a).reverse.attach.flatMap fun q =>
    of q.1 (List.mem_reverse.1 q.2), ?_⟩
  intro a
  rw [wf.fix_eq]
  congr 1
  rw [← List.flatMap_map Subtype.val (wf.fix _), List.attach_map_subtype_val]

namespace Unfolds

/-! ## Induction along the successors -/

theorem length_lt (h : Unfolds next of) {a q : α} (hq : q ∈ next a) :
    (of q).length < (of a).length := by
  have hsub : (of q).Sublist ((next a).reverse.flatMap of) :=
    List.sublist_flatten_of_mem (List.mem_map_of_mem (List.mem_reverse.2 hq))
  rw [h a, List.length_cons]
  exact Nat.lt_succ_of_le hsub.length_le

/-- What holds of a vertex as soon as it holds of its successors holds of all. -/
theorem induction (h : Unfolds next of) {motive : α → Prop}
    (step : ∀ a, (∀ q ∈ next a, motive q) → motive a) (a : α) : motive a := by
  induction hn : (of a).length using Nat.strongRecOn generalizing a with
  | ind n ih =>
    refine step a fun q hq => ih _ ?_ q rfl
    rw [← hn]
    exact h.length_lt hq

/-- A graph with an unfolding has no cycle. -/
theorem acyclic (h : Unfolds next of) : Acyclic next :=
  acyclic_of_rank (fun a => (of a).length) fun _ _ => h.length_lt

/-- A vertex unfolds to vertices that can be reached. -/
theorem closed (h : Unfolds next of) {S : α → Prop} (hclosed : ∀ a, S a → ∀ q ∈ next a, S q)
    (a : α) (ha : S a) : ∀ b ∈ of a, S b := by
  induction a using h.induction with
  | step a ih =>
    intro b hb
    rw [h a] at hb
    rcases List.mem_cons.1 hb with rfl | hb
    · exact ha
    · obtain ⟨q, hq, hb⟩ := List.mem_flatMap.1 hb
      have hq := List.mem_reverse.1 hq
      exact ih q hq (hclosed a ha q hq) b hb

/-- A vertex unfolds to itself and to all that can be reached. -/
theorem mem_iff (h : Unfolds next of) {a b : α} : b ∈ of a ↔ ReflTransGen (Step next) a b := by
  induction a using h.induction with
  | step a ih =>
    rw [h a, List.mem_cons, List.mem_flatMap, ReflTransGen.cases_head_iff]
    refine or_congr eq_comm (exists_congr fun q => ?_)
    rw [List.mem_reverse]
    exact and_congr_right fun hq => ih q hq

/-! ## Size -/

/-- With fewer than `b` successors for each vertex, and all vertices that have successors in `U`,
no unfolding is longer than a path through `U` that chooses `b` ways at each step. -/
theorem length_le_pow [DecidableEq α] (h : Unfolds next of) {b : Nat}
    (hb : ∀ a, (next a).length < b) (U : Finset α) (a : α)
    (hU : ∀ c, ReflTransGen (Step next) a c → next c ≠ [] → c ∈ U) :
    (of a).length ≤ b ^ U.card := by
  have hpos : 0 < b := Nat.lt_of_le_of_lt (Nat.zero_le _) (hb a)
  induction a using h.induction generalizing U with
  | step a ih =>
    by_cases hnil : next a = []
    · rw [h a, hnil]
      exact Nat.pow_pos hpos
    · have ha : a ∈ U := hU a .refl hnil
      have hq : ∀ q ∈ next a, (of q).length ≤ b ^ (U.erase a).card := by
        intro q hq
        refine ih q hq (U.erase a) ?_
        intro c hqc hc
        refine Finset.mem_erase.2 ⟨?_, hU c (.head hq hqc) hc⟩
        rintro rfl
        exact h.acyclic c (.head' hq hqc)
      have hrest : ((next a).reverse.flatMap of).length ≤
          (next a).length * b ^ (U.erase a).card := by
        have hsum := List.sum_le_card_nsmul ((next a).reverse.map fun q => (of q).length)
          (b ^ (U.erase a).card) ?_
        · rw [List.length_map, List.length_reverse, Nat.nsmul_eq_mul] at hsum
          rw [List.length_flatMap]
          exact hsum
        · intro k hk
          obtain ⟨q, hq', rfl⟩ := List.mem_map.1 hk
          exact hq q (List.mem_reverse.1 hq')
      have hone : 1 ≤ b ^ (U.erase a).card := Nat.pow_pos hpos
      have hcard : U.card = (U.erase a).card + 1 := (Finset.card_erase_add_one ha).symm
      rw [h a, List.length_cons, hcard, Nat.pow_succ]
      calc ((next a).reverse.flatMap of).length + 1
          ≤ (next a).length * b ^ (U.erase a).card + b ^ (U.erase a).card := by omega
        _ = ((next a).length + 1) * b ^ (U.erase a).card := by ring
        _ ≤ b * b ^ (U.erase a).card := Nat.mul_le_mul_right _ (hb a)
        _ = b ^ (U.erase a).card * b := Nat.mul_comm _ _

/-! ## Attached lists -/

/-- A renamed graph unfolds to renamed lists. -/
theorem map {next' of' : β → List β} (h : Unfolds next of) (h' : Unfolds next' of')
    {f : α → β} {S : α → Prop} (hclosed : ∀ a, S a → ∀ q ∈ next a, S q)
    (hnext : ∀ a, S a → next' (f a) = (next a).map f) (a : α) (ha : S a) :
    of' (f a) = (of a).map f := by
  induction a using h.induction with
  | step a ih =>
    rw [h' (f a), h a, hnext a ha, List.map_cons, ← List.map_reverse, List.flatMap_map,
      List.map_flatMap]
    congr 1
    apply List.flatMap_congr
    intro q hq
    have hq := List.mem_reverse.1 hq
    exact ih q hq (hclosed a ha q hq)

/-- The lists of all vertices that are unfolded, put one after the other, are the same up to
repeats if some of them have grown to hold the lists behind them already. -/
theorem sameFirsts_flatMap [BEq β] [LawfulBEq β] (h : Unfolds next of) {old cur : α → List β}
    (hcur : ∀ a, cur a = old a ∨ SameFirsts (cur a) ((of a).flatMap old)) (a : α) :
    SameFirsts ((of a).flatMap cur) ((of a).flatMap old) := by
  induction a using h.induction with
  | step a ih =>
    have hsplit : ∀ f : α → List β, (of a).flatMap f =
        f a ++ (next a).reverse.flatMap fun q => (of q).flatMap f := by
      intro f
      rw [h a, List.flatMap_cons, List.flatMap_assoc]
    have hrest : SameFirsts ((next a).reverse.flatMap fun q => (of q).flatMap cur)
        ((next a).reverse.flatMap fun q => (of q).flatMap old) :=
      .flatMap_congr fun q hq => ih q (List.mem_reverse.1 hq)
    rw [hsplit cur]
    rcases hcur a with heq | hgrown
    · rw [heq, hsplit old]
      exact SameFirsts.append (.refl _) hrest
    · -- what follows is held already
      refine (SameFirsts.append hgrown hrest).trans (.append_of_subset ?_)
      rw [hsplit old]
      exact List.subset_append_right _ _

end Unfolds

end Lineage
