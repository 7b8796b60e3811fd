import Lineage.Proofs.Linearization.Merge
import Lineage.Proofs.Successors

/-!
# The C3 rule

A vertex is linearized by itself followed by the merge of the linearizations of its distinct
parents. `Linearizes` is the least relation closed under this rule. It knows neither a stack nor
a memo, so it serves as the measure of every search for linearizations.

By induction over the rule: a vertex has at most one linearization and none if it lies above
itself; the linearization lists the vertex and all that lies above it, each once and before what
lies above it; and it holds the linearization of each of its elements in order. The rule carries
over to renamed graphs and does not see repeated parents.
-/

open Relation (TransGen ReflTransGen)

namespace Lineage.Linearization

variable {α β : Type} [DecidableEq α] [DecidableEq β] {up : α → List α}

/-- The linearizations by the C3 rule, where `up` lists the parents of each vertex and `of` the
linearizations of the parents of the vertex at hand. -/
inductive Linearizes (up : α → List α) : α → List α → Prop where
  | rule {a : α} {l : List α} (of : α → List α) (parents : ∀ p ∈ up a, Linearizes up p (of p))
      (merged : merge ((up a).eraseDups.map of) = .ok l) : Linearizes up a (a :: l)

/-- Whether a vertex has a linearization. -/
def Linearizable (up : α → List α) (a : α) : Prop :=
  ∃ l, Linearizes up a l

namespace Linearizes

variable {a b : α} {l m : List α}

/-! ## Existence and uniqueness -/

theorem unique (hl : Linearizes up a l) (hm : Linearizes up a m) : l = m := by
  induction hl generalizing m with
  | @rule a l of _ merged ih =>
    cases hm with
    | rule of' parents' merged' =>
      have hof : (up a).eraseDups.map of = (up a).eraseDups.map of' := by
        apply List.map_congr_left
        intro p hp
        have hp := List.mem_eraseDups.1 hp
        exact ih p hp (parents' p hp)
      rw [hof, merged'] at merged
      cases merged
      rfl

/-- A vertex that lies above itself has no linearization. -/
theorem not_cyclic (h : Linearizes up a l) : ¬ TransGen (Step up) a a := by
  induction h with
  | rule of _ _ ih =>
    intro hcycle
    obtain ⟨p, hp, hback⟩ := Step.mem_next_of_path hcycle
    exact ih p hp (Step.cycle_at_successor hp hback)

theorem parent (h : Linearizes up a l) {p : α} (hp : p ∈ up a) : Linearizable up p := by
  cases h with
  | rule of parents _ => exact ⟨of p, parents p hp⟩

/-- Once the linearizations of the parents are known, they decide. Repeated parents may be merged
along. -/
theorem iff_merge (of : α → List α) (hof : ∀ p ∈ up a, Linearizes up p (of p)) :
    Linearizes up a l ↔ ∃ m, merge ((up a).map of) = .ok m ∧ l = a :: m := by
  have hsame : SameFirsts ((up a).eraseDups.map of) ((up a).map of) :=
    (SameFirsts.eraseDups_left (up a)).map of
  constructor
  · intro h
    cases h with
    | @rule _ m of' parents merged =>
      -- a parent has no other linearization than the one given
      have hagree : (up a).eraseDups.map of' = (up a).eraseDups.map of := by
        apply List.map_congr_left
        intro p hp
        have hp := List.mem_eraseDups.1 hp
        exact (parents p hp).unique (hof p hp)
      rw [hagree, merge_eq_ok_iff] at merged
      exact ⟨m, merge_eq_ok_iff.2 (merged.congr hsame), rfl⟩
  · rintro ⟨m, hm, rfl⟩
    rw [merge_eq_ok_iff] at hm
    exact .rule of hof (merge_eq_ok_iff.2 (hm.congr hsame.symm))

/-! ## Elements and order -/

theorem head?_eq (h : Linearizes up a l) : l.head? = some a := by
  cases h
  rfl

/-- A linearization lists the vertex and what lies above it. -/
theorem mem_iff (h : Linearizes up a l) : b ∈ l ↔ ReflTransGen (Step up) a b := by
  induction h with
  | @rule a l of _ merged ih =>
    rw [merge_eq_ok_iff] at merged
    have hl : b ∈ l ↔ ∃ p ∈ up a, ReflTransGen (Step up) p b := by
      rw [merged.mem_iff]
      constructor
      · rintro ⟨s, hs, hb⟩
        obtain ⟨p, hp, rfl⟩ := List.mem_map.1 hs
        have hp := List.mem_eraseDups.1 hp
        exact ⟨p, hp, (ih p hp).1 hb⟩
      · rintro ⟨p, hp, hb⟩
        exact ⟨of p, List.mem_map_of_mem (List.mem_eraseDups.2 hp), (ih p hp).2 hb⟩
    rw [List.mem_cons, hl, ReflTransGen.cases_head_iff]
    exact or_congr_left eq_comm

theorem nodup (h : Linearizes up a l) : l.Nodup := by
  have hcycle := h.not_cyclic
  cases h with
  | @rule _ m of parents merged =>
    rw [merge_eq_ok_iff] at merged
    rw [List.nodup_cons]
    -- were the vertex listed again, one of its parents would lead back to it
    refine ⟨?_, merged.nodup⟩
    intro ha
    obtain ⟨s, hs, has⟩ := merged.mem_iff.1 ha
    obtain ⟨p, hp, rfl⟩ := List.mem_map.1 hs
    have hp := List.mem_eraseDups.1 hp
    exact hcycle (TransGen.head' hp ((parents p hp).mem_iff.1 has))

/-- Linearizations are monotone: each element brings its own linearization along in order. -/
theorem sublist (h : Linearizes up a l) (hb : b ∈ l) :
    ∃ m, Linearizes up b m ∧ m.Sublist l := by
  induction h with
  | @rule a l of parents merged ih =>
    rcases List.mem_cons.1 hb with rfl | hb
    · exact ⟨b :: l, .rule of parents merged, List.Sublist.refl _⟩
    · rw [merge_eq_ok_iff] at merged
      obtain ⟨s, hs, hbs⟩ := merged.mem_iff.1 hb
      obtain ⟨p, hp, rfl⟩ := List.mem_map.1 hs
      obtain ⟨m, hm, hmp⟩ := ih p (List.mem_eraseDups.1 hp) hbs
      exact ⟨m, hm, hmp.trans ((merged.sublist hs).trans (List.sublist_cons_self a l))⟩

/-- Each element stands before what lies above it. -/
theorem before_ancestor {c : α} (h : Linearizes up a l) (hb : b ∈ l)
    (hbc : TransGen (Step up) b c) : [b, c].Sublist l := by
  obtain ⟨m, hm, hml⟩ := h.sublist hb
  have hc : c ∈ m := hm.mem_iff.2 hbc.to_reflTransGen
  have hne : c ≠ b := by
    rintro rfl
    exact hm.not_cyclic hbc
  cases hm with
  | @rule _ m _ _ _ =>
    have hcm : c ∈ m := List.mem_of_ne_of_mem hne hc
    exact ((List.singleton_sublist.2 hcm).cons_cons b).trans hml

/-! ## Few parents -/

/-- A vertex without parents stands alone. -/
theorem iff_of_no_parent (h : up a = []) : Linearizes up a l ↔ l = [a] := by
  rw [iff_merge (fun _ => []) (by rw [h]; simp), h]
  simp [merge_eq_ok_iff.2 merges_nil]

/-- Under a single parent a vertex is put before the linearization of that parent, however often
the parent is listed. -/
theorem iff_of_single_parent {p : α} (h : (up a).eraseDups = [p]) :
    Linearizes up a l ↔ ∃ m, Linearizes up p m ∧ l = a :: m := by
  have hmem : ∀ q ∈ up a, q = p := by
    intro q hq
    rw [← List.mem_eraseDups, h] at hq
    exact List.mem_singleton.1 hq
  have hp : p ∈ up a := by
    rw [← List.mem_eraseDups, h]
    exact List.mem_singleton_self p
  constructor
  · intro hl
    cases hl with
    | @rule _ m of parents merged =>
      rw [h, merge_eq_ok_iff] at merged
      have hm := merged.unique (merges_singleton (parents p hp).nodup)
      exact ⟨m, hm ▸ parents p hp, rfl⟩
  · rintro ⟨m, hm, rfl⟩
    refine .rule (fun _ => m) (fun q hq => hmem q hq ▸ hm) ?_
    rw [h, merge_eq_ok_iff]
    exact merges_singleton hm.nodup

/-! ## Renamed graphs -/

section Renaming

variable {up' : β → List β} {f : α → β} {S : α → Prop}

/-- The linearizations of the parents hold no two vertices of one new name. -/
theorem separates_parents (h : Renaming up up' f S) (ha : S a) {of : α → List α}
    (hof : ∀ p ∈ up a, Linearizes up p (of p)) : Separates f ((up a).eraseDups.map of) := by
  have hS : ∀ s ∈ (up a).eraseDups.map of, ∀ x ∈ s, S x := by
    intro s hs x hx
    obtain ⟨p, hp, rfl⟩ := List.mem_map.1 hs
    have hp := List.mem_eraseDups.1 hp
    exact h.reaches (h.closed a ha p hp) ((hof p hp).mem_iff.1 hx)
  intro s hs t ht x hx y hy hxy
  exact h.injective x y (hS s hs x hx) (hS t ht y hy) hxy

/-- The linearizations of the renamed parents, where they are the renamed linearizations. -/
theorem map_parents (h : Renaming up up' f S) (ha : S a) {of : α → List α} {of' : β → List β}
    (hof : ∀ p ∈ up a, of' (f p) = (of p).map f) :
    (up' (f a)).eraseDups.map of' = ((up a).eraseDups.map of).map (List.map f) := by
  rw [h.eraseDups_map ha, List.map_map, List.map_map]
  apply List.map_congr_left
  intro p hp
  exact hof p (List.mem_eraseDups.1 hp)

theorem map (h : Renaming up up' f S) (ha : S a) (hl : Linearizes up a l) :
    Linearizes up' (f a) (l.map f) := by
  induction hl with
  | @rule a l of parents merged ih =>
    -- the renamed vertices take their linearizations from the vertices they stand for
    classical
    let of' : β → List β := fun q =>
      if hq : ∃ p ∈ up a, f p = q then (of hq.choose).map f else []
    have hof : ∀ p ∈ up a, of' (f p) = (of p).map f := by
      intro p hp
      have hq : ∃ q ∈ up a, f q = f p := ⟨p, hp, rfl⟩
      have heq : hq.choose = p := h.injective _ _ (h.closed a ha _ hq.choose_spec.1)
        (h.closed a ha p hp) hq.choose_spec.2
      show (if hq : ∃ q ∈ up a, f q = f p then (of hq.choose).map f else []) = (of p).map f
      rw [dif_pos hq, heq]
    refine .rule of' ?_ ?_
    · intro q hq
      obtain ⟨p, hp, rfl⟩ := h.of_mem ha hq
      rw [hof p hp]
      exact ih p hp (h.closed a ha p hp)
    · rw [map_parents h ha hof, merge_eq_ok_iff]
      exact (merge_eq_ok_iff.1 merged).map (separates_parents h ha parents)

theorem of_map (h : Renaming up up' f S) (ha : S a) {m : List β} (hm : Linearizes up' (f a) m) :
    ∃ l, Linearizes up a l ∧ m = l.map f := by
  generalize hb : f a = b at hm
  induction hm generalizing a with
  | @rule b m of' parents merged ih =>
    subst hb
    -- the parents that are renamed have linearizations, which can be chosen
    have hex : ∀ p, ∃ l, p ∈ up a → Linearizes up p l ∧ of' (f p) = l.map f := by
      intro p
      by_cases hp : p ∈ up a
      · have hpS := h.closed a ha p hp
        obtain ⟨l, hl, heq⟩ := ih (f p) ((h.mem_iff ha hpS).2 hp) hpS rfl
        exact ⟨l, fun _ => ⟨hl, heq⟩⟩
      · exact ⟨[], fun hp' => absurd hp' hp⟩
    choose of hof using hex
    have hparents : ∀ p ∈ up a, Linearizes up p (of p) := fun p hp => (hof p hp).1
    rw [map_parents h ha fun p hp => (hof p hp).2, merge_eq_ok_iff] at merged
    obtain ⟨l, hl, rfl⟩ := merged.of_map (separates_parents h ha hparents)
    exact ⟨a :: l, .rule of hparents (merge_eq_ok_iff.2 hl), rfl⟩

omit [DecidableEq β] in
/-- Repeated parents make no difference, nor does anything outside of a part that the parents do not
leave. -/
theorem congr_on {up' : α → List α} (hclosed : ∀ a, S a → ∀ p ∈ up a, S p)
    (h : ∀ a, S a → SameFirsts (up' a) (up a)) (ha : S a) (hl : Linearizes up a l) :
    Linearizes up' a l := by
  have hmap := hl.map (Renaming.of_sameFirsts hclosed h) ha
  rwa [List.map_id] at hmap

omit [DecidableEq β] in
theorem congr {up' : α → List α} (h : ∀ a, SameFirsts (up' a) (up a)) (hl : Linearizes up a l) :
    Linearizes up' a l :=
  hl.congr_on (S := fun _ => True) (fun _ _ _ _ => trivial) (fun a _ => h a) trivial

end Renaming

end Linearizes

/-- A renaming keeps apart the vertices that have a linearization from those that have none. -/
theorem Linearizable.map_iff {up' : β → List β} {f : α → β} {S : α → Prop} {a : α}
    (h : Renaming up up' f S) (ha : S a) : Linearizable up' (f a) ↔ Linearizable up a := by
  constructor
  · rintro ⟨m, hm⟩
    obtain ⟨l, hl, _⟩ := Linearizes.of_map h ha hm
    exact ⟨l, hl⟩
  · rintro ⟨l, hl⟩
    exact ⟨l.map f, Linearizes.map h ha hl⟩

end Lineage.Linearization
