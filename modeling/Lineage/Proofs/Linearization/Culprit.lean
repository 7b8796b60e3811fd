import Lineage.Proofs.Linearization.Rule

/-!
# The vertex at fault

A depth-first search for linearizations that fails names one vertex: the first one met whose
parents cannot be merged, or that has a parent whose own linearization is still under way. Which
one that is can be told without the search. `Culprit` goes up from a vertex, always to the first
parent that has no linearization.

Hence the culprit does not depend on what has been memoized, and a renaming that keeps the
structure of the graph renames it along.
-/

open Relation (TransGen ReflTransGen)

namespace Lineage.Linearization

variable {α β : Type} [DecidableEq α] [DecidableEq β] {up : α → List α}

open Classical in
/-- The first of the listed vertices that has no linearization, if there is one. -/
noncomputable def firstStuck? (up : α → List α) (l : List α) : Option α :=
  l.find? fun a => decide (¬ Linearizable up a)

/-- The vertex at fault when the linearization of a vertex is tried while that of the `active`
ones is under way. -/
inductive Culprit (up : α → List α) : List α → α → α → Prop where
  /-- Some parent is under way, perhaps the vertex itself. -/
  | cycle {active : List α} {a : α} (closes : ∃ p ∈ up a, p ∈ a :: active) :
      Culprit up active a a
  /-- The first parent without a linearization passes its fault on. -/
  | above {active : List α} {a p c : α} (clear : ∀ q ∈ up a, q ∉ a :: active)
      (first : firstStuck? up (up a) = some p) (culprit : Culprit up (a :: active) p c) :
      Culprit up active a c
  /-- Every parent has a linearization, but these cannot be merged. -/
  | blocked {active : List α} {a : α} (clear : ∀ q ∈ up a, q ∉ a :: active)
      (parents : ∀ p ∈ up a, Linearizable up p) (stuck : ¬ Linearizable up a) :
      Culprit up active a a

/-! ## The first vertex without a linearization -/

section FirstStuck

variable {a : α} {l m : List α}

theorem firstStuck?_cons_of_linearizable (h : Linearizable up a) (l : List α) :
    firstStuck? up (a :: l) = firstStuck? up l := by
  rw [firstStuck?, List.find?_cons_of_neg (by simpa using h)]
  rfl

theorem firstStuck?_cons_of_stuck (h : ¬ Linearizable up a) (l : List α) :
    firstStuck? up (a :: l) = some a := by
  rw [firstStuck?, List.find?_cons_of_pos (by simpa using h)]

theorem stuck_of_firstStuck? (h : firstStuck? up l = some a) : a ∈ l ∧ ¬ Linearizable up a :=
  ⟨List.mem_of_find?_eq_some h, by simpa using List.find?_some h⟩

theorem firstStuck?_eq_none_iff : firstStuck? up l = none ↔ ∀ a ∈ l, Linearizable up a := by
  simp [firstStuck?]

theorem firstStuck?_congr (h : SameFirsts l m) : firstStuck? up l = firstStuck? up m :=
  h.find? _

/-- Vertices that have a linearization may be left out. -/
theorem firstStuck?_filter {p : α → Bool} (h : ∀ a ∈ l, p a = false → Linearizable up a) :
    firstStuck? up (l.filter p) = firstStuck? up l := by
  induction l with
  | nil => rfl
  | cons b l ih =>
    have hrest := ih fun a ha => h a (List.mem_cons_of_mem b ha)
    cases hb : p b with
    | false =>
      rw [List.filter_cons_of_neg (by simp [hb]), hrest,
        firstStuck?_cons_of_linearizable (h b List.mem_cons_self hb)]
    | true =>
      rw [List.filter_cons_of_pos hb]
      by_cases hlin : Linearizable up b
      · rw [firstStuck?_cons_of_linearizable hlin, firstStuck?_cons_of_linearizable hlin, hrest]
      · rw [firstStuck?_cons_of_stuck hlin, firstStuck?_cons_of_stuck hlin]

theorem firstStuck?_map {up' : β → List β} {f : α → β} {S : α → Prop}
    (h : Renaming up up' f S) (hl : ∀ a ∈ l, S a) :
    firstStuck? up' (l.map f) = (firstStuck? up l).map f := by
  induction l with
  | nil => rfl
  | cons b l ih =>
    have hrest := ih fun a ha => hl a (List.mem_cons_of_mem b ha)
    have hb := Linearizable.map_iff h (hl b List.mem_cons_self)
    rw [List.map_cons]
    by_cases hlin : Linearizable up b
    · rw [firstStuck?_cons_of_linearizable (hb.2 hlin), firstStuck?_cons_of_linearizable hlin,
        hrest]
    · rw [firstStuck?_cons_of_stuck (fun h' => hlin (hb.1 h')), firstStuck?_cons_of_stuck hlin]
      rfl

end FirstStuck

/-! ## The culprit -/

namespace Culprit

variable {active : List α} {a c d : α}

/-- There is only one vertex at fault. -/
theorem unique (hc : Culprit up active a c) (hd : Culprit up active a d) : c = d := by
  -- the rules exclude each other: by a parent under way, and by a parent that is stuck
  induction hc with
  | cycle closes =>
    obtain ⟨p, hp, hactive⟩ := closes
    cases hd with
    | cycle _ => rfl
    | above clear _ _ => exact absurd hactive (clear p hp)
    | blocked clear _ _ => exact absurd hactive (clear p hp)
  | above clear first _ ih =>
    cases hd with
    | cycle closes =>
      obtain ⟨q, hq, hactive⟩ := closes
      exact absurd hactive (clear q hq)
    | above _ first' culprit' =>
      rw [first] at first'
      cases first'
      exact ih culprit'
    | blocked _ parents _ =>
      rw [firstStuck?_eq_none_iff.2 parents] at first
      cases first
  | blocked clear parents _ =>
    cases hd with
    | cycle closes =>
      obtain ⟨q, hq, hactive⟩ := closes
      exact absurd hactive (clear q hq)
    | above _ first _ =>
      rw [firstStuck?_eq_none_iff.2 parents] at first
      cases first
    | blocked _ _ _ => rfl

/-- A renaming that keeps the structure of the graph renames the vertex at fault along. -/
theorem map {up' : β → List β} {f : α → β} {S : α → Prop} (h : Renaming up up' f S)
    (hactive : ∀ x ∈ active, S x) (ha : S a) (hc : Culprit up active a c) :
    Culprit up' (active.map f) (f a) (f c) := by
  induction hc with
  | @cycle active a closes =>
    obtain ⟨p, hp, hmem⟩ := closes
    refine .cycle ⟨f p, (h.mem_iff ha (h.closed a ha p hp)).2 hp, ?_⟩
    rw [← List.map_cons]
    exact List.mem_map_of_mem hmem
  | @above active a p c clear first _ ih =>
    have hp := h.closed a ha p (stuck_of_firstStuck? first).1
    have hactive' : ∀ x ∈ a :: active, S x := List.forall_mem_cons.2 ⟨ha, hactive⟩
    refine .above (h.disjoint_map ha hactive' clear) ?_ (ih hactive' hp)
    rw [firstStuck?_congr (h.successors a ha), firstStuck?_map h (h.closed a ha), first]
    rfl
  | @blocked active a clear parents stuck =>
    have hactive' : ∀ x ∈ a :: active, S x := List.forall_mem_cons.2 ⟨ha, hactive⟩
    refine .blocked (h.disjoint_map ha hactive' clear) ?_ ?_
    · intro q hq
      obtain ⟨p, hp, rfl⟩ := h.of_mem ha hq
      exact (Linearizable.map_iff h (h.closed a ha p hp)).2 (parents p hp)
    · intro hlin
      exact stuck ((Linearizable.map_iff h ha).1 hlin)

/-- The vertex at fault is the one asked for or lies above it, and has no linearization, if all
that is under way lies below. -/
theorem stuck (hc : Culprit up active a c) (hbelow : ∀ x ∈ active, TransGen (Step up) x a) :
    ReflTransGen (Step up) a c ∧ ¬ Linearizable up c := by
  induction hc with
  | @cycle active a closes =>
    refine ⟨.refl, ?_⟩
    rintro ⟨l, hl⟩
    obtain ⟨p, hp, hmem⟩ := closes
    rcases List.mem_cons.1 hmem with rfl | hmem
    · exact hl.not_cyclic (.single hp)
    · exact hl.not_cyclic (.head hp (hbelow p hmem))
  | @above active a p c _ first _ ih =>
    have hp : p ∈ up a := (stuck_of_firstStuck? first).1
    obtain ⟨hpath, hstuck⟩ := ih (Step.paths_to_successor hbelow hp)
    exact ⟨.head hp hpath, hstuck⟩
  | blocked _ _ stuck => exact ⟨.refl, stuck⟩

/-- The vertex at fault lies on a cycle, or all its parents have linearizations. -/
theorem on_cycle_or_merge (hc : Culprit up active a c)
    (hbelow : ∀ x ∈ active, TransGen (Step up) x a) :
    TransGen (Step up) c c ∨ ∀ p ∈ up c, Linearizable up p := by
  induction hc with
  | @cycle active a closes =>
    obtain ⟨p, hp, hmem⟩ := closes
    rcases List.mem_cons.1 hmem with rfl | hmem
    · exact Or.inl (.single hp)
    · exact Or.inl (.head hp (hbelow p hmem))
  | above _ first _ ih =>
    exact ih (Step.paths_to_successor hbelow (stuck_of_firstStuck? first).1)
  | blocked _ parents _ => exact Or.inr parents

/-- A vertex whose parents have linearizations is at fault itself. -/
theorem of_merge (parents : ∀ p ∈ up a, Linearizable up p) (stuck : ¬ Linearizable up a) :
    Culprit up [] a a := by
  refine .blocked (fun q hq hmem => ?_) parents stuck
  obtain rfl := List.mem_singleton.1 hmem
  exact stuck (parents q hq)

/-- The vertex asked for has no linearization either. -/
theorem asked_stuck (hc : Culprit up active a c) (hbelow : ∀ x ∈ active, TransGen (Step up) x a) :
    ¬ Linearizable up a := by
  rintro ⟨l, hl⟩
  obtain ⟨hpath, hstuck⟩ := hc.stuck hbelow
  obtain ⟨m, hm, _⟩ := hl.sublist (hl.mem_iff.2 hpath)
  exact hstuck ⟨m, hm⟩

/-- A search that names a culprit rightly fails. -/
theorem not_linearizable (hc : Culprit up [] a c) : ¬ Linearizable up a :=
  hc.asked_stuck (by simp)

end Culprit

end Lineage.Linearization
