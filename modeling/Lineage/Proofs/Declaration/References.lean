import Lineage.Declaration.References
import Lineage.Proofs.Graph.Ingest
import Lineage.Proofs.Text.Order

/-!
# References as edges

The directed graph of a relation has an edge from one name to another exactly if some declaration
of the first name refers to the second one (`mem_targetsOf_references`). Both ends of an edge are
among the names of the graph. A set of names is kept as an ascending list.
-/

namespace Lineage

/-! ## Sets of names -/

theorem mem_insertName {s t : Text} {l : List Text} : s ∈ insertName t l ↔ s = t ∨ s ∈ l := by
  induction l with
  | nil =>
    unfold insertName
    simp
  | cons n rest ih =>
    unfold insertName
    split
    · rw [List.mem_cons]
    · split
      · rename_i heq
        rw [beq_iff_eq.1 heq, List.mem_cons]
        tauto
      · rw [List.mem_cons, List.mem_cons, ih]
        tauto

theorem pairwise_insertName {t : Text} {l : List Text} (h : l.Pairwise (· < ·)) :
    (insertName t l).Pairwise (· < ·) := by
  induction l with
  | nil => exact List.pairwise_singleton _ _
  | cons n rest ih =>
    obtain ⟨hn, hrest⟩ := List.pairwise_cons.1 h
    unfold insertName
    split
    · rename_i hlt
      refine List.pairwise_cons.2 ⟨?_, h⟩
      intro s hs
      rcases List.mem_cons.1 hs with rfl | hs
      · exact hlt
      · exact lt_trans hlt (hn s hs)
    · split
      · exact h
      · rename_i hlt hne
        refine List.pairwise_cons.2 ⟨?_, ih hrest⟩
        intro s hs
        rcases mem_insertName.1 hs with rfl | hs
        · have hne : s ≠ n := fun heq => hne (beq_iff_eq.2 heq)
          exact lt_of_le_of_ne (not_lt.1 hlt) hne.symm
        · exact hn s hs

theorem foldl_insertName (ts l : List Text) :
    (∀ s, s ∈ ts.foldl (fun set t => insertName t set) l ↔ s ∈ l ∨ s ∈ ts) ∧
      (l.Pairwise (· < ·) → (ts.foldl (fun set t => insertName t set) l).Pairwise (· < ·)) := by
  induction ts generalizing l with
  | nil => simp
  | cons t ts ih =>
    obtain ⟨hmem, hpairwise⟩ := ih (insertName t l)
    refine ⟨?_, fun h => hpairwise (pairwise_insertName h)⟩
    intro s
    rw [List.foldl_cons, hmem, mem_insertName, List.mem_cons]
    tauto

theorem mem_nameSet {t : Text} {ts : List Text} : t ∈ nameSet ts ↔ t ∈ ts := by
  unfold nameSet
  rw [(foldl_insertName ts []).1]
  simp

/-- A set of names is listed in strictly ascending order. -/
theorem pairwise_nameSet (ts : List Text) : (nameSet ts).Pairwise (· < ·) :=
  (foldl_insertName ts []).2 List.Pairwise.nil

theorem nodup_nameSet (ts : List Text) : (nameSet ts).Nodup :=
  (pairwise_nameSet ts).imp fun h => ne_of_lt h

/-! ## Lists without repeats -/

theorem mem_foldl_addNew {α : Type} [BEq α] [LawfulBEq α] {x : α} (l seen : List α) :
    x ∈ l.foldl addNew seen ↔ x ∈ seen ∨ x ∈ l := by
  induction l generalizing seen with
  | nil => simp
  | cons y l ih =>
    have hadd : x ∈ addNew seen y ↔ x ∈ seen ∨ x = y := by
      unfold addNew
      split
      · rename_i hy
        have hy : y ∈ seen := List.contains_iff_mem.1 hy
        constructor
        · exact Or.inl
        · rintro (hx | rfl)
          · exact hx
          · exact hy
      · rw [List.mem_append, List.mem_singleton]
    rw [List.foldl_cons, ih, hadd, List.mem_cons, or_assoc]

theorem addNew_eraseDups {α : Type} [BEq α] [LawfulBEq α] (l : List α) (x : α) :
    addNew l.eraseDups x = (l ++ [x]).eraseDups := by
  rw [List.eraseDups_append]
  unfold addNew
  by_cases hx : x ∈ l
  · have hgone : [x].removeAll l = [] := by simp [List.removeAll, hx]
    rw [if_pos (List.contains_iff_mem.2 (List.mem_eraseDups.2 hx)), hgone, List.eraseDups_nil,
      List.append_nil]
  · have hkept : [x].removeAll l = [x] := by simp [List.removeAll, hx]
    rw [if_neg fun h => hx (List.mem_eraseDups.1 (List.contains_iff_mem.1 h)), hkept]
    rfl

/-- Adding members one after the other keeps the first occurrence of each. -/
theorem foldl_addNew {α : Type} [BEq α] [LawfulBEq α] (l seen : List α) :
    l.foldl addNew seen.eraseDups = (seen ++ l).eraseDups := by
  induction l generalizing seen with
  | nil => rw [List.append_nil, List.foldl_nil]
  | cons x l ih =>
    rw [List.foldl_cons, addNew_eraseDups, ih, List.append_assoc, List.singleton_append]

theorem lookup_map_self {α β : Type} [BEq α] [LawfulBEq α] (f : α → β) (l : List α) (a : α) :
    (l.map fun x => (x, f x)).lookup a = if l.contains a then some (f a) else none := by
  induction l with
  | nil => rfl
  | cons x l ih =>
    rw [List.map_cons, List.lookup_cons, List.contains_cons, ih]
    by_cases h : a = x
    · subst h
      simp
    · have hax : (a == x) = false := beq_eq_false_iff_ne.2 h
      rw [hax, Bool.false_or]

/-! ## The declared edges -/

namespace Model

variable {m : Model} {r : Relation} {a b : Text}

theorem mem_mentioned :
    a ∈ m.mentioned r ↔ ∃ d ∈ m.declarations, a = d.name ∨ a ∈ d.targets r := by
  unfold mentioned
  rw [mem_foldl_addNew, List.mem_flatMap]
  simp

theorem mem_targetsOf : b ∈ m.targetsOf r a ↔ DeclaredEdge m.declarations r a b := by
  unfold targetsOf declarationsOf
  rw [mem_foldl_addNew, declaredEdge_iff]
  simp

theorem mentioned_of_edge (h : DeclaredEdge m.declarations r a b) :
    a ∈ m.mentioned r ∧ b ∈ m.mentioned r := by
  obtain ⟨d, hd, rfl, hb⟩ := h
  exact ⟨mem_mentioned.2 ⟨d, hd, Or.inl rfl⟩, mem_mentioned.2 ⟨d, hd, Or.inr hb⟩⟩

/-- The graph of a relation has the declared edges. -/
theorem mem_targetsOf_references :
    b ∈ (m.references r).targetsOf a ↔ DeclaredEdge m.declarations r a b := by
  unfold references NameGraph.targetsOf
  simp only [lookup_map_self]
  split
  · exact mem_targetsOf
  · rename_i hno
    constructor
    · intro hb
      cases hb
    · intro h
      exact absurd (List.contains_iff_mem.2 (mentioned_of_edge h).1) hno

end Model

end Lineage
