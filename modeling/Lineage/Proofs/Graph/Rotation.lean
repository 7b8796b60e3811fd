import Mathlib.Data.List.Chain
import Mathlib.Data.List.Rotate
import Mathlib.Order.MinMax

/-!
# Cycles up to rotation

An elementary cycle is a closed walk that meets no vertex twice. It may be written from any of its
vertices on, so one cycle has as many written forms as vertices, the rotations of each other. Where
vertices are ordered, exactly one of these forms starts with the smallest vertex
(`ElementaryCycle.existsUnique_rotation`).
-/

namespace Lineage

open List (IsRotated)

variable {α β : Type}

/-- The vertices of an elementary cycle, from one of them on. -/
structure ElementaryCycle (r : α → α → Prop) (c : List α) : Prop where
  ne_nil : c ≠ []
  nodup : c.Nodup
  /-- Each vertex leads to the next one, and the last vertex to the first. -/
  closed : (c ++ c.take 1).IsChain r

theorem elementaryCycle_cons_iff {r : α → α → Prop} {a : α} {l : List α} :
    ElementaryCycle r (a :: l) ↔ (a :: (l ++ [a])).IsChain r ∧ (a :: l).Nodup :=
  ⟨fun h => ⟨h.closed, h.nodup⟩, fun h => ⟨List.cons_ne_nil a l, h.2, h.1⟩⟩

/-! ## Rotations -/

/-- A cycle may be written from its second vertex on. -/
theorem ElementaryCycle.rotate_one {r : α → α → Prop} {a : α} {l : List α}
    (h : ElementaryCycle r (a :: l)) : ElementaryCycle r (l ++ [a]) := by
  cases l with
  | nil => exact h
  | cons b l =>
    obtain ⟨hchain, hnodup⟩ := elementaryCycle_cons_iff.1 h
    obtain ⟨hab, hrest⟩ := List.isChain_cons_cons.1 hchain
    rw [List.cons_append, elementaryCycle_cons_iff]
    constructor
    · -- the first edge is moved behind the last one
      have hsplit : b :: (l ++ [a] ++ [b]) = (b :: l) ++ a :: [b] := by simp
      rw [hsplit, List.isChain_split]
      exact ⟨hrest, List.isChain_pair.2 hab⟩
    · rw [← List.cons_append]
      exact (List.isRotated_concat a (b :: l)).nodup_iff.2 hnodup

/-- All forms of a cycle are cycles. -/
theorem ElementaryCycle.rotate {r : α → α → Prop} {c : List α} (h : ElementaryCycle r c)
    (n : Nat) : ElementaryCycle r (c.rotate n) := by
  induction n generalizing c with
  | zero =>
    rw [List.rotate_zero]
    exact h
  | succ n ih =>
    cases c with
    | nil => exact absurd rfl h.ne_nil
    | cons a l =>
      rw [List.rotate_cons_succ]
      exact ih h.rotate_one

theorem ElementaryCycle.isRotated {r : α → α → Prop} {c c' : List α} (h : ElementaryCycle r c)
    (hc : IsRotated c c') : ElementaryCycle r c' := by
  obtain ⟨n, rfl⟩ := hc
  exact h.rotate n

/-- Every vertex of a cycle leads somewhere. -/
theorem ElementaryCycle.exists_edge {r : α → α → Prop} {c : List α} (h : ElementaryCycle r c)
    {a : α} (ha : a ∈ c) : ∃ b, r a b := by
  obtain ⟨s, t, rfl⟩ := List.append_of_mem ha
  have hrotated : ElementaryCycle r (a :: (t ++ s)) := h.isRotated List.isRotated_append
  obtain ⟨hchain, _⟩ := elementaryCycle_cons_iff.1 hrotated
  obtain ⟨b, l, hl⟩ := List.exists_cons_of_ne_nil (List.append_ne_nil_of_right_ne_nil (t ++ s)
    (List.cons_ne_nil a []))
  rw [hl] at hchain
  exact ⟨b, (List.isChain_cons_cons.1 hchain).1⟩

/-- Cycles correspond where vertices and edges do. -/
theorem elementaryCycle_map_iff {r : α → α → Prop} {r' : β → β → Prop} {f : α → β} {c : List α}
    (hinj : ∀ a ∈ c, ∀ b ∈ c, f a = f b → a = b)
    (hedge : ∀ a ∈ c, ∀ b ∈ c, r a b ↔ r' (f a) (f b)) :
    ElementaryCycle r' (c.map f) ↔ ElementaryCycle r c := by
  have hclosed : (c.map f ++ (c.map f).take 1).IsChain r' ↔ (c ++ c.take 1).IsChain r := by
    rw [← List.map_take, ← List.map_append, List.isChain_map]
    have hmem : ∀ a ∈ c ++ c.take 1, a ∈ c := by
      intro a ha
      exact (List.mem_append.1 ha).elim id List.mem_of_mem_take
    exact List.IsChain.iff_of_mem_imp fun a b ha hb => (hedge a (hmem a ha) b (hmem b hb)).symm
  constructor
  · intro h
    exact ⟨fun hc => h.ne_nil (List.map_eq_nil_iff.2 hc), List.Nodup.of_map f h.nodup,
      hclosed.1 h.closed⟩
  · intro h
    exact ⟨fun hc => h.ne_nil (List.map_eq_nil_iff.1 hc), h.nodup.map_on hinj, hclosed.2 h.closed⟩

/-! ## The form with the smallest vertex first -/

section

variable [LinearOrder α]

/-- The first vertex is the smallest one. -/
def StartsLeast (c : List α) : Prop :=
  ∀ a ∈ c.head?, ∀ b ∈ c, a ≤ b

theorem startsLeast_cons_iff {a : α} {l : List α} :
    StartsLeast (a :: l) ↔ ∀ b ∈ a :: l, a ≤ b := by
  simp [StartsLeast]

/-- The vertices of a cycle from the place on at which the smallest one stands first. -/
def fromLeast (c : List α) : List α :=
  let start := (c.min?.map c.idxOf).getD 0
  c.drop start ++ c.take start

/-- Written from its smallest vertex on, a cycle stays the same cycle. -/
theorem isRotated_fromLeast (c : List α) : IsRotated (fromLeast c) c := by
  unfold fromLeast
  conv => enter [2]; rw [← List.take_append_drop ((c.min?.map c.idxOf).getD 0) c]
  exact List.isRotated_append

/-- The smallest vertex comes first. -/
theorem startsLeast_fromLeast (c : List α) : StartsLeast (fromLeast c) := by
  have hmem : ∀ b, b ∈ fromLeast c → b ∈ c := fun b => (isRotated_fromLeast c).mem_iff.1
  unfold fromLeast at hmem ⊢
  cases hmin : c.min? with
  | none =>
    obtain rfl := List.min?_eq_none_iff.1 hmin
    nofun
  | some a =>
    obtain ⟨ha, hleast⟩ := List.min?_eq_some_iff.1 hmin
    rw [hmin] at hmem
    have hlt : c.idxOf a < c.length := List.idxOf_lt_length_of_mem ha
    simp only [Option.map_some, Option.getD_some] at hmem ⊢
    rw [List.drop_eq_getElem_cons hlt, List.getElem_idxOf] at hmem ⊢
    rw [List.cons_append, startsLeast_cons_iff]
    exact fun b hb => hleast b (hmem b hb)

/-- Two forms of a cycle that both start with the smallest vertex are the same, since it stands in
only one place. -/
theorem eq_of_isRotated_of_startsLeast {l l' : List α} (hnodup : l.Nodup) (hl : StartsLeast l)
    (hl' : StartsLeast l') (h : IsRotated l l') : l = l' := by
  obtain ⟨n, hn, rfl⟩ := List.isRotated_iff_mod.1 h
  rcases Nat.lt_or_eq_of_le hn with hlt | rfl
  · -- the vertex that comes first after the rotation is the one that came first before it
    have hpos : 0 < l.length := Nat.zero_lt_of_lt hlt
    have hfirst : l.head? = some l[0] :=
      List.head?_eq_getElem?.trans (List.getElem?_eq_getElem hpos)
    have hfirst' : (l.rotate n).head? = some l[n] :=
      (List.head?_rotate hlt).trans (List.getElem?_eq_getElem hlt)
    have hle : l[0] ≤ l[n] := hl _ hfirst _ (List.getElem_mem hlt)
    have hge : l[n] ≤ l[0] := hl' _ hfirst' _ (List.mem_rotate.2 (List.getElem_mem hpos))
    have hzero : 0 = n := hnodup.getElem_inj_iff.1 (le_antisymm hle hge)
    rw [← hzero, List.rotate_zero]
  · exact (List.rotate_length l).symm

/-- Of all forms of a cycle, one starts with the smallest vertex. -/
theorem ElementaryCycle.existsUnique_rotation {r : α → α → Prop} {c : List α}
    (h : ElementaryCycle r c) :
    ∃! c', IsRotated c' c ∧ ElementaryCycle r c' ∧ StartsLeast c' := by
  have hrotated := isRotated_fromLeast c
  have hleast := startsLeast_fromLeast c
  refine ⟨fromLeast c, ⟨hrotated, h.isRotated hrotated.symm, hleast⟩, ?_⟩
  rintro c'' ⟨hrotated', hcycle', hleast'⟩
  exact eq_of_isRotated_of_startsLeast hcycle'.nodup hleast' hleast
    (hrotated'.trans hrotated.symm)

end

end Lineage
