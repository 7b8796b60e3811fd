/-!
# Memoized linearizations

Once a node has been linearized the result is kept, also when the request it belonged to fails
later.
-/

namespace Lineage

/-- The linearizations found so far, the newest first. -/
structure Memo where
  entries : List (Nat × List Nat) := []
deriving DecidableEq, Repr, Inhabited

namespace Memo

/-- The linearization of a node, if it has been found. -/
def get? (m : Memo) (i : Nat) : Option (List Nat) :=
  m.entries.lookup i

/-- Whether the linearization of a node has been found. -/
def has (m : Memo) (i : Nat) : Bool :=
  (m.get? i).isSome

/-- Keeps the linearization of a node. -/
def insert (m : Memo) (i : Nat) (l : List Nat) : Memo :=
  ⟨(i, l) :: m.entries⟩

@[simp] theorem get?_empty (i : Nat) : ({} : Memo).get? i = none := rfl

theorem has_of_get? {m : Memo} {i : Nat} {l : List Nat} (h : m.get? i = some l) :
    m.has i = true := by
  rw [has, h]
  rfl

theorem get?_of_has {m : Memo} {i : Nat} (h : m.has i = true) :
    m.get? i = some ((m.get? i).getD []) := by
  obtain ⟨l, hl⟩ := Option.isSome_iff_exists.1 h
  rw [hl]
  rfl

theorem get?_insert (m : Memo) (i j : Nat) (l : List Nat) :
    (m.insert i l).get? j = if j = i then some l else m.get? j := by
  simp only [get?, insert, List.lookup_cons]
  by_cases h : j = i
  · simp [h]
  · simp [h, beq_eq_false_iff_ne.2 h]

theorem has_insert (m : Memo) (i j : Nat) (l : List Nat) :
    (m.insert i l).has j = (decide (j = i) || m.has j) := by
  simp only [has, get?_insert]
  by_cases h : j = i <;> simp [h]

end Memo

end Lineage
