/-!
# The C3 merge

Several sequences are merged into one that keeps the order of each. At every step the heads are
tried from left to right, and the first one that stands behind no other head is taken. The merge
is blocked when there is no such head.
-/

namespace Lineage.Linearization

variable {α : Type} [DecidableEq α]

/-- Whether some sequence holds the element behind its own head. -/
def inTail (x : α) (ls : List (List α)) : Bool :=
  ls.any fun l => l.tail.contains x

/-- The heads of the sequences that are not empty. -/
def heads (ls : List (List α)) : List α :=
  ls.filterMap List.head?

/-- The first head that stands behind no other head. -/
def freeHead? (ls : List (List α)) : Option α :=
  (heads ls).find? fun x => !inTail x ls

/-- The sequence without the element, if that is its head. -/
def dropHead (x : α) : List α → List α
  | [] => []
  | y :: rest => if y = x then rest else y :: rest

theorem length_dropHead_le (x : α) (l : List α) : (dropHead x l).length ≤ l.length := by
  cases l with
  | nil => simp [dropHead]
  | cons y rest => simp only [dropHead]; split <;> simp

theorem length_dropHead_lt {x : α} {l : List α} (h : l.head? = some x) :
    (dropHead x l).length < l.length := by
  cases l with
  | nil => simp at h
  | cons y rest => simp_all [dropHead]

/-- The sequences without the element where it is the head. -/
def dropHeads (x : α) (ls : List (List α)) : List (List α) :=
  ls.map (dropHead x)

/-- The total length of the sequences. -/
def totalLength (ls : List (List α)) : Nat :=
  ls.flatten.length

theorem totalLength_dropHeads_le (x : α) (ls : List (List α)) :
    totalLength (dropHeads x ls) ≤ totalLength ls := by
  induction ls with
  | nil => simp [totalLength, dropHeads]
  | cons l ls ih =>
    have := length_dropHead_le x l
    simp only [totalLength, dropHeads, List.map_cons, List.flatten_cons,
      List.length_append] at *
    omega

theorem totalLength_dropHeads_lt {x : α} {ls : List (List α)} (h : x ∈ heads ls) :
    totalLength (dropHeads x ls) < totalLength ls := by
  induction ls with
  | nil => simp [heads] at h
  | cons l ls ih =>
    have hle := totalLength_dropHeads_le x ls
    have hlen := length_dropHead_le x l
    simp only [heads, List.mem_filterMap, List.mem_cons] at h
    obtain ⟨k, hk, hx⟩ := h
    simp only [totalLength, dropHeads, List.map_cons, List.flatten_cons,
      List.length_append] at *
    rcases hk with rfl | hk
    · have := length_dropHead_lt hx
      omega
    · have := ih (by simpa [heads] using ⟨k, hk, hx⟩)
      omega

theorem freeHead?_mem {ls : List (List α)} {x : α} (h : freeHead? ls = some x) : x ∈ heads ls :=
  List.mem_of_find?_eq_some h

/-- Merges the sequences; when no head is free, the heads are reported instead. -/
def merge (ls : List (List α)) : Except (List α) (List α) :=
  match _h : freeHead? ls with
  | some x =>
    match merge (dropHeads x ls) with
    | .ok rest => .ok (x :: rest)
    | .error stuck => .error stuck
  | none => if (heads ls).isEmpty then .ok [] else .error (heads ls)
termination_by totalLength ls
decreasing_by exact totalLength_dropHeads_lt (freeHead?_mem _h)

end Lineage.Linearization
