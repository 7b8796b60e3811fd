import Lineage.Linearization.Fault
import Lineage.Linearization.Memo
import Lineage.Linearization.Merge

/-!
# Linearizing a node

The linearization of a node is the node followed by the merge of its parents' linearizations. The
ancestors are linearized first, depth first on an explicit stack. The stack holds the node that is
being looked at on top; under it lie siblings that wait for their turn and the nodes whose
ancestors are still missing. Those started and not finished are the active ones: meeting an active
node again closes a cycle.

The search ends because every turn either starts a node that was neither active nor memoized, or
leaves the number of such nodes alone and shortens the stack.
-/

namespace Lineage.Linearization

/-- The state of a search. -/
structure Search where
  /-- The nodes still to be looked at, the next one first. -/
  stack : List Nat
  /-- The nodes started and not finished, the latest first. -/
  active : List Nat
  memo : Memo
deriving DecidableEq, Repr

/-- The parents that are not linearized yet. -/
def missing (ns : Nodes) (memo : Memo) (i : Nat) : List Nat :=
  (ns.parents i).filter fun p => !memo.has p

/-- The linearization of a node from those of its parents. A node without parents stands alone,
and the linearization of a single parent needs no merge. -/
def combine (ns : Nodes) (memo : Memo) (i : Nat) : Except HierarchyFault (List Nat) :=
  match (ns.parents i).filterMap memo.get? with
  | [] => .ok [i]
  | [l] => .ok (i :: l)
  | ls =>
    match merge ls with
    | .ok l => .ok (i :: l)
    | .error stuck => .error (.blocked i stuck)

/-- The parent through which a node that is just being started closes a cycle: of the missing
parents that are active, the last one. A node may be its own parent. -/
def closing? (ns : Nodes) (s : Search) (i : Nat) : Option Nat :=
  (missing ns s.memo i).reverse.find? fun p => (i :: s.active).contains p

/-- One turn of the search, with `i` on top of the stack and `rest` under it. -/
def turn (ns : Nodes) (s : Search) (i : Nat) (rest : List Nat) : Except HierarchyFault Search :=
  if s.memo.has i then .ok { s with stack := rest }
  else
    let parents := missing ns s.memo i
    if !s.active.contains i && !parents.isEmpty then
      match closing? ns s i with
      | some p => .error (.cycle p i)
      | none => .ok { s with stack := parents ++ s.stack, active := i :: s.active }
    else
      match combine ns s.memo i with
      | .ok l =>
        .ok { stack := rest, active := s.active.erase i, memo := s.memo.insert i l }
      | .error fault => .error fault

/-! ## Termination -/

/-- A node that has been neither started nor finished. -/
def fresh (s : Search) (i : Nat) : Bool :=
  !s.memo.has i && !s.active.contains i

/-- The number of fresh nodes. -/
def freshCount (ns : Nodes) (s : Search) : Nat :=
  (List.range ns.size).countP (fresh s)

theorem countP_lt_of_imp {α : Type} {p q : α → Bool} {l : List α} {a : α} (ha : a ∈ l)
    (himp : ∀ x ∈ l, p x → q x) (hq : q a) (hp : p a = false) : l.countP p < l.countP q := by
  induction l with
  | nil => simp at ha
  | cons b l ih =>
    have hb := himp b (by simp)
    rcases List.mem_cons.1 ha with rfl | ha
    · have := List.countP_mono_left (fun x hx => himp x (List.mem_cons_of_mem _ hx)) (l := l)
      simp [hq, hp]
      omega
    · have := ih ha (fun x hx => himp x (List.mem_cons_of_mem _ hx))
      simp only [List.countP_cons]
      by_cases h : p b = true
      · simp [h, hb h]; omega
      · simp [h]; omega

theorem missing_eq_nil_of_size_le {ns : Nodes} {memo : Memo} {i : Nat} (h : ns.size ≤ i) :
    missing ns memo i = [] := by
  simp [missing, Nodes.parents_of_size_le h]

/-- Every turn makes progress in the lexicographic order of fresh nodes and stack length. -/
theorem turn_decreases {ns : Nodes} {s t : Search} {i : Nat} {rest : List Nat}
    (hs : s.stack = i :: rest) (h : turn ns s i rest = .ok t) :
    freshCount ns t < freshCount ns s ∨
      (freshCount ns t ≤ freshCount ns s ∧ t.stack.length < s.stack.length) := by
  unfold turn at h
  split at h
  · obtain rfl : { s with stack := rest } = t := by simpa using h
    right
    exact ⟨Nat.le_refl _, by simp [hs]⟩
  · rename_i hmemo
    simp only at h
    split at h
    · rename_i hnew
      split at h
      · simp at h
      · obtain rfl := Except.ok.inj h
        left
        simp only [Bool.and_eq_true, Bool.not_eq_eq_eq_not, Bool.not_true] at hnew
        have hi : i < ns.size := by
          rcases Nat.lt_or_ge i ns.size with hi | hi
          · exact hi
          · simp [missing_eq_nil_of_size_le hi] at hnew
        refine countP_lt_of_imp (a := i) (by simpa using hi) ?_ ?_ ?_
        · intro x _ hx
          simp only [fresh, List.contains_cons, Bool.and_eq_true, Bool.not_eq_true',
            Bool.or_eq_false_iff] at hx ⊢
          exact ⟨hx.1, hx.2.2⟩
        · simp only [Bool.not_eq_true] at hmemo
          simp only [fresh, hmemo, hnew.1, Bool.not_false, Bool.and_self]
        · simp [fresh]
    · split at h
      · obtain rfl := Except.ok.inj h
        right
        refine ⟨?_, by simp [hs]⟩
        refine List.countP_mono_left ?_
        intro x _ hx
        simp only [fresh, Memo.has_insert, Bool.and_eq_true, Bool.not_eq_true',
          Bool.or_eq_false_iff, decide_eq_false_iff_not] at hx ⊢
        obtain ⟨⟨hxi, hx₁⟩, hx₂⟩ := hx
        refine ⟨hx₁, ?_⟩
        simpa [List.mem_erase_of_ne hxi] using hx₂
      · simp at h

/-- Takes turns until the stack is empty or a fault is met; what was memoized stays. -/
def run (ns : Nodes) (s : Search) : Memo × Option HierarchyFault :=
  match _hs : s.stack with
  | [] => (s.memo, none)
  | i :: rest =>
    match _h : turn ns s i rest with
    | .ok t => run ns t
    | .error fault => (s.memo, some fault)
termination_by (freshCount ns s, s.stack.length)
decreasing_by
  rw [Prod.lex_def]
  have := turn_decreases _hs _h
  simp only
  omega

/-- The linearization of a node, with the memo that the search leaves behind. -/
def linearize (ns : Nodes) (memo : Memo) (i : Nat) :
    Memo × Except HierarchyFault (List Nat) :=
  match memo.get? i with
  | some l => (memo, .ok l)
  | none =>
    match run ns { stack := [i], active := [], memo } with
    | (after, some fault) => (after, .error fault)
    | (after, none) => (after, .ok ((after.get? i).getD []))

end Lineage.Linearization
