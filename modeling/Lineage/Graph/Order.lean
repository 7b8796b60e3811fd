import Lineage.Graph.Node

/-!
# Dependency order

Nodes are put into one order in which parents and roles come before what depends on them. The walk
starts from the nodes in order of their names, visits the dependencies of a node in stored order
and emits the node behind them. A node already visited is not entered again, so a cycle is cut
short and not reported.

The walk is kept on an explicit stack of the entered nodes, each with the dependencies it has still
to look at. It ends because every turn either visits a node for the first time or leaves the
number of unvisited nodes alone and reduces what is left on the stack.
-/

namespace Lineage.Order

/-- The state of a walk. -/
structure Walk where
  /-- The nodes entered so far, the latest first. -/
  visited : List Nat
  /-- The entered nodes that are not emitted yet, the latest first, with what each has still to
  look at. -/
  stack : List (Nat × List Nat)
  /-- The nodes emitted so far, the latest first. -/
  emitted : List Nat
deriving DecidableEq, Repr

/-- Enters a node. -/
def Walk.enter (ns : Nodes) (w : Walk) (i : Nat) : Walk :=
  { w with visited := i :: w.visited, stack := (i, ns.dependencies i) :: w.stack }

/-- One turn of the walk, with `top` on the stack over `rest`. -/
def turn (ns : Nodes) (w : Walk) (top : Nat × List Nat) (rest : List (Nat × List Nat)) : Walk :=
  match top with
  | (i, []) => { w with stack := rest, emitted := i :: w.emitted }
  | (i, d :: ds) =>
    let w := { w with stack := (i, ds) :: rest }
    if w.visited.contains d then w else w.enter ns d

/-! ## Termination -/

/-- The number of nodes not visited yet. -/
def unvisited (ns : Nodes) (w : Walk) : Nat :=
  (List.range ns.size).countP fun i => !w.visited.contains i

/-- What is left on the stack; a dependency weighs more than an entered node that has none. -/
def load (stack : List (Nat × List Nat)) : Nat :=
  stack.foldr (fun (_, ds) rest => 1 + 2 * ds.length + rest) 0

theorem countP_not_contains_cons_lt {l visited : List Nat} {d : Nat} (hd : d ∈ l)
    (hnew : d ∉ visited) :
    l.countP (fun i => !(d :: visited).contains i) < l.countP fun i => !visited.contains i := by
  induction l with
  | nil => simp at hd
  | cons b l ih =>
    have hle : l.countP (fun i => !(d :: visited).contains i)
        ≤ l.countP fun i => !visited.contains i :=
      List.countP_mono_left fun x _ hx => by simp at hx ⊢; exact hx.2
    by_cases hbd : b = d
    · subst hbd
      simp [hnew] at hle ⊢
      omega
    · have hlt := ih (by simpa [Ne.symm hbd] using hd)
      simp only [List.countP_cons]
      by_cases hb : b ∈ visited <;> simp [hb, hbd] at hlt ⊢ <;> omega

/-- Every turn makes progress in the lexicographic order of unvisited nodes and load. -/
theorem turn_decreases {ns : Nodes} {w : Walk} {top : Nat × List Nat}
    {rest : List (Nat × List Nat)} (hs : w.stack = top :: rest) :
    unvisited ns (turn ns w top rest) < unvisited ns w ∨
      (unvisited ns (turn ns w top rest) ≤ unvisited ns w ∧
        load (turn ns w top rest).stack < load w.stack) := by
  match top with
  | (i, []) => right; simp [turn, unvisited, load, hs]
  | (i, d :: ds) =>
    simp only [turn]
    split
    · right; simp [unvisited, load, hs]
    · rename_i hnew
      have hnew : d ∉ w.visited := by simpa using hnew
      rcases Nat.lt_or_ge d ns.size with hd | hd
      · left
        exact countP_not_contains_cons_lt (by simpa using hd) hnew
      · right
        constructor
        · exact List.countP_mono_left fun x _ hx => by
            simp [Walk.enter] at hx ⊢; exact hx.2
        · simp [Walk.enter, load, hs, Nodes.dependencies_of_size_le hd]
          omega

/-- Takes turns until the stack is empty. -/
def run (ns : Nodes) (w : Walk) : Walk :=
  match _hs : w.stack with
  | [] => w
  | top :: rest => run ns (turn ns w top rest)
termination_by (unvisited ns w, load w.stack)
decreasing_by
  rw [Prod.lex_def]
  have := @turn_decreases ns _ _ _ _hs
  simp only
  omega

/-- The given nodes in order of their names; equal names keep their order. -/
def byName (ns : Nodes) (is : List Nat) : List Nat :=
  is.mergeSort fun i j => decide (ns.name i ≤ ns.name j)

/-- Walks from one start node, unless it has been visited. -/
def walkFrom (ns : Nodes) (w : Walk) (i : Nat) : Walk :=
  if w.visited.contains i then w else run ns (w.enter ns i)

/-- The given nodes and all they depend on, each once, dependencies first. -/
def sort (ns : Nodes) (is : List Nat) : List Nat :=
  ((byName ns is).foldl (walkFrom ns) ⟨[], [], []⟩).emitted.reverse

end Lineage.Order
