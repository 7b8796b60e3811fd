import Lineage.Declaration.References

/-!
# Elementary cycles

An elementary cycle is a closed path that meets no vertex twice. Each one is listed once, from its
smallest vertex, and the cycles are listed in lexicographic order: the paths that start at a vertex
and go on through greater vertices are followed in ascending order until they close.

A path is only extended to vertices from which its start can still be reached without crossing the
path, so that every step taken leads to some cycle and acyclic parts cost next to nothing.
-/

namespace Lineage.Cycles

/-! ## Reachability -/

/-- Marking an unmarked vertex leaves one unmarked vertex less. -/
theorem count_set_true_lt {l : List Bool} {v : Nat} (h : l[v]? = some false) :
    (l.set v true).count false < l.count false := by
  induction l generalizing v with
  | nil => simp at h
  | cons b l ih =>
    cases v with
    | zero =>
      obtain rfl : b = false := by simpa using h
      simp
    | succ v =>
      have := ih (by simpa using h)
      simp only [List.set_cons_succ, List.count_cons]
      omega

/-- Marks everything that can be reached from the vertices of a worklist without entering a marked
vertex. -/
def sweep (next : Nat → List Nat) (marked : Array Bool) (work : List Nat) : Array Bool :=
  match work with
  | [] => marked
  | v :: rest =>
    if _h : marked[v]? = some false then
      sweep next (marked.setIfInBounds v true) (next v ++ rest)
    else sweep next marked rest
termination_by (marked.toList.count false, work.length)
decreasing_by
  · rw [Prod.lex_def]
    left
    simpa using count_set_true_lt (l := marked.toList) (by simpa using _h)
  · rw [Prod.lex_def]
    right
    simp

/-- Whether the start can be reached from a vertex through vertices that are greater than the
start and not on the path. -/
def returns (next : Nat → List Nat) (size start : Nat) (path : List Nat) (v : Nat) : Bool :=
  let closed := Array.ofFn (n := size) fun i =>
    decide (i.val < start) || (i.val != start && path.contains i.val)
  (sweep next closed [v])[start]? == some true

/-! ## Enumeration -/

/-- The cycles that start with the given path, whose vertices are listed the latest first; `fuel`
bounds the number of vertices that a cycle still takes from the path's end on. -/
def extend (next : Nat → List Nat) (size start : Nat) : Nat → List Nat → List (List Nat)
  | 0, _ => []
  | _, [] => []
  | fuel + 1, v :: path =>
    (next v).flatMap fun w =>
      if w = start then [(v :: path).reverse]
      else if start < w && !(v :: path).contains w && returns next size start (v :: path) w then
        extend next size start fuel (w :: v :: path)
      else []

/-- The elementary cycles of the graph on the vertices below `size`; `next` lists the successors
of a vertex in ascending order. -/
def elementary (next : Nat → List Nat) (size : Nat) : List (List Nat) :=
  (List.range size).flatMap fun start => extend next size start size [start]

/-- The successors of every vertex of a graph on names, where a vertex is the place of its name
in an ascending list. -/
def successors (g : NameGraph) (names : List Text) : Array (List Nat) :=
  (names.map fun n =>
    (nameSet (g.targetsOf n)).filterMap fun t => names.findIdx? (· == t)).toArray

/-- The elementary cycles of a graph on names, each from its smallest name on, in lexicographic
order. -/
def ofNames (g : NameGraph) : List (List Text) :=
  let names := nameSet g.names
  let next := successors g names
  let byPlace := names.toArray
  (elementary (fun v => next.getD v []) names.length).map fun c =>
    c.map fun v => byPlace.getD v ""

end Lineage.Cycles
