import Lineage.Graph.Node
import Lineage.Linearization.Merge

/-!
# Why a type has no linearization

Either the merge of its parents' linearizations is blocked, or its ancestors form a cycle. The
fault may lie with an ancestor of the type that was asked for; the report names both.
-/

namespace Lineage

/-- The cause of a failed linearization, in terms of nodes. -/
inductive HierarchyFault where
  /-- The linearizations of the owner's parents have no merge; these heads were left. -/
  | blocked (owner : Nat) (heads : List Nat)
  /-- The parent was met again while it was still being linearized. -/
  | cycle (parent node : Nat)
deriving DecidableEq, Repr

/-- The report of an inconsistent hierarchy: `name` is the type at fault, `requested` the type
whose linearization was asked for. -/
structure HierarchyReport where
  name : Text
  requested : Text
  message : Text
deriving DecidableEq, Repr, Inhabited

namespace HierarchyReport

/-- The message used where none is given. -/
def defaultMessage (name : Text) : Text :=
  "Cannot compute a consistent MRO for '" ++ name ++ "'"

/-- A report; a missing or empty requested name stands for the type at fault, and any other name
than that is added to the message. -/
def make (name : Text) (message : Option Text := none) (requested : Option Text := none) :
    HierarchyReport :=
  let requested := match requested with
    | some r => if r.isEmpty then name else r
    | none => name
  let message := message.getD (defaultMessage name)
  { name, requested
    message :=
      if requested = name then message
      else message ++ " (while linearizing '" ++ requested ++ "')" }

/-- The report as a request for a type passes it on: a report that was made for another type is made
anew from its own message. -/
def passOn (r : HierarchyReport) (requested : Text) : HierarchyReport :=
  if r.requested = requested then r else .make r.name (some r.message) (some requested)

theorem make_none (name message : Text) :
    make name (some message) = { name, requested := name, message } := by
  simp [make]

/-- A report that named the type at fault alone gets the requested name added. -/
theorem passOn_make_none (name message requested : Text) :
    (make name (some message)).passOn requested = make name (some message) (some requested) := by
  rw [make_none, passOn]
  split
  · rename_i h
    simp only at h
    subst h
    cases hempty : name.isEmpty <;> simp [make, hempty]
  · rfl

/-- A report that was made for the requested name is passed on as it is, and making it anew would
not change it. -/
theorem passOn_make_some (name message requested : Text) :
    (make name (some message) (some requested)).passOn requested =
      make name (some message) (some requested) := by
  rw [passOn]
  split
  · rfl
  · rename_i h
    -- only an empty name is not kept, and then no name is added to the message
    cases hempty : requested.isEmpty with
    | false => exact absurd (by simp [make, hempty]) h
    | true => simp [make, hempty]

end HierarchyReport

/-- The message of a merge that is blocked at the given heads. -/
def blockedMessage (owner : Text) (heads : List Text) : Text :=
  HierarchyReport.defaultMessage owner ++ ": no valid head among " ++ Text.intercalate ", " heads

namespace Linearization

/-- The owner that stands in for a missing one. -/
def anonymousOwner : Text :=
  "<merge>"

/-- Merges sequences for an owner; a blocked merge is reported under the owner's name. -/
def mergeFor {α : Type} [DecidableEq α] (owner : Option Text) (nameOf : α → Text)
    (ls : List (List α)) : Except HierarchyReport (List α) :=
  let owner := owner.getD anonymousOwner
  match merge ls with
  | .ok l => .ok l
  | .error stuck => .error (.make owner (some (blockedMessage owner (stuck.map nameOf))))

end Linearization

namespace HierarchyFault

/-- The node at fault. -/
def node : HierarchyFault → Nat
  | blocked owner _ => owner
  | cycle _ node => node

/-- What is wrong, without the type that was asked for. -/
def message (ns : Nodes) : HierarchyFault → Text
  | blocked owner heads => blockedMessage (ns.name owner) (ns.names heads)
  | cycle parent node =>
    "Inheritance cycle through '" ++ ns.name parent ++ "' and '" ++ ns.name node ++ "'"

/-- The report of a fault where it is met. A cycle closes while the requested node is searched for;
a blocked merge knows no other type than its owner. -/
def raised (ns : Nodes) (requested : Nat) (f : HierarchyFault) : HierarchyReport :=
  match f with
  | blocked owner _ => .make (ns.name owner) (some (f.message ns))
  | cycle _ node => .make (ns.name node) (some (f.message ns)) (some (ns.name requested))

/-- The report of a fault found while linearizing the requested node. -/
def report (ns : Nodes) (requested : Nat) (f : HierarchyFault) : HierarchyReport :=
  (f.raised ns requested).passOn (ns.name requested)

/-- The note that a failed request leaves in the log, with the report as it was raised. -/
def logLine (ns : Nodes) (requested : Nat) (f : HierarchyFault) : Text :=
  "MRO failed for " ++ ns.name requested ++ ": " ++ (f.raised ns requested).message

/-- Wherever a fault is met, what comes out is one report for the requested node. -/
theorem report_eq (ns : Nodes) (i : Nat) (f : HierarchyFault) :
    f.report ns i = .make (ns.name f.node) (some (f.message ns)) (some (ns.name i)) := by
  cases f with
  | blocked owner heads => exact HierarchyReport.passOn_make_none _ _ _
  | cycle parent node => exact HierarchyReport.passOn_make_some _ _ _

@[simp] theorem name_report (ns : Nodes) (i : Nat) (f : HierarchyFault) :
    (f.report ns i).name = ns.name f.node := by
  rw [report_eq, HierarchyReport.make]

theorem requested_report (ns : Nodes) (i : Nat) (f : HierarchyFault) :
    (f.report ns i).requested = if (ns.name i).isEmpty then ns.name f.node else ns.name i := by
  rw [report_eq, HierarchyReport.make]

/-- The message names the requested type behind what is wrong, unless that type is the one at
fault. -/
theorem message_report (ns : Nodes) (i : Nat) (f : HierarchyFault) :
    (f.report ns i).message =
      if (f.report ns i).requested = ns.name f.node then f.message ns
      else f.message ns ++ " (while linearizing '" ++ (f.report ns i).requested ++ "')" := by
  rw [report_eq, HierarchyReport.make]
  rfl

end HierarchyFault

end Lineage
