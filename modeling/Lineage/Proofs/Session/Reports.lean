import Mathlib
import Lineage.Proofs.Check.Termination
import Lineage.Proofs.Text.Occurrences

/-!
# What a failed request reports

A fault is reported where it is met, and for an ancestor that report is made anew on its way to the
request. What arrives names the type that was asked for and the type at fault, which lies above it,
and says what is wrong there; a note on the request is put behind that once if the two types differ,
and not at all if they are the same (`report_of_build`).

Names are free texts. An empty one does not count as the name of a request, and a name can contain
the note itself.
-/

open Relation (ReflTransGen)

namespace Lineage

/-- The note on a request, which the message about another type ends with. -/
def requestNote (requested : Text) : Text :=
  "(while linearizing '" ++ requested ++ "')"

/-- The words with which every such note begins. -/
def requestWords : Text :=
  "(while linearizing"

namespace HierarchyFault

open Text

variable {ns : Nodes} {f : HierarchyFault} {i : Nat}

/-! ## The message -/

theorem message_report_eq (ns : Nodes) (i : Nat) (f : HierarchyFault) :
    (f.report ns i).message =
      if (f.report ns i).requested = (f.report ns i).name then f.message ns
      else f.message ns ++ " " ++ requestNote (ns.name i) := by
  rw [message_report, name_report]
  split
  · rfl
  · rename_i hne
    -- an empty name would have been replaced by that of the type at fault
    have hrequested : (f.report ns i).requested = ns.name i := by
      rw [requested_report] at hne ⊢
      split
      · rename_i hempty
        rw [if_pos hempty] at hne
        exact absurd rfl hne
      · rfl
    have hseam : (" (while linearizing '" : Text) = " " ++ "(while linearizing '" := by decide
    rw [hrequested, requestNote, hseam]
    simp only [append_assoc]

/-- A fixed text without an opening parenthesis may stand in front. -/
theorem lacks_prepend {a b : Text} (ha : .char '(' ∉ a.codePoints)
    (hb : Lacks requestWords b) : Lacks requestWords (a ++ b) := by
  refine hb.prepend (fun x hx => ?_) (List.cons_ne_nil _ _)
  cases hx
  exact ha

/-- A text that starts with a quote or with a comma may stand behind. -/
theorem lacks_append {a b : Text} {x : CodePoint} (ha : Lacks requestWords a)
    (hb : Lacks requestWords b) (hhead : b.codePoints.head? = some x)
    (hx : x ∉ requestWords.codePoints) : Lacks requestWords (a ++ b) := by
  refine ha.append_of_head? hb fun y hy => ?_
  rw [hhead] at hy
  cases hy
  exact hx

theorem lacks_intercalate {ts : List Text} (h : ∀ t ∈ ts, Lacks requestWords t) :
    Lacks requestWords (intercalate ", " ts) := by
  induction ts with
  | nil => exact occurrences_eq_zero_iff.1 (by decide)
  | cons t ts ih =>
    obtain ⟨ht, hts⟩ := List.forall_mem_cons.1 h
    cases ts with
    | nil =>
      have hsingle : intercalate ", " [t] = t := by
        simp [intercalate, List.intercalate]
      rw [hsingle]
      exact ht
    | cons u us =>
      have hcons : intercalate ", " (t :: u :: us) = t ++ (", " ++ intercalate ", " (u :: us)) := by
        simp only [intercalate, List.map_cons, List.intercalate_cons_cons, List.append_assoc]
        rfl
      rw [hcons]
      exact lacks_append ht (lacks_prepend (by decide) (ih hts)) rfl (by decide)

/-- What is wrong is told without the words of a note, if no name contains them. -/
theorem lacks_message (h : ∀ k, Lacks requestWords (ns.name k)) (f : HierarchyFault) :
    Lacks requestWords (f.message ns) := by
  cases f with
  | blocked owner heads =>
    have hheads : Lacks requestWords (intercalate ", " (ns.names heads)) := by
      refine lacks_intercalate fun t ht => ?_
      obtain ⟨k, _, rfl⟩ := List.mem_map.1 ht
      exact h k
    simp only [message, blockedMessage, HierarchyReport.defaultMessage, append_assoc]
    refine lacks_prepend (by decide) (lacks_append (h owner) ?_ rfl (by decide))
    exact lacks_prepend (by decide) (lacks_prepend (by decide) hheads)
  | cycle parent node =>
    have hend : Lacks requestWords "'" := occurrences_eq_zero_iff.1 (by decide)
    simp only [message, append_assoc]
    refine lacks_prepend (by decide) (lacks_append (h parent) ?_ rfl (by decide))
    exact lacks_prepend (by decide) (lacks_append (h node) hend rfl (by decide))

/-- The note stands in the message once or not at all, if no name contains its words. -/
theorem occurrences_requestNote (h : ∀ k, Lacks requestWords (ns.name k)) (i : Nat)
    (f : HierarchyFault) :
    occurrences (requestNote (ns.name i)) (f.report ns i).message =
      if (f.report ns i).requested = (f.report ns i).name then 0 else 1 := by
  have hmessage := lacks_message h f
  have hbegins : requestWords.codePoints <+: (requestNote (ns.name i)).codePoints := by
    unfold requestNote requestWords
    rw [append_assoc, codePoints_append]
    exact (by decide : (_ : List CodePoint) <+: _).trans (List.prefix_append _ _)
  rw [message_report_eq]
  split
  · rw [occurrences_eq_zero_iff]
    exact fun hnote => hmessage (hbegins.isInfix.trans hnote)
  · -- the words do not end with the space in front of the note either
    have hspace : Lacks requestWords (f.message ns ++ " ") := by
      refine hmessage.append (occurrences_eq_zero_iff.1 (by decide)) ?_
      intro l m hlm _ hm _ hprefix
      obtain rfl | hm' := List.prefix_concat_iff.1 (show m <+: [] ++ [.char ' '] from hprefix)
      · have hlast := congrArg List.getLast? hlm
        rw [List.nil_append, List.getLast?_concat] at hlast
        revert hlast
        decide
      · exact hm (List.prefix_nil.1 hm')
    exact occurrences_append_self hbegins (by decide) hspace

end HierarchyFault

namespace Graph

open Linearization Text

/-! ## The report -/

/-- When asking a graph that has been built for a node fails, the report names that node as the one
that was asked for, unless its name is empty, and the node or one above it as the one at fault. Its
message is that of the fault, with the note on the request behind it exactly if the two names
differ; and where no name contains the words of a note, there is no other note in it. -/
theorem report_of_build {ds : List Declaration} {c : Config} {g : Graph}
    (hg : build ds c = some (.ok g)) (asked : List Nat) (i : Nat) (f : HierarchyFault)
    (hf : ((g.linearizeAll asked).1.linearize i).2 = .error f) :
    let r := (g.linearizeAll asked).1.report i f
    (g.nodes.name i ≠ "" → r.requested = g.nodes.name i) ∧
      (∃ a < g.size, ReflTransGen (Step g.nodes.parents) i a ∧ r.name = g.nodes.name a) ∧
      r.message = (if r.requested = r.name then f.message g.nodes
        else f.message g.nodes ++ " " ++ requestNote (g.nodes.name i)) ∧
      ((∀ k < g.size, occurrences requestWords (g.nodes.name k) = 0) →
        occurrences (requestNote (g.nodes.name i)) r.message =
          if r.requested = r.name then 0 else 1) := by
  have hrecorded := (Check.built_of_build hg).recorded.linearizeAll asked
  obtain ⟨memo, hmemo⟩ := g.linearizeAll_eq asked
  rw [hmemo] at hrecorded hf ⊢
  obtain ⟨habove, hstuck⟩ := (culprit_of_linearize hrecorded.follows hf).stuck (by simp)
  refine ⟨?_, ⟨f.node, lt_size_of_not_linearizable hstuck, habove, ?_⟩, ?_, ?_⟩
  · intro hname
    have hnonempty : (g.nodes.name i).isEmpty = false := by
      rw [Bool.eq_false_iff]
      intro hempty
      exact hname (congrArg Text.mk (List.isEmpty_iff.1 hempty))
    show (f.report g.nodes i).requested = g.nodes.name i
    rw [HierarchyFault.requested_report, hnonempty]
    rfl
  · exact HierarchyFault.name_report g.nodes i f
  · exact HierarchyFault.message_report_eq g.nodes i f
  · intro hwords
    refine HierarchyFault.occurrences_requestNote (fun k => ?_) i f
    by_cases hk : k < g.nodes.size
    · exact occurrences_eq_zero_iff.1 (hwords k hk)
    · have hbeyond : g.nodes.name k = "" := by
        simp only [Nodes.name, Array.getElem?_eq_none (Nat.le_of_not_lt hk)]
      rw [hbeyond]
      exact occurrences_eq_zero_iff.1 (by decide)

/-- A class inherits from a class that inherits from itself. -/
def belowCycle : List Declaration :=
  [{ name := "B", parents := ["A"] }, { name := "A", parents := ["A"] }]

/-- What they are built into. -/
def belowCycleGraph : Graph where
  nodes := #[{ name := "B", parents := [1] }, { name := "A", parents := [1], children := [0, 1] }]
  sorted := [1, 0]
  frozen := true

/-- The report on the class below the cycle carries one note. -/
theorem report_of_build_belowCycle :
    build belowCycle {} = some (.ok belowCycleGraph) ∧
      ((belowCycleGraph.linearizeAll [1]).1.linearize 0).2 = .error (.cycle 1 1) ∧
      belowCycleGraph.nodes.name 0 ≠ "" ∧
      (∀ k < belowCycleGraph.size,
        occurrences requestWords (belowCycleGraph.nodes.name k) = 0) ∧
      ((belowCycleGraph.linearizeAll [1]).1.report 0 (.cycle 1 1)).requested = "B" ∧
      ((belowCycleGraph.linearizeAll [1]).1.report 0 (.cycle 1 1)).name = "A" ∧
      occurrences (requestNote "B")
        ((belowCycleGraph.linearizeAll [1]).1.report 0 (.cycle 1 1)).message = 1 := by
  have hg : build belowCycle {} = some (.ok belowCycleGraph) := by cbv
  have hf : ((belowCycleGraph.linearizeAll [1]).1.linearize 0).2 = .error (.cycle 1 1) := by cbv
  obtain ⟨hrequested, _, _, hnote⟩ := report_of_build hg [1] 0 _ hf
  have hname : belowCycleGraph.nodes.name 0 ≠ "" := by decide
  have hwords : ∀ k < belowCycleGraph.size,
      occurrences requestWords (belowCycleGraph.nodes.name k) = 0 := by decide
  exact ⟨hg, hf, hname, hwords, hrequested hname, by cbv, hnote hwords⟩

/-- Two classes inherit from each other, and one of them is named like the note on the other. -/
def namedLikeNote : List Declaration :=
  [{ name := "A", parents := ["(while linearizing 'A')"] },
    { name := "(while linearizing 'A')", parents := ["A"] }]

/-- A class inherits from a type without a name, which takes the base, and the base inherits from
itself. -/
def withoutName : List Declaration :=
  [{ name := "B", parents := [""] }, { name := "Any", parents := ["Any"] }]

/-- A message about another type can contain the note twice, and a type without a name is not named
as the one that was asked for. -/
theorem note_twice_and_no_request :
    (∃ g f, build namedLikeNote {} = some (.ok g) ∧ (g.linearize 0).2 = .error f ∧
        (g.report 0 f).requested = "A" ∧ (g.report 0 f).name ≠ "A" ∧
        occurrences (requestNote "A") (g.report 0 f).message = 2) ∧
      ∃ g f, build withoutName {} = some (.ok g) ∧ g.nodes.name 1 = "" ∧
        (g.linearize 1).2 = .error f ∧ (g.report 1 f).requested = "Any" := by
  have hg : build namedLikeNote {} = some (.ok {
      nodes := #[{ name := "A", parents := [1], children := [1] },
        { name := "(while linearizing 'A')", parents := [0], children := [0] }]
      sorted := [0, 1], frozen := true }) := by cbv
  have hg' : build withoutName {} = some (.ok {
      nodes := #[{ name := "B", parents := [1] },
        { name := "", parents := [2], children := [0] },
        { name := "Any", parents := [2], children := [1, 2] }]
      sorted := [2, 1, 0], frozen := true }) := by cbv
  refine ⟨⟨_, .cycle 0 1, hg, ?_, ?_, ?_, ?_⟩, ⟨_, .cycle 2 2, hg', ?_, ?_, ?_⟩⟩
  · cbv
  · cbv
  · decide
  · cbv
  · cbv
  · cbv
  · cbv

end Graph

end Lineage
