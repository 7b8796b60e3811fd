import Lineage.Check.Cycles
import Lineage.Proofs.Graph.CycleList
import Mathlib.Data.List.Sort

/-!
# Cycle reports

Both cycle checks report one error for every elementary cycle of the declared edges of their
relation, and nothing else. The report depends on the edges alone, not on the order in which the
declarations give them (`roleCycles_inheritanceCycles_exact`). Nor does it depend on how the cycles
are found: found in any order and written from any of their names on, they are the same once each is
written from its smallest name on and all are sorted (`cycles_eq_arranged`).
-/

open List (IsRotated)

namespace Lineage.Check

/-- The elementary cycles of a graph, each from its smallest name on, in ascending order. -/
structure CycleListing (edge : Text → Text → Prop) (cs : List (List Text)) : Prop where
  mem_iff : ∀ c, c ∈ cs ↔ ElementaryCycle edge c ∧ StartsLeast c
  ascending : cs.Pairwise (· < ·)

section

variable {edge : Text → Text → Prop} {cs cs' : List (List Text)}

/-- From whichever name a cycle is written, one of the listed cycles is the same cycle. -/
theorem CycleListing.existsUnique (h : CycleListing edge cs) {c : List Text}
    (hc : ElementaryCycle edge c) : ∃! c', c' ∈ cs ∧ IsRotated c' c := by
  obtain ⟨c', ⟨hrotated, hcycle, hleast⟩, hunique⟩ := hc.existsUnique_rotation
  refine ⟨c', ⟨(h.mem_iff c').2 ⟨hcycle, hleast⟩, hrotated⟩, ?_⟩
  rintro d ⟨hd, hrotated'⟩
  obtain ⟨hcycle', hleast'⟩ := (h.mem_iff d).1 hd
  exact hunique d ⟨hrotated', hcycle', hleast'⟩

/-- A graph has one listing of its cycles only. -/
theorem CycleListing.eq (h : CycleListing edge cs) (h' : CycleListing edge cs') : cs = cs' :=
  h.ascending.eq_of_mem_iff h'.ascending fun c => (h.mem_iff c).trans (h'.mem_iff c).symm

/-- The cycles that are found by names list those of the declared edges. -/
theorem cycleListing_ofNames (m : Model) (r : Relation) :
    CycleListing (DeclaredEdge m.declarations r) (Cycles.ofNames (m.references r)) := by
  refine ⟨fun c => ?_, Cycles.pairwise_ofNames _⟩
  rw [Cycles.mem_ofNames_iff Model.ends_mem_references, Model.step_references]

/-- All elementary cycles of a graph, in any order, each of them once and from any of its names
on. -/
structure CycleEnumeration (edge : Text → Text → Prop) (cs : List (List Text)) : Prop where
  cycle : ∀ c ∈ cs, ElementaryCycle edge c
  complete : ∀ c, ElementaryCycle edge c → ∃ c' ∈ cs, IsRotated c' c
  once : cs.Pairwise fun c c' => ¬ IsRotated c c'

/-- The cycles in ascending order, each from its smallest name on. -/
def arranged (cs : List (List Text)) : List (List Text) :=
  (cs.map fromLeast).mergeSort fun c c' => decide (c ≤ c')

theorem mem_arranged {c : List Text} : c ∈ arranged cs ↔ ∃ c' ∈ cs, fromLeast c' = c := by
  unfold arranged
  rw [List.mem_mergeSort, List.mem_map]

/-- Two cycles that are written alike from their smallest names on are the same cycle. -/
theorem CycleEnumeration.ascending (h : CycleEnumeration edge cs) :
    (arranged cs).Pairwise (· < ·) := by
  have hnodup : (cs.map fromLeast).Nodup := by
    refine List.pairwise_map.2 (h.once.imp fun {c c'} hne heq => hne ?_)
    exact (isRotated_fromLeast c).symm.trans (heq ▸ isRotated_fromLeast c')
  have hsorted : (arranged cs).Pairwise fun c c' => decide (c ≤ c') = true :=
    List.pairwise_mergeSort (by simpa using fun a b c => le_trans) (by simpa using le_total) _
  have hdistinct : (arranged cs).Nodup := (List.mergeSort_perm _ _).nodup_iff.2 hnodup
  exact (hsorted.and hdistinct).imp fun h => lt_of_le_of_ne (of_decide_eq_true h.1) h.2

/-- However the cycles are enumerated, arranging them gives the listing. -/
theorem CycleEnumeration.cycleListing (h : CycleEnumeration edge cs) :
    CycleListing edge (arranged cs) := by
  refine ⟨fun c => ?_, h.ascending⟩
  rw [mem_arranged]
  constructor
  · rintro ⟨c', hc', rfl⟩
    exact ⟨(h.cycle c' hc').isRotated (isRotated_fromLeast c').symm, startsLeast_fromLeast c'⟩
  · -- a cycle that starts with its smallest name is what becomes of the form that was found
    rintro ⟨hcycle, hleast⟩
    obtain ⟨c', hc', hrotated⟩ := h.complete c hcycle
    refine ⟨c', hc', ?_⟩
    have hforms := (isRotated_fromLeast c').trans hrotated
    exact eq_of_isRotated_of_startsLeast (hforms.nodup_iff.2 hcycle.nodup)
      (startsLeast_fromLeast c') hleast hforms

/-- The listing is itself an enumeration. -/
theorem CycleListing.enumeration (h : CycleListing edge cs) : CycleEnumeration edge cs where
  cycle := fun c hc => ((h.mem_iff c).1 hc).1
  complete := fun _ hc => (h.existsUnique hc).exists
  once := by
    refine h.ascending.imp_of_mem fun {c c'} hc hc' hlt hrotated => ?_
    obtain ⟨hcycle, hleast⟩ := (h.mem_iff c).1 hc
    obtain ⟨_, hleast'⟩ := (h.mem_iff c').1 hc'
    exact absurd (eq_of_isRotated_of_startsLeast hcycle.nodup hleast hleast' hrotated)
      (ne_of_lt hlt)

/-- A report of exactly one error for every elementary cycle of a graph. The errors come in the
order of the cycles, each given from its smallest name on; the path in the message ends with the
name it starts with. -/
def ReportsCycles (code label : String) (edge : Text → Text → Prop) (report : Report) : Prop :=
  ∃ cs, CycleListing edge cs ∧ (∀ c, ElementaryCycle edge c → ∃! c', c' ∈ cs ∧ IsRotated c' c) ∧
    report.issues = cs.map fun c =>
      { code := code
        message := label ++ " cycle: " ++ Text.intercalate " -> " (c ++ c.take 1)
        severity := .error
        subject := c.head?
        details := [("cycle", Json.texts c)] }

/-- There is only one such report. -/
theorem ReportsCycles.eq {code label : String} {report report' : Report}
    (h : ReportsCycles code label edge report) (h' : ReportsCycles code label edge report') :
    report = report' := by
  obtain ⟨cs, hcs, _, hissues⟩ := h
  obtain ⟨cs', hcs', _, hissues'⟩ := h'
  obtain rfl := hcs.eq hcs'
  cases report
  cases report'
  exact congrArg Report.mk (hissues.trans hissues'.symm)

end

/-- A cycle check reports the cycles of its relation. -/
theorem reportsCycles_cycles (m : Model) (r : Relation) :
    ReportsCycles (cycleCode r) (cycleLabel r) (DeclaredEdge m.declarations r) (cycles r m) := by
  have hlisting := cycleListing_ofNames m r
  exact ⟨_, hlisting, fun _ => hlisting.existsUnique, rfl⟩

/-- There is such an enumeration for all declarations. -/
theorem cycleEnumeration_ofNames (m : Model) (r : Relation) :
    CycleEnumeration (DeclaredEdge m.declarations r) (Cycles.ofNames (m.references r)) :=
  (cycleListing_ofNames m r).enumeration

/-- However the cycles of the declared edges are found, the report has an error for each of them
once they are arranged. -/
theorem cycles_eq_arranged {m : Model} {r : Relation} {cs : List (List Text)}
    (h : CycleEnumeration (DeclaredEdge m.declarations r) cs) :
    cycles r m = ⟨(arranged cs).map (cycleIssue r)⟩ := by
  unfold cycles
  rw [h.cycleListing.eq (cycleListing_ofNames m r)]

/-- The report only depends on which declared edges there are. -/
theorem cycles_congr {m m' : Model} {r : Relation}
    (h : ∀ a b, DeclaredEdge m'.declarations r a b ↔ DeclaredEdge m.declarations r a b) :
    cycles r m' = cycles r m := by
  have hedge : DeclaredEdge m'.declarations r = DeclaredEdge m.declarations r := by
    funext a b
    exact propext (h a b)
  exact (hedge ▸ reportsCycles_cycles m' r).eq (reportsCycles_cycles m r)

/-- The cycle checks report the elementary cycles of the declared roles and of the declared parents,
each of them once and nothing else. Models with the same edges have the same reports. -/
theorem roleCycles_inheritanceCycles_exact (m : Model) :
    (ReportsCycles "ROLE_CYCLE" "Role composition" (DeclaredEdge m.declarations .composes)
        (roleCycles m) ∧
      ReportsCycles "INHERITANCE_CYCLE" "Inheritance" (DeclaredEdge m.declarations .inherits)
        (inheritanceCycles m)) ∧
    ∀ m' : Model,
      ((∀ a b, DeclaredEdge m'.declarations .composes a b ↔
          DeclaredEdge m.declarations .composes a b) → roleCycles m' = roleCycles m) ∧
      ((∀ a b, DeclaredEdge m'.declarations .inherits a b ↔
          DeclaredEdge m.declarations .inherits a b) →
        inheritanceCycles m' = inheritanceCycles m) :=
  ⟨⟨reportsCycles_cycles m .composes, reportsCycles_cycles m .inherits⟩,
    fun _ => ⟨cycles_congr, cycles_congr⟩⟩

/-- Two cycles share two names, and a third one consists of one of these names only. -/
example :
    (roleCycles ⟨[{ name := "b", roles := ["a", "b"] }, { name := "c", roles := ["a"] },
      { name := "a", roles := ["b"] }, { name := "b", roles := ["c", "a"] }]⟩).issues.map
        (·.message) =
      ["Role composition cycle: a -> b -> a", "Role composition cycle: a -> b -> c -> a",
        "Role composition cycle: b -> b"] := by
  cbv

end Lineage.Check
