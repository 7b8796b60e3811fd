import Lineage.Output.Graph
import Lineage.Output.Report
import Lineage.Proofs.Check.Verdict
import Lineage.Proofs.Graph.Names
import Lineage.Proofs.Json.Ascii
import Lineage.Proofs.Output.Encoding

/-!
# Output that a stream takes

JSON is in ASCII, so every stream takes it. Text shows names as they are, and signs of its own:

* a stream takes a report without errors if it takes the names in the graph, and the sign for a
  warning if there is one (`Check.takes_toText_run`), and hardly otherwise
  (`Report.takes_sign_of_toText`, `Check.takes_name_of_toText_run`);
* a stream takes a graph in which all types are linearized exactly if it takes their names and
  categories (`Graph.takes_render_text_iff`).
-/

namespace Lineage

open Text Encoding

variable {e : Encoding}

/-- The words for kinds are in ASCII. -/
theorem Kind.ascii_keyword (k : Kind) : Ascii k.keyword.toList := by
  cases k <;> decide

theorem Relation.ascii_keyword (r : Relation) : Ascii r.keyword.toList := by
  cases r <;> decide

/-- Every stream takes JSON. -/
theorem Json.takes_render (j : Json) : e.Takes (ofString j.render) :=
  takes_ofString j.ascii_render

/-! ## Reports -/

/-- A line of a report shows the sign for its severity, the code, the subject and the message. -/
theorem Issue.takes_line_iff {i : Issue} :
    e.Takes i.line ↔ e.Takes i.severity.symbol ∧ e.Takes i.code ∧
      (∀ s, i.subject = some s → e.Takes s) ∧ e.Takes i.message := by
  have hlocated : e.Takes (i.located "" " ") ↔ ∀ s, i.subject = some s → e.Takes s := by
    unfold located
    cases hs : i.subject with
    | none => simp (disch := decide) [takes_ofString]
    | some s =>
      simp only [Option.some.injEq, forall_eq']
      split
      · -- an empty subject is left out, but would be taken
        rename_i hempty
        unfold isEmpty at hempty
        rw [List.isEmpty_iff] at hempty
        have htakes : e.Takes s := by
          intro p hmem
          rw [hempty] at hmem
          cases hmem
        simp (disch := decide) [takes_ofString, htakes]
      · simp (disch := decide) [takes_ofString]
  unfold line
  simp (disch := decide) [takes_ofString, hlocated, and_assoc]

namespace Report

/-- A section of a report is taken if its issues are. -/
theorem takes_sectionLines (title : String) (htitle : Ascii title.toList) (issues : List Issue) :
    (∀ t ∈ sectionLines title issues, e.Takes t) ↔ ∀ i ∈ issues, e.Takes i.line := by
  unfold sectionLines
  rw [List.forall_mem_cons, and_iff_right (takes_ofString htitle)]
  cases issues with
  | nil => simp (disch := decide) [takes_ofString]
  | cons i issues => simp (disch := decide) [takes_ofString]

theorem ascii_verdict (r : Report) : Ascii r.verdict.toList := by
  unfold verdict
  dsimp only
  split
  · simp [toString]
  · split
    · simp [toString]
    · decide

/-- A stream takes a report as text exactly if it takes all issues that show. -/
theorem takes_toText_iff {r : Report} :
    e.Takes r.toText ↔ ∀ i ∈ r.issues, i.severity ≠ .info → e.Takes i.line := by
  have herrors := takes_sectionLines (e := e) "ERRORS:" (by decide) r.errors
  have hwarnings := takes_sectionLines (e := e) "WARNINGS:" (by decide) r.warnings
  have hblank : e.Takes (ofString "") := takes_ofString (by decide)
  unfold toText
  rw [takes_intercalate (takes_ofString (by decide))]
  simp only [List.forall_mem_append, List.forall_mem_cons, herrors, hwarnings, hblank,
    takes_ofString r.ascii_verdict, true_and, List.not_mem_nil, false_implies, implies_true,
    and_true]
  unfold errors warnings ofSeverity
  simp only [List.mem_filter, beq_iff_eq]
  constructor
  · rintro ⟨herrors, hwarnings⟩ i hi hinfo
    cases hseverity : i.severity with
    | error => exact herrors i ⟨hi, hseverity⟩
    | warning => exact hwarnings i ⟨hi, hseverity⟩
    | info => exact absurd hseverity hinfo
  · intro h
    constructor
    · rintro i ⟨hi, hseverity⟩
      exact h i hi (by simp [hseverity])
    · rintro i ⟨hi, hseverity⟩
      exact h i hi (by simp [hseverity])

/-- A stream that takes a report with warnings takes the sign for them. -/
theorem takes_sign_of_toText {r : Report} (h : e.Takes r.toText) (hwarnings : r.warnings ≠ []) :
    e.Takes Severity.warning.symbol := by
  obtain ⟨i, hi⟩ := List.exists_mem_of_ne_nil _ hwarnings
  obtain ⟨hi, hseverity⟩ := List.mem_filter.1 hi
  replace hseverity : i.severity = .warning := eq_of_beq hseverity
  have hline := takes_toText_iff.1 h i hi (by simp [hseverity])
  exact hseverity ▸ (Issue.takes_line_iff.1 hline).1

end Report

namespace Check

/-- A reference warning shows the sign for a warning and the two names of the reference. -/
theorem takes_line_issue_iff {f : ReferenceFinding} :
    e.Takes f.issue.line ↔
      e.Takes Severity.warning.symbol ∧ e.Takes f.source ∧ e.Takes f.target := by
  have hcode : Ascii f.code.toList := by
    unfold ReferenceFinding.code
    split <;> decide
  rw [Issue.takes_line_iff]
  refine and_congr_right fun _ => (and_iff_right (takes_ofString hcode)).trans ?_
  cases f with
  | undeclared source clause target =>
    simp (disch := decide) [ReferenceFinding.issue, ReferenceFinding.message,
      ReferenceFinding.source, ReferenceFinding.target, takes_ofString,
      takes_ofString clause.ascii_keyword]
  | inheritsRole source target =>
    simp (disch := decide) [ReferenceFinding.issue, ReferenceFinding.message,
      ReferenceFinding.source, ReferenceFinding.target, takes_ofString]
  | composesOther source target kind =>
    simp (disch := decide) [ReferenceFinding.issue, ReferenceFinding.message,
      ReferenceFinding.source, ReferenceFinding.target, takes_ofString,
      takes_ofString kind.ascii_keyword]

/-- The warning for a change of kind shows the sign for a warning and the name. -/
theorem takes_line_kindChangeIssue_iff {t : Text} {k k' : Kind} :
    e.Takes (kindChangeIssue t k k').line ↔ e.Takes Severity.warning.symbol ∧ e.Takes t := by
  rw [Issue.takes_line_iff]
  simp (disch := decide) [kindChangeIssue, takes_ofString,
    takes_ofString k.ascii_keyword, takes_ofString k'.ascii_keyword]

end Check

/-! ## Graphs -/

/-- A node that does not exist shows an empty name. -/
theorem Nodes.takes_name {ns : Nodes} (h : ∀ n ∈ ns, e.Takes n.name) (i : Nat) :
    e.Takes (ns.name i) := by
  unfold name
  cases hn : ns[i]? with
  | none => exact takes_ofString (by decide)
  | some n => exact h n (Array.mem_of_getElem? hn)

theorem Nodes.takes_names {ns : Nodes} (h : ∀ n ∈ ns, e.Takes n.name) (is : List Nat) :
    ∀ t ∈ ns.names is, e.Takes t := by
  unfold names
  rw [List.forall_mem_map]
  exact fun i _ => takes_name h i

namespace Graph

open Linearization

variable {g : Graph} {n : Node}

/-- The header of a type shows its name and its categories. -/
theorem takes_headerLine_iff :
    e.Takes (headerLine n) ↔ e.Takes n.name ∧ ∀ c ∈ n.categories, e.Takes c := by
  have hkeyword := takes_ofString (e := e) n.kind.ascii_keyword
  unfold headerLine
  dsimp only
  split
  · rename_i hempty
    rw [List.isEmpty_iff] at hempty
    simp (disch := decide) [hempty, takes_ofString, hkeyword]
  · have hspace : e.Takes (ofString " ") := takes_ofString (by decide)
    simp (disch := decide) [takes_ofString, hkeyword, takes_intercalate hspace]

/-- A line of edges shows names of types behind its label. -/
theorem takes_edgeLine (h : ∀ n ∈ g.nodes, e.Takes n.name) {label : String}
    (hlabel : Ascii label.toList) (is : List Nat) : ∀ t ∈ g.edgeLine label is, e.Takes t := by
  have hcomma : e.Takes (ofString ", ") := takes_ofString (by decide)
  have hnames := (takes_intercalate hcomma).2 (Nodes.takes_names h is)
  unfold edgeLine
  split
  · simp
  · simp [takes_ofString hlabel, hnames]

/-- Names in one line are taken if each of them is. -/
theorem takes_chain {ts : List Text} (h : ∀ t ∈ ts, e.Takes t) : e.Takes (chain ts) :=
  (takes_intercalate (takes_ofString (by decide))).2 h

/-- The lines of a type that is linearized show names of types, and its categories. -/
theorem takes_typeLines (h : ∀ n ∈ g.nodes, e.Takes n.name) (l : List Nat) :
    (∀ t ∈ g.typeLines n (.ok (g.nodes.names l)), e.Takes t) ↔ e.Takes (headerLine n) := by
  unfold typeLines
  simp only [List.forall_mem_append, List.forall_mem_cons, List.cons_append]
  constructor
  · exact And.left
  · intro hheader
    refine ⟨hheader, ⟨⟨⟨takes_edgeLine h (by decide) _, takes_edgeLine h (by decide) _⟩,
      takes_edgeLine h (by decide) _⟩, takes_edgeLine h (by decide) _⟩, ?_, by simp⟩
    exact takes_append.2 ⟨takes_ofString (by decide), takes_chain (Nodes.takes_names h l)⟩

/-- The nodes in the global order are written one by one, each with its linearization. -/
theorem writtenTypes_spec (hmemo : Recorded g.nodes g.memo) (hconsistent : g.Consistent) :
    g.writtenTypes.1.nodes = g.nodes ∧
      (∀ x ∈ g.writtenTypes.2, x.1 ∈ g.nodes ∧ ∃ l, x.2 = .ok (g.nodes.names l)) ∧
      ∀ (i : Nat) n, i ∈ g.sorted → g.nodes[i]? = some n → ∃ w, (n, w) ∈ g.writtenTypes.2 := by
  obtain ⟨hfst, hanswers⟩ := linearizeAll_spec hmemo g.sorted
  have hnodes := g.nodes_linearizeAll g.sorted
  refine ⟨hnodes, ?_, ?_⟩
  · intro x hx
    obtain ⟨⟨i, r⟩, hmem, hx⟩ := List.mem_filterMap.1 hx
    obtain ⟨n, hn, rfl⟩ := Option.map_eq_some_iff.1 hx
    obtain ⟨memo, hrecorded, hr⟩ := hanswers (i, r) hmem
    rw [hnodes] at hn
    obtain ⟨l, hl⟩ := hconsistent i (Nodes.lt_size_of_getElem? hn) memo hrecorded
    obtain rfl : r = .ok l := hr.trans hl
    refine ⟨Array.mem_of_getElem? hn, l, ?_⟩
    show Except.ok ((g.linearizeAll g.sorted).1.nodes.names l) = _
    rw [hnodes]
  · intro i n hi hn
    rw [← hfst] at hi
    obtain ⟨⟨j, r⟩, hx, rfl⟩ := List.mem_map.1 hi
    refine ⟨g.writtenTypes.1.written j r, List.mem_filterMap.2 ⟨(j, r), hx, ?_⟩⟩
    simp only
    rw [hnodes, hn]
    rfl

/-- A stream takes a graph in which all types are linearized exactly if it takes all names and
categories in it. -/
theorem takes_render_text_iff (hmemo : Recorded g.nodes g.memo)
    (hsorted : g.sorted.Perm (List.range g.nodes.size)) (hconsistent : g.Consistent) :
    e.Takes (g.render .text).2 ↔
      ∀ n ∈ g.nodes, e.Takes n.name ∧ ∀ c ∈ n.categories, e.Takes c := by
  obtain ⟨hnodes, hsound, hcomplete⟩ := writtenTypes_spec hmemo hconsistent
  -- the closing line only holds a number
  have hclosing : Ascii s!"{g.writtenTypes.1.size} type(s)".toList := by
    simp [toString]
  have hlines : e.Takes (g.render .text).2 ↔
      ∀ x ∈ g.writtenTypes.2, ∀ t ∈ g.writtenTypes.1.typeLines x.1 x.2, e.Takes t := by
    show e.Takes (intercalate "\n" ((g.writtenTypes.2.flatMap fun x =>
      g.writtenTypes.1.typeLines x.1 x.2) ++ [ofString "", ofString _])) ↔ _
    rw [takes_intercalate (takes_ofString (by decide)), List.forall_mem_append,
      List.forall_mem_flatMap]
    refine and_iff_left (List.forall_mem_cons.2 ⟨takes_ofString (by decide), ?_⟩)
    exact List.forall_mem_singleton.2 (takes_ofString hclosing)
  rw [hlines]
  constructor
  · intro h n hn
    obtain ⟨i, hi, hni⟩ := Array.mem_iff_getElem.1 hn
    have hget : g.nodes[i]? = some n := by rw [Array.getElem?_eq_getElem hi, hni]
    obtain ⟨w, hw⟩ := hcomplete i n (hsorted.mem_iff.2 (List.mem_range.2 hi)) hget
    exact takes_headerLine_iff.1 (h (n, w) hw (headerLine n) List.mem_cons_self)
  · intro h x hx
    obtain ⟨hn, l, hwritten⟩ := hsound x hx
    have hnames : ∀ n ∈ g.writtenTypes.1.nodes, e.Takes n.name := by
      rw [hnodes]
      exact fun n hn => (h n hn).1
    rw [hwritten, ← hnodes, takes_typeLines hnames l]
    exact takes_headerLine_iff.2 (h x.1 hn)

end Graph

/-! ## The report of a validation -/

namespace Check

variable {m : Model} {c : Config} {g : Graph}

/-- A name that a stream does not take is warned about where it is referred to, unless it is
declared or exempt. -/
theorem takes_of_mentioned (hdeclared : ∀ d ∈ m.declarations, e.Takes d.name)
    (hroot : e.Takes c.root) (hbase : e.Takes c.base)
    (hlines : ∀ i ∈ (references m c).issues, e.Takes i.line) {t : Text}
    (h : Mentioned m.declarations t) : e.Takes t := by
  by_contra ht
  obtain ⟨d, hd, hmentions⟩ := h
  -- neither declared nor exempt, the name is the target of a reference that is warned about
  have hundeclared : ∀ d ∈ m.declarations, d.name ≠ t := by
    rintro d hd rfl
    exact ht (hdeclared d hd)
  have href : ∃ r, (d.name, r, t) ∈ allReferences m := by
    rcases hmentions with rfl | hparent | hrole
    · exact absurd rfl (hundeclared d hd)
    · exact ⟨.inherits, mem_allReferences.2 ⟨d, hd, rfl, hparent⟩⟩
    · exact ⟨.composes, mem_allReferences.2 ⟨d, hd, rfl, hrole⟩⟩
  obtain ⟨r, href⟩ := href
  have hexempt : t ∉ [c.root, c.base] := by
    intro hmem
    rcases List.mem_cons.1 hmem with rfl | hmem
    · exact ht hroot
    · exact ht (List.mem_singleton.1 hmem ▸ hbase)
  rcases @exists_findReferences _ _ [] _ _ _ _ href (kindOf?_eq_none hundeclared) hexempt with
    hnil | ⟨f, hf, rfl⟩
  · cases hnil
  · exact ht (takes_line_issue_iff.1 (hlines f.issue (List.mem_map_of_mem hf))).2.2

/-- A valid report shows names of the graph only, and the sign for a warning before each of its
warnings. -/
theorem takes_toText_run (hg : Built m c g) (hvalid : (run m (some g) c).2.isValid = true)
    (h : ∀ n ∈ g.nodes, e.Takes n.name)
    (hsign : (run m (some g) c).2.warnings ≠ [] → e.Takes Severity.warning.symbol) :
    e.Takes (run m (some g) c).2.toText := by
  obtain ⟨of, _, hview⟩ := hg.exists_view
  rw [Report.takes_toText_iff]
  intro i hi hinfo
  have hsign : e.Takes Severity.warning.symbol := by
    refine hsign (List.ne_nil_of_mem (List.mem_filter.2 ⟨hi, ?_⟩))
    cases hseverity : i.severity with
    | error => exact absurd hseverity (Report.isValid_iff.1 hvalid i hi)
    | warning => rfl
    | info => exact absurd hseverity hinfo
  have hmentioned : ∀ {t : Text}, Mentioned m.declarations t → e.Takes t := by
    intro t ht
    obtain ⟨j, _, rfl⟩ := Graph.exists_of_mentioned hg.wellFormed hview ht
    exact Nodes.takes_name h j
  rcases (mem_issues_run hvalid).1 hi with hi | hi
  · obtain ⟨f, hf, rfl⟩ := List.mem_map.1 hi
    obtain ⟨r, href⟩ := mem_findReferences hf
    obtain ⟨d, hd, hsource, htarget⟩ := mem_allReferences.1 href
    have hedge := mentioned_of_declaredEdge ⟨d, hd, hsource, htarget⟩
    exact takes_line_issue_iff.2 ⟨hsign, hmentioned hedge.1, hmentioned hedge.2⟩
  · obtain ⟨d, hd, _, rfl⟩ := mem_kindChangesFrom hi
    exact takes_line_kindChangeIssue_iff.2 ⟨hsign, hmentioned ⟨d, hd, Or.inl rfl⟩⟩

/-- A stream that takes a valid report takes all names in the graph, as long as it takes those that
are declared or configured. -/
theorem takes_name_of_toText_run (hg : Built m c g)
    (hdeclared : ∀ d ∈ m.declarations, e.Takes d.name)
    (hroot : e.Takes c.root) (hbase : e.Takes c.base)
    (hvalid : (run m (some g) c).2.isValid = true)
    (h : e.Takes (run m (some g) c).2.toText) : ∀ n ∈ g.nodes, e.Takes n.name := by
  obtain ⟨of, _, hview⟩ := hg.exists_view
  rw [Report.takes_toText_iff] at h
  have hlines : ∀ i ∈ (references m c).issues, e.Takes i.line := by
    intro i hi
    refine h i ((mem_issues_run hvalid).2 (Or.inl hi)) ?_
    obtain ⟨_, _, rfl⟩ := List.mem_map.1 hi
    intro hinfo
    cases hinfo
  intro n hn
  obtain ⟨i, hi, hni⟩ := Array.mem_iff_getElem.1 hn
  have hname : g.nodes.name i = n.name :=
    Nodes.name_of_getElem? (by rw [Array.getElem?_eq_getElem hi, hni])
  rw [← hname]
  rcases Graph.mentioned_or_base hg.wellFormed hview hi with hmentioned | heq
  · exact takes_of_mentioned hdeclared hroot hbase hlines hmentioned
  · rwa [heq]

end Check

end Lineage
