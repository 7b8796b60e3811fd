import Mathlib
import Lineage.CommandLine.Command
import Lineage.Proofs.Load.Names
import Lineage.Proofs.Load.Path
import Lineage.Proofs.Load.SetOrder
import Lineage.Proofs.Output.Taken

/-!
# Exit codes

The three commands come to their verdicts on different ways: one checks the declarations and the
graph, one shows the graph, one linearizes a single type. Of the model they all say the same
(`verdict_agrees`). A validation passes exactly if the graph is built and all types in it have a
linearization; but as text the commands show different things, and an output stream may not take all
of them. A category that the stream cannot take makes the graph fail to be shown although the
validation has passed; and a stream without the sign for a warning makes a validation fail. Nothing
else tells the commands apart.

Each command is a run of its own. They read the same model from a file, if they have room for it and
no set stands for a list there: sets are listed in another order by every run.
-/

namespace Lineage

open Linearization

namespace CommandLine

open Text

variable {s : Settings} {m : Model} {g : Graph} {f : Format}

/-! ## What decides an exit code -/

theorem Outcome.exitCode_printed {e : Encoding} {t : Text} {code : Nat} :
    (Outcome.printed e t code).exitCode = 0 ↔ e.Takes t ∧ code = 0 := by
  rw [← Encoding.takes_withoutSequences, ← Encoding.write?_isSome_iff]
  unfold printed
  cases e.write? t.withoutSequences with
  | none => simp [failed]
  | some s => simp

namespace Settings

/-- Notes do not change an exit code. -/
theorem exitCode_noted (s : Settings) (notes : Unit → List Text) (o : Outcome) :
    (s.noted notes o).exitCode = o.exitCode := by
  unfold noted
  split <;> rfl

theorem exitCode_validate_iff (hg : Check.Built m s.config g) :
    (s.validate f false m).exitCode = 0 ↔
      (Check.run m (some g) s.config).2.isValid = true ∧
        s.encoding.Takes ((Check.run m (some g) s.config).2.render f) := by
  unfold validate Check.validate
  rw [hg.buildIfSafe]
  show (s.noted _ (.printed s.encoding ((Check.run m (some g) s.config).2.render f)
    (if passes false (Check.run m (some g) s.config).2 then 0 else 1))).exitCode = 0 ↔ _
  rw [exitCode_noted, Outcome.exitCode_printed, and_comm]
  refine and_congr_left fun _ => ?_
  unfold passes
  simp

theorem exitCode_showGraph_iff (hg : Check.Built m s.config g) :
    (s.showGraph f m).exitCode = 0 ↔ s.encoding.Takes (g.render f).2 := by
  unfold showGraph withGraph
  rw [hg.buildIfSafe]
  show (s.noted _ (s.noted _ (.printed s.encoding (g.render f).2))).exitCode = 0 ↔ _
  rw [exitCode_noted, exitCode_noted, Outcome.exitCode_printed]
  exact and_iff_left rfl

theorem exitCode_linearize_iff (hg : Check.Built m s.config g) {name : Text}
    {i : Nat} (hi : g.find? name = some i) :
    (s.linearize name f m).exitCode = 0 ↔
      ∃ l, (g.linearize i).2 = .ok l ∧
        s.encoding.Takes (Graph.renderChain name (g.nodes.names l) f) := by
  unfold linearize withGraph
  rw [hg.buildIfSafe]
  simp only [exitCode_noted, hi]
  cases (g.linearize i).2 with
  | ok l =>
    simp only [Outcome.exitCode_printed, and_true, Except.ok.injEq]
    constructor
    · exact fun h => ⟨l, rfl, h⟩
    · rintro ⟨_, rfl, h⟩
      exact h
  | error fault => simp [exitCode_noted, Outcome.refused]

/-- While the roles compose each other in a cycle, no command succeeds. -/
theorem exitCode_of_roleCycles (s : Settings) (hinvalid : (Check.roleCycles m).isValid = false) :
    (s.validate f false m).exitCode ≠ 0 ∧ (s.showGraph f m).exitCode ≠ 0 ∧
      ∀ name, (s.linearize name f m).exitCode ≠ 0 := by
  have hnone := Check.buildIfSafe_eq_none s.config hinvalid
  refine ⟨?_, ?_, ?_⟩
  · unfold validate Check.validate
    rw [hnone]
    show (s.noted _ (.printed _ _ (if passes false (Check.run m none s.config).2
      then 0 else 1))).exitCode ≠ 0
    rw [exitCode_noted, Ne, Outcome.exitCode_printed]
    unfold passes
    simp [Check.isValid_run_none s.config hinvalid]
  · unfold showGraph withGraph
    rw [hnone]
    simp [Outcome.refused]
  · intro name
    unfold linearize withGraph
    rw [hnone]
    simp [Outcome.refused]

end Settings

/-! ## The commands agree on the model -/

/-- The graph is consistent if every type that can be asked for is linearized. A name that cannot
be asked for is not declared, so its type has no parent but the base. -/
theorem consistent_of_asked {asked : Text → Prop} (hstring : ∀ name : String, asked name)
    (hroot : asked s.config.root) (hbase : asked s.config.base)
    (hnames : ∀ d ∈ m.declarations, d.name.Writable) (hg : Check.Built m s.config g)
    (h : ∀ name ∈ g.names, asked name → (s.linearize name f m).exitCode = 0) :
    g.Consistent := by
  obtain ⟨of, hof, hview⟩ := hg.exists_view
  have wf := hg.wellFormed
  have hasked : ∀ i < g.nodes.size, asked (g.nodes.name i) → Linearizable g.nodes.parents i := by
    intro i hi hname
    have hfind : g.find? (g.nodes.name i) = some i := (Graph.find?_eq_some_iff wf).2 ⟨hi, rfl⟩
    have hmem : g.nodes.name i ∈ g.names := Graph.mem_names_iff.2 ⟨i, hi, rfl⟩
    obtain ⟨l, hl, _⟩ := (Settings.exitCode_linearize_iff hg hfind).1 (h _ hmem hname)
    exact ⟨l, (linearize_eq_ok_iff hg.recorded.follows).1 hl⟩
  rw [Graph.consistent_iff]
  intro i hi
  by_cases hname : asked (g.nodes.name i)
  · exact hasked i hi hname
  · -- declared names and those of the root and the base can be asked for
    have hundeclared : ∀ d ∈ m.declarations, d.name ≠ g.nodes.name i := by
      intro d hd heq
      obtain ⟨name, hd'⟩ := exists_string (hnames d hd)
      exact hname (heq ▸ hd' ▸ hstring name)
    have hroot : g.nodes.name i ≠ s.config.root := fun heq => hname (heq ▸ hroot)
    have hbase' : g.nodes.name i ≠ s.config.base := fun heq => hname (heq ▸ hbase)
    obtain ⟨b, hb, hb_name, himp⟩ :=
      Graph.exists_base_of_undeclared wf hof hview hi hundeclared hroot hbase'
    exact himp (hasked b hb (hb_name ▸ hbase))

/-- A consistent graph answers for all of its names, if the stream takes them where they are shown
as text. -/
theorem asked_of_consistent (hg : Check.Built m s.config g) (hconsistent : g.Consistent)
    (htakes : f = .text → ∀ n ∈ g.nodes, s.encoding.Takes n.name) {name : Text}
    (hmem : name ∈ g.names) : (s.linearize name f m).exitCode = 0 := by
  obtain ⟨i, hi, hname⟩ := Graph.mem_names_iff.1 hmem
  obtain ⟨l, hl⟩ := hconsistent i hi g.memo hg.recorded
  have hfind : g.find? name = some i := (Graph.find?_eq_some_iff hg.wellFormed).2 ⟨hi, hname⟩
  refine (Settings.exitCode_linearize_iff hg hfind).2 ⟨l, hl, ?_⟩
  cases f with
  | json => exact Json.takes_render _
  | text => exact Graph.takes_chain (Nodes.takes_names (htakes rfl) l)

/-- With the graph of a model whose declared names are strings, the commands tell the same exactly
if the stream takes whatever has to be shown as text: the names and the categories where a
validation passes, and the sign for a warning where the other commands succeed. -/
theorem agree_iff {asked : Text → Prop} (hstring : ∀ name : String, asked name)
    (hroot : asked s.config.root) (hbase : asked s.config.base)
    (hnames : ∀ d ∈ m.declarations, d.name.Writable) (hg : Check.Built m s.config g) (f : Format) :
    ((s.validate f false m).exitCode = 0 ↔
        (s.showGraph f m).exitCode = 0 ∧
          ∀ name ∈ g.names, asked name → (s.linearize name f m).exitCode = 0) ↔
      (f = .text →
        ((s.validate f false m).exitCode = 0 →
          ∀ n ∈ g.nodes, s.encoding.Takes n.name ∧ ∀ t ∈ n.categories, s.encoding.Takes t) ∧
        ((s.showGraph f m).exitCode = 0 →
          (∀ name ∈ g.names, asked name → (s.linearize name f m).exitCode = 0) →
            (Check.run m (some g) s.config).2.warnings ≠ [] →
              s.encoding.Takes Severity.warning.symbol)) := by
  have hvalid := Check.isValid_run_iff hg
  rw [Settings.exitCode_validate_iff hg, Settings.exitCode_showGraph_iff hg, hvalid]
  cases f with
  | json =>
    -- every stream takes JSON
    have hreport : s.encoding.Takes ((Check.run m (some g) s.config).2.render .json) :=
      Json.takes_render _
    have hgraph : s.encoding.Takes (g.render .json).2 := Json.takes_render _
    simp only [hreport, hgraph, and_true, true_and, reduceCtorEq, false_implies, iff_true]
    constructor
    · exact fun h name hmem _ => asked_of_consistent (f := .json) hg h nofun hmem
    · exact consistent_of_asked hstring hroot hbase hnames hg
  | text =>
    have hshow (hconsistent : g.Consistent) :=
      Graph.takes_render_text_iff (e := s.encoding) hg.recorded hg.sorted hconsistent
    show (g.Consistent ∧ s.encoding.Takes (Check.run m (some g) s.config).2.toText ↔ _) ↔
      (_ → (g.Consistent ∧ s.encoding.Takes (Check.run m (some g) s.config).2.toText → _) ∧ _)
    constructor
    · intro hagree _
      constructor
      · -- a passing validation makes the graph be shown, categories included
        intro hpass
        exact (hshow hpass.1).1 (hagree.1 hpass).1
      · intro htakes hnamed hwarnings
        exact Report.takes_sign_of_toText (hagree.2 ⟨htakes, hnamed⟩).2 hwarnings
    · intro hshown
      obtain ⟨hall, hsign⟩ := hshown rfl
      constructor
      · intro hpass
        refine ⟨(hshow hpass.1).2 (hall hpass), fun name hmem _ => ?_⟩
        exact asked_of_consistent hg hpass.1 (fun _ n hn => (hall hpass n hn).1) hmem
      · -- a graph that is shown and linearized has its names taken, so only the sign is left
        rintro ⟨htakes, hnamed⟩
        have hconsistent := consistent_of_asked hstring hroot hbase hnames hg hnamed
        exact ⟨hconsistent, Check.takes_toText_run hg (hvalid.2 hconsistent)
          (fun n hn => ((hshow hconsistent).1 htakes n hn).1) (hsign htakes hnamed)⟩

/-- A stream that takes ASCII and nothing else. -/
def asciiOnly : Encoding where
  spell? p := if p.number < 0x80 then p.char?.map Char.toString else none
  ascii c h := by
    show (if c.toNat < 0x80 then some c.toString else none).isSome = true
    rw [if_pos h]
    rfl

/-- A class that is declared again as a role is only warned about, but the sign for the warning is
not in ASCII. -/
example :
    let s : Settings := { encoding := asciiOnly }
    let m : Model := ⟨[{ name := "A" }, { name := "A", kind := .ofRole }]⟩
    (s.validate .text false m).exitCode = 1 ∧ (s.showGraph .text m).exitCode = 0 ∧
      (s.linearize "A" .text m).exitCode = 0 := by
  refine ⟨?_, ?_, ?_⟩ <;> cbv

/-- The report of a validation that passes shows every name that is neither declared nor
configured. -/
theorem takes_names_of_validate (hroot : s.encoding.Takes s.config.root)
    (hbase : s.encoding.Takes s.config.base)
    (hdeclared : ∀ d ∈ m.declarations, s.encoding.Takes d.name)
    (hg : Check.Built m s.config g) (h : (s.validate .text false m).exitCode = 0) :
    ∀ n ∈ g.nodes, s.encoding.Takes n.name := by
  obtain ⟨hvalid, htakes⟩ := (Settings.exitCode_validate_iff hg).1 h
  exact Check.takes_name_of_toText_run hg hdeclared hroot hbase hvalid htakes

/-! ## The commands agree on the file -/

/-- The exit code of a command that works on the file that a path leads to. -/
def Settings.exitCode (s : Settings) (path : String) (state : FileState) (c : Command) : Nat :=
  (c.run s path state).exitCode

/-- With a file that holds a model, a command works on the model. -/
theorem Settings.exitCode_of_loaded {path : String} {state : FileState}
    (hload : Load.modelOfFile (Path.ofString path) state s.reader = .ok m) (c : Command) :
    s.exitCode path state c = (c.runOn s m).exitCode := by
  unfold exitCode Command.run
  rw [hload]

/-- Once the model is read, a command makes the same of it whether notes are written or not, and
however the document was read. -/
theorem Settings.exitCode_runOn_congr {s s' : Settings} (hconfig : s.config = s'.config)
    (hencoding : s.encoding = s'.encoding) (c : Command) :
    (c.runOn s m).exitCode = (c.runOn s' m).exitCode := by
  cases c with
  | validate format strict =>
    simp only [Command.runOn, validate, hconfig, hencoding]
    cases Check.validate m s'.config with
    | error e => rfl
    | ok p => simp only [exitCode_noted]
  | showGraph format =>
    simp only [Command.runOn, showGraph, withGraph, hconfig, hencoding]
    cases Check.buildIfSafe m s'.config with
    | none => rfl
    | some built =>
      cases built with
      | error e => rfl
      | ok g => simp only [exitCode_noted]
  | linearize name format =>
    simp only [Command.runOn, linearize, withGraph, hconfig, hencoding]
    cases Check.buildIfSafe m s'.config with
    | none => rfl
    | some built =>
      cases built with
      | error e => rfl
      | ok g =>
        simp only [exitCode_noted]
        cases g.find? name with
        | none => rfl
        | some i =>
          simp only
          cases (g.linearize i).2 with
          | ok l => rfl
          | error f => simp only [exitCode_noted]

/-- What the exit codes of the commands tell of a model, on a stream with the given encoding. -/
structure Agreement (m : Model) (c : Config) (e : Encoding) (f : Format) (exit : Command → Nat) :
    Prop where
  /-- While the roles compose each other in a cycle, no command succeeds. -/
  role_cycles : (Check.roleCycles m).issues ≠ [] → exit (.validate f false) ≠ 0 ∧
    exit (.showGraph f) ≠ 0 ∧ ∀ name, exit (.linearize name f) ≠ 0
  /-- Otherwise a validation succeeds exactly if the graph can be shown and every name in it can be
  asked for, unless the stream cannot take what a text has to show: names and categories where the
  validation succeeds, and the sign for a warning where the others do. Asked for are all strings and
  the configured names at least. A name that the stream cannot take already shows in the validation,
  if the declared and the configured ones can be taken. -/
  graph : (Check.roleCycles m).issues = [] →
    ∃ g, Graph.build m.declarations c = some (.ok g) ∧
      (∀ asked : Text → Prop, (∀ name : String, asked name) → asked c.root → asked c.base →
        ((exit (.validate f false) = 0 ↔ exit (.showGraph f) = 0 ∧
            ∀ name ∈ g.names, asked name → exit (.linearize name f) = 0) ↔
          (f = .text →
            (exit (.validate f false) = 0 →
              ∀ n ∈ g.nodes, e.Takes n.name ∧ ∀ t ∈ n.categories, e.Takes t) ∧
            (exit (.showGraph f) = 0 →
              (∀ name ∈ g.names, asked name → exit (.linearize name f) = 0) →
                (Check.run m (some g) c).2.warnings ≠ [] → e.Takes Severity.warning.symbol)))) ∧
      ((∀ d ∈ m.declarations, e.Takes d.name) → e.Takes c.root → e.Takes c.base →
        f = .text → exit (.validate f false) = 0 → ∀ n ∈ g.nodes, e.Takes n.name)
  /-- Declared names are strings, so a stream that takes every character takes all of them. -/
  declared : ∀ d ∈ m.declarations, ∃ name : String, d.name = name

/-- The verdict of a validation agrees with the linearizations of the graph, for all models. The
commands agree with each other on every file that their runs read as the model, but for what the
stream cannot take of a text. They read the same model from every file in which no set stands for a
list. -/
theorem verdict_agrees (m : Model) (c : Config) :
    (∃ built r, Check.validate m c = .ok (built, r) ∧ Check.Verdict m c built r) ∧
      (∀ (e : Encoding) (runs : Command → Settings) (path : String) (state : FileState),
        (∀ command, (runs command).config = c ∧ (runs command).encoding = e ∧
          Load.modelOfFile (Path.ofString path) state (runs command).reader = .ok m) →
        ∀ f : Format,
          Agreement m c e f fun command => (runs command).exitCode path state command) ∧
      ∀ (path : String) (state : FileState) (r r' : Load.Reader), r.room ≤ r'.room →
        ((Path.ofString path).isData = true → ∀ boxes es,
          Load.mappingOfFile (Path.ofString path) state r = .ok (boxes, es) →
            Yaml.Listed boxes) →
        Load.modelOfFile (Path.ofString path) state r = .ok m →
          Load.modelOfFile (Path.ofString path) state r' = .ok m := by
  refine ⟨Check.exists_verdict m c, ?_, fun path state r r' hroom hlisted =>
    Load.modelOfFile_of_listed hroom hlisted⟩
  intro e runs path state hruns f
  -- all runs do as one with the same names and the same stream
  let s : Settings := { config := c, encoding := e }
  have hcode : ∀ command, (runs command).exitCode path state command =
      (command.runOn s m).exitCode := by
    intro command
    obtain ⟨hconfig, hencoding, hload⟩ := hruns command
    rw [Settings.exitCode_of_loaded hload]
    exact Settings.exitCode_runOn_congr hconfig hencoding command
  have hnames := Load.writable_names_of_modelOfFile (hruns (.showGraph f)).2.2
  constructor
  · intro hcycles
    simp only [hcode]
    refine Settings.exitCode_of_roleCycles s ?_
    rw [← Bool.not_eq_true]
    exact fun h => hcycles (Check.issues_cycles_eq_nil_iff.2 h)
  · intro hnone
    obtain ⟨g, hg⟩ := Check.exists_built c (Check.issues_cycles_eq_nil_iff.1 hnone)
    refine ⟨g, hg.build, ?_⟩
    simp only [hcode]
    refine ⟨fun asked hstring hroot hbase => ?_, ?_⟩
    · exact agree_iff (s := s) hstring hroot hbase hnames hg f
    · rintro hdeclared hroot hbase rfl
      exact takes_names_of_validate (s := s) hroot hbase hdeclared hg
  · intro d hd
    obtain ⟨name, hname⟩ := exists_string (hnames d hd)
    exact ⟨name, hname.symm⟩

/-! ## A category that cannot be written, and a set that can be listed in any order -/

/-- A data document with a type whose only category is a lone surrogate. -/
def surrogateFile : FileState :=
  .file "declarations:\n- \x7bclass: A, categories: [\"\\ud800\"]\x7d\n".toUTF8

def surrogateModel : Model :=
  { declarations := [{ name := "A", categories := [⟨[.surrogate 0]⟩] }] }

/-- A stream that writes something else for what it has no bytes for. -/
def replacing : Encoding where
  spell?
    | .char c => some c.toString
    | .surrogate _ => some "?"
  ascii _ _ := rfl

/-- A data document that gives categories, which have no order, as a set. -/
def setFile : FileState :=
  .file "declarations:\n- \x7bclass: A, categories: !!set \x7bY, X\x7d, is: [B]\x7d\n".toUTF8

def setModel : Model :=
  { declarations := [{ name := "A", categories := ["x", "y"], parents := ["B"] }] }

/-- A run that lists sets the other way round, and has more room. -/
def backwards : Load.Reader where
  room := 1000
  sets := ⟨List.reverse, List.reverse_perm⟩

theorem ofString_dYaml : Path.ofString "d.yaml" = ⟨"", ["d.yaml"]⟩ := by
  unfold Path.ofString
  rw [Path.split_eq]
  decide

theorem eq_ok_of_toOption {ε α : Type} {x : Except ε α} {a : α} (h : x.toOption = some a) :
    x = .ok a := by
  cases x with
  | error e => cases h
  | ok b => exact congrArg _ (Option.some.inj h)

theorem modelOfFile_surrogateFile :
    Load.modelOfFile (Path.ofString "d.yaml") surrogateFile = .ok surrogateModel := by
  rw [ofString_dYaml]
  refine eq_ok_of_toOption ?_
  decide +kernel

theorem modelOfFile_setFile :
    Load.modelOfFile (Path.ofString "d.yaml") setFile = .ok setModel := by
  rw [ofString_dYaml]
  refine eq_ok_of_toOption ?_
  decide +kernel

theorem listed_setFile {boxes : Array Yaml.Box} {es : List (Data × Yaml.Ref)}
    (h : Load.mappingOfFile (Path.ofString "d.yaml") setFile {} = .ok (boxes, es)) :
    Yaml.Listed boxes := by
  have hlisted : ((Load.mappingOfFile ⟨"", ["d.yaml"]⟩ setFile {}).toOption.all
      fun p => decide (Yaml.Listed p.1)) = true := by
    decide +kernel
  rw [← ofString_dYaml, h] at hlisted
  exact of_decide_eq_true hlisted

/-- The validation of the first file passes and both of its types are linearized, but the graph
fails to be shown as text on a stream without bytes for the category. The second file is read as the
same model by a run that lists its set the other way round. -/
theorem verdict_disagrees_on_surrogate :
    Load.modelOfFile (Path.ofString "d.yaml") surrogateFile = .ok surrogateModel ∧
      Settings.exitCode {} "d.yaml" surrogateFile (.validate .text false) = 0 ∧
      Settings.exitCode {} "d.yaml" surrogateFile (.showGraph .text) = 1 ∧
      Settings.exitCode {} "d.yaml" surrogateFile (.linearize "A" .text) = 0 ∧
      Settings.exitCode {} "d.yaml" surrogateFile (.linearize "Any" .text) = 0 ∧
      Settings.exitCode { encoding := replacing } "d.yaml" surrogateFile (.showGraph .text) = 0 ∧
      Agreement surrogateModel {} .utf8 .text (Settings.exitCode {} "d.yaml" surrogateFile) ∧
      Load.modelOfFile (Path.ofString "d.yaml") setFile backwards = .ok setModel := by
  have hload := modelOfFile_surrogateFile
  let runs : Command → Settings := fun _ => {}
  have hruns : ∀ command, (runs command).config = {} ∧ (runs command).encoding = .utf8 ∧
      Load.modelOfFile (Path.ofString "d.yaml") surrogateFile (runs command).reader =
        .ok surrogateModel :=
    fun _ => ⟨rfl, rfl, hload⟩
  have hcode := Settings.exitCode_of_loaded (s := {}) hload
  refine ⟨hload, ?_, ?_, ?_, ?_, ?_,
    (verdict_agrees surrogateModel {}).2.1 .utf8 runs "d.yaml" surrogateFile hruns .text,
    (verdict_agrees setModel {}).2.2 "d.yaml" setFile {} backwards (by decide)
      (fun _ _ _ h => listed_setFile h) modelOfFile_setFile⟩
  · rw [hcode]
    cbv
  · rw [hcode]
    cbv
  · rw [hcode]
    cbv
  · rw [hcode]
    cbv
  · rw [Settings.exitCode_of_loaded (s := { encoding := replacing }) hload]
    -- the graph is built, and nothing is refused by the stream
    have hvalid : (Check.roleCycles surrogateModel).isValid = true := by cbv
    obtain ⟨g, hg⟩ := Check.exists_built {} hvalid
    exact (Settings.exitCode_showGraph_iff hg).2 fun p _ => by cases p <;> rfl

end CommandLine

end Lineage
