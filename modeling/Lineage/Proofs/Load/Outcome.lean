import Lineage.CommandLine.Command
import Lineage.Proofs.Load.Blocks
import Lineage.Proofs.Yaml.Document

/-!
# How loading a file ends

A file is loaded, or the error is reported with the path of the file, or the load ends in one of two
ways that no one reports (`load_file`): the bytes of the file are no text, or a data document spells
a value that does not exist. A declaration document that is a text is always loaded or reported. The
commands turn reported errors into an exit code of their own and let the two others through.
-/

namespace Lineage

open CommandLine

/-! ## Errors -/

/-- An error of loading a file that says what is wrong with it: for data documents that they break
the rules of their format, that they hold no mapping, or what is wrong with the data; for
declaration documents which line is wrong. All but the complaints about data name the file. -/
inductive LoadError.Reports (path : Path) : LoadError → Prop
  | malformedData (data : path.isData = true) :
      Reports path (.malformedData (some path.toString))
  | notAMapping (data : path.isData = true) (typeWord : String) :
      Reports path (.notAMapping typeWord (some path.toString))
  | line (text : path.isData = false) (fault : LineFault) :
      Reports path (.line (fault.inFile path.toString))
  | invalid (data : path.isData = true) (faults : List DataFault) : Reports path (.invalid faults)

/-- An error of loading a file that no one reports, with its cause in the bytes of the file; the one
for want of room is met by readers with so much room. -/
inductive LoadError.Escapes (room : Nat) (path : Path) (bytes : ByteArray) : LoadError → Prop
  | notText (undecodable : ¬ bytes.IsValidUTF8) : Escapes room path bytes .notText
  | badValue {f : Yaml.Fault} (data : path.isData = true)
      (spelled : Yaml.Unvalued room (Load.sourceOfBytes bytes) f) :
      Escapes room path bytes (.badValue f)

namespace Load

variable {path : Path} {bytes : ByteArray} {reader : Reader} {e : LoadError}

/-- An error is reported or escapes. -/
abbrev Ends (room : Nat) (path : Path) (bytes : ByteArray) (e : LoadError) : Prop :=
  e.Reports path ∨ e.Escapes room path bytes

/-! ## Declaration documents -/

theorem fileText_file (path : String) (bytes : ByteArray) :
    fileText path (.file bytes) = match String.fromUTF8? bytes with
      | some s => .ok (String.ofList (Text.unifyNewlines s.toList))
      | none => .error .notText :=
  rfl

theorem modelOfFile_text (htext : path.isData = false) (bytes : ByteArray) (reader : Reader) :
    modelOfFile path (.file bytes) reader = match String.fromUTF8? bytes with
      | some s => match Model.ofText (String.ofList (Text.unifyNewlines s.toList)) with
        | .ok m => .ok m
        | .error fault => .error (.line (fault.inFile path.toString))
      | none => .error .notText := by
  unfold modelOfFile modelOfTextFile
  rw [htext, fileText_file]
  cases String.fromUTF8? bytes <;> rfl

/-- The bytes of a declaration document are a text, or this is the error. -/
theorem modelOfFile_eq_notText_iff (htext : path.isData = false) :
    modelOfFile path (.file bytes) reader = .error .notText ↔ ¬ bytes.IsValidUTF8 := by
  rw [modelOfFile_text htext, String.fromUTF8?]
  by_cases hvalid : bytes.IsValidUTF8
  · rw [dif_pos hvalid]
    dsimp only
    split <;> simp [hvalid]
  · rw [dif_neg hvalid]
    simp [hvalid]

theorem ends_of_text (htext : path.isData = false)
    (h : modelOfFile path (.file bytes) reader = .error e) : Ends reader.room path bytes e := by
  by_cases hvalid : bytes.IsValidUTF8
  · rw [modelOfFile_text htext, String.fromUTF8?, dif_pos hvalid] at h
    dsimp only at h
    split at h
    · cases h
    · cases h
      exact .inl (.line htext _)
  · rw [(modelOfFile_eq_notText_iff htext).2 hvalid] at h
    cases h
    exact .inr (.notText hvalid)

/-! ## Data documents -/

theorem ends_of_document (hdata : path.isData = true)
    (h : document (sourceOfBytes bytes) (some path.toString) reader = .error e) :
    Ends reader.room path bytes e := by
  unfold document at h
  split at h
  · cases h
    exact .inl (.malformedData hdata)
  · rename_i hsource
    cases h
    -- what the source spells is never a fault of bytes, so it is the source's own
    obtain hf | hf | hf := Yaml.explains_of_ofSource hsource
    · cases hf
    · exact .inr (.notText (not_isValidUTF8_of_unreadable hf))
    · exact absurd rfl hf.ne_unreadable
  · rename_i f hmalformed hunreadable hsource
    cases h
    obtain hf | hf | hf := Yaml.explains_of_ofSource hsource
    · exact absurd hf hmalformed
    · obtain hnone | hrule | hbytes := fault_sourceOfBytes bytes
      · rw [hnone] at hf
        cases hf
      · rw [hrule] at hf
        exact absurd (Option.some.inj hf).symm hmalformed
      · rw [hbytes] at hf
        exact absurd (Option.some.inj hf).symm hunreadable
    · exact .inr (.badValue hdata hf)
  · cases h

/-- A document that is read holds a mapping, or the error says that it does not. -/
theorem error_of_mapping {source : Yaml.Source} {file : Option String}
    (h : mapping source file reader = .error e) :
    document source file reader = .error e ∨ ∃ typeWord, e = .notAMapping typeWord file := by
  unfold mapping at h
  cases hdocument : document source file reader with
  | error e' =>
    rw [hdocument] at h
    cases h
    exact .inl rfl
  | ok doc =>
    rw [hdocument] at h
    cases doc with
    | none => cases h
    | some doc =>
      simp only [bind, Except.bind] at h
      split at h
      · cases h
      · split at h
        · cases h
        · cases h
          exact .inr ⟨_, rfl⟩

/-- A mapping is a model, or the error says what is wrong with its data. -/
theorem error_of_modelOfYaml {source : Yaml.Source} {file : Option String}
    (h : modelOfYaml source file reader = .error e) :
    mapping source file reader = .error e ∨ ∃ faults, e = .invalid faults := by
  unfold modelOfYaml at h
  cases hmapping : mapping source file reader with
  | error e' =>
    rw [hmapping] at h
    cases h
    exact .inl rfl
  | ok p =>
    rw [hmapping] at h
    simp only [bind, Except.bind] at h
    unfold orInvalid at h
    split at h
    · cases h
    · cases h
      exact .inr ⟨_, rfl⟩

theorem modelOfFile_data (hdata : path.isData = true) (bytes : ByteArray) (reader : Reader) :
    modelOfFile path (.file bytes) reader =
      modelOfYaml (sourceOfBytes bytes) (some path.toString) reader := by
  simp only [modelOfFile, if_pos hdata, modelOfDataFile, fileBytes, bind, Except.bind]

theorem ends_of_data (hdata : path.isData = true)
    (h : modelOfFile path (.file bytes) reader = .error e) : Ends reader.room path bytes e := by
  rw [modelOfFile_data hdata] at h
  obtain hmapping | ⟨faults, rfl⟩ := error_of_modelOfYaml h
  · obtain hdocument | ⟨typeWord, rfl⟩ := error_of_mapping hmapping
    · exact ends_of_document hdata hdocument
    · exact .inl (.notAMapping hdata typeWord)
  · exact .inl (.invalid hdata faults)

/-- Loading a file ends in a model, in an error that is reported, or in one that escapes. -/
theorem ends_of_modelOfFile (h : modelOfFile path (.file bytes) reader = .error e) :
    Ends reader.room path bytes e := by
  cases hdata : path.isData with
  | false => exact ends_of_text hdata h
  | true => exact ends_of_data hdata h

end Load

/-! ## Commands -/

namespace CommandLine

variable {room : Nat} {path : Path} {bytes : ByteArray} {e : LoadError}

theorem ofLoadError_of_reports (h : e.Reports path) :
    (Outcome.ofLoadError e).exitCode = 2 ∧ (Outcome.ofLoadError e).failure = none := by
  cases h <;> exact ⟨rfl, rfl⟩

theorem ofLoadError_of_escapes (h : e.Escapes room path bytes) :
    Outcome.ofLoadError e = .failed (.load e) := by
  cases h <;> rfl

theorem Command.run_of_error {s : Settings} {c : Command} {p : String} {state : FileState}
    (h : Load.modelOfFile (Path.ofString p) state s.reader = .error e) :
    c.run s p state = .ofLoadError e := by
  unfold run
  rw [h]

end CommandLine

/-- For every path, every file there and every way in which a run reads data documents: the load
succeeds; or its error is reported, and every command ends with the exit code for that; or the error
escapes from every command. A file that is no data document is loaded or reported if and only if it
is UTF-8; a data document that escapes is not UTF-8, spells a value that does not exist, or has more
collections than the run has room for. -/
theorem Load.load_file (p : String) (bytes : ByteArray) (reader : Reader) :
    ((∃ m, modelOfFile (Path.ofString p) (.file bytes) reader = .ok m) ∨
      (∃ e, modelOfFile (Path.ofString p) (.file bytes) reader = .error e ∧
        e.Reports (Path.ofString p) ∧ ∀ (s : Settings) (c : Command), s.reader = reader →
          (c.run s p (.file bytes)).exitCode = 2 ∧ (c.run s p (.file bytes)).failure = none) ∨
      (∃ e, modelOfFile (Path.ofString p) (.file bytes) reader = .error e ∧
        e.Escapes reader.room (Path.ofString p) bytes ∧
          ∀ (s : Settings) (c : Command), s.reader = reader →
            c.run s p (.file bytes) = .failed (.load e))) ∧
    ((Path.ofString p).isData = false →
      (modelOfFile (Path.ofString p) (.file bytes) reader = .error .notText ↔
        ¬ bytes.IsValidUTF8)) := by
  refine ⟨?_, modelOfFile_eq_notText_iff⟩
  cases h : modelOfFile (Path.ofString p) (.file bytes) reader with
  | ok m => exact .inl ⟨m, rfl⟩
  | error e =>
    obtain he | he := ends_of_modelOfFile h
    · refine .inr (.inl ⟨e, rfl, he, ?_⟩)
      rintro s c rfl
      rw [Command.run_of_error h]
      exact ofLoadError_of_reports he
    · refine .inr (.inr ⟨e, rfl, he, ?_⟩)
      rintro s c rfl
      rw [Command.run_of_error h]
      exact ofLoadError_of_escapes he

end Lineage
