import Lineage.Load.Model
import Lineage.Proofs.Declaration.Line
import Lineage.Proofs.Text.Writable

/-!
# Declared names

A surrogate can be spelled in a data document, and it is let through wherever any text will do. The
name of a declaration is the exception. In a data document it has to be a string, and in a line it
is made of letters, numbers and a few marks. So whatever file a model is loaded from, its declared
names hold no surrogates (`writable_names_of_modelOfFile`).
-/

namespace Lineage

/-! ## Checks that succeed -/

namespace Checked

variable {α β : Type} {a : α} {b : β}

/-- A step in the place of a complaint makes no difference to what passes. -/
theorem under_eq_ok {step : String} {x : Checked α} : under step x = .ok a ↔ x = .ok a := by
  cases x <;> simp [under]

/-- Two checks pass together exactly if each of them does. -/
theorem also_eq_ok {x : Checked α} {y : Checked β} :
    also x y = .ok (a, b) ↔ x = .ok a ∧ y = .ok b := by
  cases x <;> cases y <;> simp [also]

theorem map_eq_ok {f : α → β} {x : Checked α} :
    x.map f = .ok b ↔ ∃ a, x = .ok a ∧ f a = b := by
  cases x <;> simp [Except.map]

end Checked

/-- A name that passes its check is a string, and not an empty one. -/
theorem Data.exists_string_of_checkName {d : Data} {t : Text} (h : d.checkName = .ok t) :
    ∃ s : String, s ≠ "" ∧ t = s := by
  unfold checkName at h
  cases hs : d.checkString with
  | error fs =>
    rw [hs] at h
    cases h
  | ok s =>
    rw [hs] at h
    change (if s.isEmpty then _ else _) = _ at h
    split at h
    · cases h
    · rename_i hempty
      cases h
      exact ⟨s, by simpa using hempty, rfl⟩

theorem Data.writable_of_checkName {d : Data} {t : Text} (h : d.checkName = .ok t) :
    t.Writable := by
  obtain ⟨s, _, rfl⟩ := exists_string_of_checkName h
  exact Text.writable_ofString s

/-! ## Data documents -/

namespace Declaration

/-- A field that passes holds its default, or what its check has let through. -/
theorem eq_ok_of_field {α : Type} {es : Entries} {names : List String} {default : Checked α}
    {check : Data → Checked α} {a : α} (h : field es names default check = .ok a) :
    default = .ok a ∨ ∃ d, check d = .ok a := by
  unfold field at h
  split at h
  · exact Or.inr ⟨_, Checked.under_eq_ok.1 h⟩
  · exact Or.inl h

/-- The entries of a declaration are let through with a name that is a string. -/
theorem writable_name_of_ofEntries {es : Entries} {d : Declaration} (h : ofEntries es = .ok d) :
    d.name.Writable := by
  unfold ofEntries at h
  simp only at h
  obtain ⟨⟨name, rest⟩, hfields, rfl⟩ := Checked.map_eq_ok.1 h
  rcases eq_ok_of_field (Checked.also_eq_ok.1 hfields).1 with hmissing | ⟨d, hd⟩
  · cases hmissing
  · exact Data.writable_of_checkName hd

theorem writable_name_of_ofData {data : Data} {d : Declaration} (h : ofData data = .ok d) :
    d.name.Writable := by
  cases data with
  | map es => exact writable_name_of_ofEntries h
  | _ => cases h

theorem writable_name_of_ofRef {boxes : Array Yaml.Box} {r : Yaml.Ref} {d : Declaration}
    (h : (ofRef boxes r).2 = .ok d) : d.name.Writable := by
  unfold ofRef at h
  cases r with
  | value data => exact writable_name_of_ofData h
  | box b =>
    simp only at h
    split at h
    · exact writable_name_of_ofEntries h
    · cases h

/-- The list of the declarations is read one by one, each with a name that is a string. -/
theorem writable_names_of_ofRefs {boxes : Array Yaml.Box} {n : Nat} {rs : List Yaml.Ref}
    {ds : List Declaration} (h : ofRefs boxes n rs = .ok ds) : ∀ d ∈ ds, d.name.Writable := by
  induction rs generalizing boxes n ds with
  | nil =>
    cases h
    intro d hd
    cases hd
  | cons r rs ih =>
    unfold ofRefs at h
    obtain ⟨⟨d, ds⟩, hboth, rfl⟩ := Checked.map_eq_ok.1 h
    obtain ⟨hd, hds⟩ := Checked.also_eq_ok.1 hboth
    exact List.forall_mem_cons.2
      ⟨writable_name_of_ofRef (Checked.under_eq_ok.1 hd), ih hds⟩

end Declaration

/-- All names in a data document are strings. -/
theorem Model.writable_names_of_ofEntries {boxes : Array Yaml.Box} {es : List (Data × Yaml.Ref)}
    {m : Model} (h : ofEntries boxes es = .ok m) : ∀ d ∈ m.declarations, d.name.Writable := by
  unfold ofEntries at h
  split at h
  · cases h
    intro d hd
    cases hd
  · rw [Checked.under_eq_ok] at h
    split at h
    · obtain ⟨ds, hds, rfl⟩ := Checked.map_eq_ok.1 h
      exact Declaration.writable_names_of_ofRefs hds
    · cases h

/-! ## Declaration lines -/

namespace Text

/-- Between two numbers without a bound between them, membership does not change. -/
theorem CharClass.inside_congr {bounds : List Nat} {m n : Nat} (h : ∀ b ∈ bounds, m < b ↔ n < b) :
    inside bounds m = inside bounds n := by
  induction bounds with
  | nil => rfl
  | cons b bounds ih =>
    obtain ⟨hb, hbounds⟩ := List.forall_mem_cons.1 h
    simp only [inside, hb, ih hbounds]

/-- A surrogate is neither a letter nor a number. -/
theorem isWordChar_surrogate (place : Fin 0x800) : isWordChar (.surrogate place) = false := by
  have hbounds : ∀ b ∈ lettersAndNumbers.bounds, b ≤ 0xD800 ∨ 0xE000 ≤ b := by
    decide +kernel
  have hfirst : CharClass.inside lettersAndNumbers.bounds 0xD800 = false := by
    decide +kernel
  have hsame : CharClass.inside lettersAndNumbers.bounds (0xD800 + place) =
      CharClass.inside lettersAndNumbers.bounds 0xD800 := by
    refine CharClass.inside_congr fun b hb => ?_
    have := hbounds b hb
    omega
  rw [isWordChar, Bool.or_eq_false_iff]
  exact ⟨rfl, hsame.trans hfirst⟩

end Text

namespace Line

variable {place : Fin 0x800}

/-- A word starts with an ASCII letter or the underscore and goes on with letters and numbers. -/
theorem Word.surrogate_notMem (w : Word) : CodePoint.surrogate place ∉ w.chars := by
  intro hmem
  rcases List.mem_cons.1 hmem with heq | htail
  · have hstart := w.head.2
    rw [← heq] at hstart
    cases hstart
  · obtain ⟨c, _, heq⟩ := List.mem_map.1 htail
    have hchar := c.2
    rw [heq, Text.isWordChar_surrogate] at hchar
    cases hchar

/-- Between words stand apostrophes and hyphens. -/
theorem Identifier.surrogate_notMem (i : Identifier) : CodePoint.surrogate place ∉ i.chars := by
  intro hmem
  rcases List.mem_append.1 hmem with hfirst | hmore
  · exact i.first.surrogate_notMem hfirst
  · obtain ⟨⟨mark, w⟩, _, hmem⟩ := List.mem_flatMap.1 hmore
    rcases List.mem_cons.1 hmem with heq | hword
    · have hmark := mark.2
      rw [← heq] at hmark
      cases hmark
    · exact w.surrogate_notMem hword

/-- Between identifiers stand colons. -/
theorem Name.writable_text (n : Name) : n.text.Writable := by
  intro place hmem
  rcases List.mem_append.1 hmem with hfirst | hmore
  · exact n.first.surrogate_notMem hfirst
  · obtain ⟨i, _, hmem⟩ := List.mem_flatMap.1 hmore
    rcases List.mem_append.1 hmem with hcolons | hidentifier
    · exact Text.writable_ofString "::" place hcolons
    · exact i.surrogate_notMem hidentifier

end Line

/-- The name of a line is written by the grammar. -/
theorem Declaration.writable_name_of_ofLine {line : Text} {categories : List Text}
    {number : Option Int} {d : Declaration} (h : ofLine line categories number = .ok d) :
    d.name.Writable := by
  unfold ofLine at h
  simp only at h
  split at h
  · rename_i d' hread
    cases h
    obtain ⟨w, hw⟩ := Line.exists_of_declaration? hread
    rw [hw, Line.declaration?_eq] at hread
    cases hread
    exact w.name.writable_text
  · cases h

/-! ## Declaration documents -/

/-- What holds of all declarations that are read from single lines holds of those of a document. -/
theorem Document.forall_of_readLines {P : Declaration → Prop}
    (hline : ∀ line categories number d, Declaration.ofLine line categories number = .ok d → P d)
    {number : Nat} {categories : List Text} {lines : List (List CodePoint)} {ds : List Declaration}
    (h : readLines number categories lines = .ok ds) : ∀ d ∈ ds, P d := by
  induction lines generalizing number categories ds with
  | nil =>
    cases h
    intro d hd
    cases hd
  | cons line lines ih =>
    unfold readLines at h
    -- only the last kind of line declares something
    split at h
    · exact ih h
    · exact ih h
    · exact ih h
    · split at h
      · cases h
      · rename_i d hd
        split at h
        · cases h
        · rename_i ds' hrest
          cases h
          exact List.forall_mem_cons.2 ⟨hline _ _ _ d hd, ih hrest⟩

/-- What holds of all declarations that are read from single lines holds of those of a text. -/
theorem Model.forall_of_ofText {P : Declaration → Prop}
    (hline : ∀ line categories number d, Declaration.ofLine line categories number = .ok d → P d)
    {text : Text} {m : Model} (h : ofText text = .ok m) : ∀ d ∈ m.declarations, P d := by
  unfold ofText at h
  split at h
  · rename_i ds hds
    cases h
    exact Document.forall_of_readLines hline hds
  · cases h

/-- All names in a declaration document are written by the grammar. -/
theorem Model.writable_names_of_ofText {text : Text} {m : Model} (h : ofText text = .ok m) :
    ∀ d ∈ m.declarations, d.name.Writable :=
  forall_of_ofText (fun _ _ _ _ => Declaration.writable_name_of_ofLine) h

/-! ## Files -/

namespace Load

/-- Steps in a row pass exactly if the first does, and the second with its result. -/
theorem bind_eq_ok {ε α β : Type} {x : Except ε α} {f : α → Except ε β} {b : β} :
    (x >>= f) = .ok b ↔ ∃ a, x = .ok a ∧ f a = .ok b := by
  cases x <;> simp [bind, Except.bind]

/-- Complaints about data end a load, so what passes is what the checks have let through. -/
theorem orInvalid_eq_ok {x : Checked Model} {m : Model} : orInvalid x = .ok m ↔ x = .ok m := by
  cases x <;> simp [orInvalid]

/-- The declared names of a model that has been loaded hold no surrogates. -/
theorem writable_names_of_modelOfFile {path : Path} {state : FileState} {reader : Reader}
    {m : Model} (h : modelOfFile path state reader = .ok m) :
    ∀ d ∈ m.declarations, d.name.Writable := by
  unfold modelOfFile at h
  split at h
  · unfold modelOfDataFile at h
    obtain ⟨bytes, _, h⟩ := bind_eq_ok.1 h
    unfold modelOfYaml at h
    obtain ⟨⟨boxes, es⟩, _, h⟩ := bind_eq_ok.1 h
    exact Model.writable_names_of_ofEntries (orInvalid_eq_ok.1 h)
  · unfold modelOfTextFile at h
    obtain ⟨text, _, h⟩ := bind_eq_ok.1 h
    split at h
    · rename_i m' hm
      cases h
      exact Model.writable_names_of_ofText hm
    · cases h

end Load

end Lineage
