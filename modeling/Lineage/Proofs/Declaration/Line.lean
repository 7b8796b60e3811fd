import Lineage.Proofs.Declaration.Grammar

/-!
# Declaration lines by their grammar

A line is accepted exactly if it is written by the grammar, and then there is one way in which it
is, from which the record is read off. The two expressions agree on the line: the clauses that are
found one after the other are those that the first expression has accepted, whatever stands in
their names and signatures (`readsLine`).
-/

namespace Lineage

namespace Text

/-- A trimmed text does not end with white space. -/
theorem not_isBlank_of_getLast?_trim {cs : List CodePoint} {c : CodePoint}
    (h : (trim cs).getLast? = some c) : isBlank c = false := by
  have hne : (cs.dropWhile isBlank).rdropWhile isBlank ≠ [] := by
    intro hnil
    rw [show trim cs = [] from hnil] at h
    cases h
  have hlast := List.rdropWhile_last_not isBlank (cs.dropWhile isBlank) hne
  rw [show trim cs = (cs.dropWhile isBlank).rdropWhile isBlank from rfl,
    List.getLast?_eq_some_getLast hne, Option.some.injEq] at h
  rw [← h]
  exact Bool.eq_false_iff.2 hlast

end Text

namespace Line

open Text (Reading)

/-! ## Signatures of roles -/

/-- The signatures given with a role, in order. -/
def signaturesOf (role : Text) (ks : List Clause) : List Text :=
  ks.filterMap fun k => if k.relation = .composes ∧ k.target = role then k.signature else none

section RoleSignatures

variable {role r s : Text} {ks : List Clause} {k : Clause} {acc : List (Text × Text)}

open roleSignatures (setSignature)

theorem lookup_setSignature :
    (setSignature r s acc).lookup role = if role = r then some s else acc.lookup role := by
  induction acc with
  | nil =>
    rw [setSignature, List.lookup_cons]
    by_cases h : role = r
    · simp [h]
    · simp [h, beq_eq_false_iff_ne.2 h]
  | cons e acc ih =>
    obtain ⟨q, t⟩ := e
    rw [setSignature]
    split
    · rename_i hq
      obtain rfl := eq_of_beq hq
      rw [List.lookup_cons, List.lookup_cons]
      by_cases h : role = q
      · simp [h]
      · simp [h, beq_eq_false_iff_ne.2 h]
    · rename_i hq
      rw [List.lookup_cons, List.lookup_cons, ih]
      by_cases h : role = q
      · have hqr : q ≠ r := mt beq_iff_eq.2 hq
        simp [h, hqr]
      · simp [beq_eq_false_iff_ne.2 h]

theorem mem_keys_setSignature {q : Text} :
    q ∈ (setSignature r s acc).map (·.1) ↔ q = r ∨ q ∈ acc.map (·.1) := by
  induction acc with
  | nil => simp [setSignature]
  | cons e acc ih =>
    rw [setSignature]
    split
    · rename_i hr
      rw [List.map_cons, List.map_cons, List.mem_cons, eq_of_beq hr, or_self_left]
    · rw [List.map_cons, List.map_cons, List.mem_cons, List.mem_cons, ih, or_left_comm]

theorem nodup_keys_setSignature (h : (acc.map (·.1)).Nodup) :
    ((setSignature r s acc).map (·.1)).Nodup := by
  induction acc with
  | nil => simp [setSignature]
  | cons e acc ih =>
    obtain ⟨hnew, hnodup⟩ := List.nodup_cons.1 h
    rw [setSignature]
    split
    · exact h
    · rename_i hr
      refine List.nodup_cons.2 ⟨fun hmem => ?_, ih hnodup⟩
      rcases mem_keys_setSignature.1 hmem with heq | hold
      · exact hr (beq_iff_eq.2 heq)
      · exact hnew hold

/-- A clause adds its signature, if it composes a role with one. -/
theorem roleSignatures_concat (ks : List Clause) (k : Clause) :
    roleSignatures (ks ++ [k]) =
      match k.relation, k.signature with
      | .composes, some s => setSignature k.target s (roleSignatures ks)
      | _, _ => roleSignatures ks := by
  rw [roleSignatures, List.foldl_append]
  rfl

/-- Each role is kept once. -/
theorem nodup_keys_roleSignatures (ks : List Clause) : ((roleSignatures ks).map (·.1)).Nodup := by
  induction ks using List.reverseRecOn with
  | nil => exact List.nodup_nil
  | append_singleton ks k ih =>
    rw [roleSignatures_concat]
    split
    · exact nodup_keys_setSignature ih
    · exact ih

/-- A role is kept with the last signature that is given with it. -/
theorem lookup_roleSignatures (role : Text) (ks : List Clause) :
    (roleSignatures ks).lookup role = (signaturesOf role ks).getLast? := by
  induction ks using List.reverseRecOn with
  | nil => rfl
  | append_singleton ks k ih =>
    obtain ⟨relation, target, signature⟩ := k
    rw [roleSignatures_concat, signaturesOf, List.filterMap_append]
    rw [signaturesOf] at ih
    cases relation with
    | inherits => simpa using ih
    | composes =>
      cases signature with
      | none => simpa using ih
      | some s =>
        simp only [lookup_setSignature]
        by_cases htarget : role = target
        · simp [htarget]
        · simp [htarget, Ne.symm htarget, ih]

end RoleSignatures

/-! ## The record of a written line -/

def Name.text (n : Name) : Text :=
  ⟨n.chars⟩

def Signature.text (s : Signature) : Text :=
  ⟨s.chars⟩

/-- The clause that is written. -/
def WrittenClause.clause (k : WrittenClause) : Clause :=
  ⟨k.relation, k.target.text, k.signature.map Signature.text⟩

/-- The declaration that is written. -/
def WrittenLine.declaration (w : WrittenLine) : Declaration where
  name := w.name.text
  kind := w.kind
  signature := w.signature.map Signature.text
  parents := targets .inherits (w.clauses.map WrittenClause.clause)
  roles := targets .composes (w.clauses.map WrittenClause.clause)
  roleSignatures := roleSignatures (w.clauses.map WrittenClause.clause)

section Parts

variable {r : Reading Part} {k : WrittenClause} {w : WrittenLine}

theorem clause_of_parts (h : r.parts = k.parts) : clause r = k.clause := by
  obtain ⟨_, relation, _, target, signature⟩ := k
  have hrelation : textOf r .relation = relation.keyword := by
    rw [textOf, Reading.part?, h]
    cases signature <;> rfl
  have htarget : textOf r .name = target.text := by
    rw [textOf, Reading.part?, h]
    cases signature <;> rfl
  have hsignature : r.part? .signature = signature.map Signature.chars := by
    rw [Reading.part?, h]
    cases signature <;> rfl
  unfold clause
  rw [hrelation, htarget, hsignature, Option.map_map]
  cases relation <;> rfl

theorem kind_of_parts (h : r.parts = w.parts) : textOf r .kind = w.kind.keyword := by
  obtain ⟨_, _, _, signature, _⟩ := w
  rw [textOf, Reading.part?, h]
  cases signature <;> rfl

theorem name_of_parts (h : r.parts = w.parts) : textOf r .name = w.name.text := by
  obtain ⟨_, _, _, signature, _⟩ := w
  rw [textOf, Reading.part?, h]
  cases signature <;> rfl

theorem signature_of_parts (h : r.parts = w.parts) :
    r.part? .signature = w.signature.map Signature.chars := by
  obtain ⟨_, _, _, signature, _⟩ := w
  rw [Reading.part?, h]
  cases signature <;> rfl

theorem clauses_of_parts (h : r.parts = w.parts) : r.part? .clauses = some w.clauseChars := by
  rw [Reading.part?, h]
  rfl

end Parts

/-! ## Reading -/

/-- In the text of clauses, each of them is found. -/
theorem scan_clauseChars (w : WrittenLine) :
    (clausePattern.scan w.clauseChars).map (fun r => (r.text, r.parts)) =
      w.clauses.map fun k => (k.chars, k.parts) :=
  spells_clausePattern.scan_eq WrittenClause.chars_ne_nil (fun _ => id) w.clauses

theorem clauses_scan (w : WrittenLine) :
    (clausePattern.scan w.clauseChars).map clause = w.clauses.map WrittenClause.clause := by
  -- a clause depends on the remembered parts alone
  have hparts : ∀ rs : List (Reading Part), rs.map clause =
      (rs.map fun r => (r.text, r.parts)).map fun p => clause ⟨p.1, p.2, []⟩ := fun rs => by
    rw [List.map_map]
    rfl
  rw [hparts, scan_clauseChars, List.map_map]
  exact List.map_congr_left fun k _ => clause_of_parts rfl

theorem declaration?_eq (w : WrittenLine) : declaration? w.chars = some w.declaration := by
  have hwhole := spells_declarationPattern.whole?_eq w
  generalize hr : (⟨w.chars, w.parts, []⟩ : Reading Part) = r at hwhole
  have hparts : r.parts = w.parts := by rw [← hr]
  have hclauses : (textOf r .clauses).codePoints = w.clauseChars := by
    rw [textOf, clauses_of_parts hparts]
    rfl
  rw [declaration?, hwhole]
  simp only [Option.bind_eq_bind, Option.bind_some, kind_of_parts hparts, Text.toString?_ofString,
    Kind.ofKeyword?_keyword, name_of_parts hparts, signature_of_parts hparts, hclauses,
    clauses_scan, Option.map_map]
  rfl

theorem exists_of_declaration? {cs : List CodePoint} {d : Declaration}
    (h : declaration? (Text.trim cs) = some d) : ∃ w : WrittenLine, Text.trim cs = w.chars := by
  unfold declaration? at h
  obtain ⟨r, hr, _⟩ := Option.bind_eq_some_iff.1 h
  refine spells_declarationPattern.eq_of_whole? (fun hline => ?_) hr
  have hblank := Text.not_isBlank_of_getLast?_trim hline
  revert hblank
  decide

/-! ## What comes of a line -/

/-- The targets of the clauses of one relation, in order. -/
def WrittenLine.targets (w : WrittenLine) (r : Relation) : List Text :=
  (w.clauses.filter (·.relation = r)).map (·.target.text)

/-- The signatures given with a role, in order. -/
def WrittenLine.signaturesOf (w : WrittenLine) (role : Text) : List Text :=
  (w.clauses.filter fun k => k.relation = .composes ∧ k.target.text = role).filterMap
    fun k => k.signature.map Signature.text

/-- The record of a line, read off from how it is written. -/
structure Records (w : WrittenLine) (categories : List Text) (d : Declaration) : Prop where
  name : d.name = w.name.text
  kind : d.kind = w.kind
  categories : d.categories = nameSet (categories.map Text.caseFold)
  signature : d.signature = w.signature.map Signature.text
  parents : d.parents = w.targets .inherits
  roles : d.roles = w.targets .composes
  /-- Each role with a signature is kept once, with the last one. -/
  roleSignatures : (d.roleSignatures.map (·.1)).Nodup ∧
    ∀ role, d.roleSignatures.lookup role = (w.signaturesOf role).getLast?

/-- What comes of a line that is written by the grammar, and of one that is not. -/
structure ReadsLine (line : Text) (categories : List Text) (number : Option Int) : Prop where
  /-- There is one way at most in which a text is written. -/
  unambiguous : ∀ w w' : WrittenLine, w.chars = w'.chars → w = w'
  /-- A line is accepted exactly if it is written by the grammar, white space around it aside. -/
  accepted_iff : (∃ d, Declaration.ofLine line categories number = .ok d) ↔
    ∃ w : WrittenLine, w.chars = Text.trim line.codePoints
  record : ∀ w : WrittenLine, w.chars = Text.trim line.codePoints →
    ∀ d, Declaration.ofLine line categories number = .ok d → Records w categories d
  /-- The clauses that the first expression accepts are found again one by one. -/
  rescanned : ∀ w : WrittenLine, w.chars = Text.trim line.codePoints →
    ∃ r, declarationPattern.whole? (Text.trim line.codePoints) = some r ∧
      r.part? .clauses = some w.clauseChars ∧
      (clausePattern.scan w.clauseChars).map (fun r => (r.text, r.parts)) =
        w.clauses.map fun k => (k.chars, k.parts)
  /-- What is refused is reported with the line as it was given, and its number. -/
  refused : ∀ f, Declaration.ofLine line categories number = .error f →
    f.number = number ∧ f.source = some line ∧ f =
      .report s!"Cannot parse declaration: {Text.quoted ⟨Text.trim line.codePoints⟩}" number
        (some line)

theorem targets_clauses (w : WrittenLine) (r : Relation) :
    targets r (w.clauses.map WrittenClause.clause) = w.targets r := by
  rw [targets, List.filter_map, List.map_map]
  rfl

theorem signaturesOf_clauses (w : WrittenLine) (role : Text) :
    signaturesOf role (w.clauses.map WrittenClause.clause) = w.signaturesOf role := by
  rw [signaturesOf, WrittenLine.signaturesOf, List.filterMap_map, List.filterMap_filter]
  refine List.filterMap_congr fun k _ => ?_
  simp only [decide_eq_true_eq]
  rfl

theorem records_declaration (w : WrittenLine) (categories : List Text) :
    Records w categories
      { w.declaration with categories := nameSet (categories.map Text.caseFold) } where
  name := rfl
  kind := rfl
  categories := rfl
  signature := rfl
  parents := targets_clauses w .inherits
  roles := targets_clauses w .composes
  roleSignatures := by
    refine ⟨nodup_keys_roleSignatures _, fun role => ?_⟩
    rw [← signaturesOf_clauses]
    exact lookup_roleSignatures role _

theorem ofLine_of_written {w : WrittenLine} {line : Text} (categories : List Text)
    (number : Option Int) (hw : w.chars = Text.trim line.codePoints) :
    Declaration.ofLine line categories number =
      .ok { w.declaration with categories := nameSet (categories.map Text.caseFold) } := by
  unfold Declaration.ofLine
  simp only
  rw [← hw, declaration?_eq]

/-- Every line is read as the grammar says. -/
theorem readsLine (line : Text) (categories : List Text) (number : Option Int) :
    ReadsLine line categories number where
  unambiguous := spells_declarationPattern.injective
  accepted_iff := by
    constructor
    · rintro ⟨d, hd⟩
      unfold Declaration.ofLine at hd
      simp only at hd
      split at hd
      · rename_i d' hread
        obtain ⟨w, hw⟩ := exists_of_declaration? hread
        exact ⟨w, hw.symm⟩
      · cases hd
    · rintro ⟨w, hw⟩
      exact ⟨_, ofLine_of_written categories number hw⟩
  record := by
    intro w hw d hd
    rw [ofLine_of_written categories number hw] at hd
    cases hd
    exact records_declaration w categories
  rescanned := by
    intro w hw
    refine ⟨⟨w.chars, w.parts, []⟩, ?_, clauses_of_parts rfl, scan_clauseChars w⟩
    rw [← hw]
    exact spells_declarationPattern.whole?_eq w
  refused := by
    intro f hf
    unfold Declaration.ofLine at hf
    simp only at hf
    split at hf
    · cases hf
    · cases hf
      exact ⟨rfl, rfl, rfl⟩

/-- A class is named like a keyword, and so are what it inherits from and what it composes. -/
example : Declaration.ofLine " class is is is\tdoes does[ is A]" = .ok
    { name := "is", parents := ["is"], roles := ["does"],
      roleSignatures := [("does", "[ is A]")] } := by
  cbv

end Line

end Lineage
