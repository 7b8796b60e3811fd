import Lineage.Proofs.Declaration.Document
import Lineage.Proofs.Declaration.Entries
import Lineage.Proofs.Declaration.Line
import Lineage.Proofs.Load.Names

/-!
# Declarations written as data

Whatever a declaration was read from, a line or data, it can be written as data again: as a mapping
in any order, under either name of a field, with the categories in any order and with repeats, and
with or without the two shorthands. However it is written, it is read as the same declaration
(`Declaration.Normal.ofData_of_writes`). What makes this so is that a declaration that has been read
is in a normal form: its name is a text of characters that is not empty, its categories are folded
and sorted, and no role has two signatures.
-/

namespace Lineage

namespace Declaration

variable {d : Declaration}

/-! ## Declarations that have been read -/

/-- What holds of every declaration that has been read, from a line or from data. -/
structure Normal (d : Declaration) : Prop where
  name : ∃ s : String, s ≠ "" ∧ d.name = s
  categories : ∃ names : List Text, d.categories = nameSet (names.map Text.caseFold)
  roleSignatures : (d.roleSignatures.map (·.1)).Nodup

theorem normal_of_ofLine {line : Text} {categories : List Text} {number : Option Int}
    (h : ofLine line categories number = .ok d) : d.Normal := by
  unfold ofLine at h
  simp only at h
  split at h
  · rename_i d' hread
    obtain ⟨w, hw⟩ := Line.exists_of_declaration? hread
    rw [hw, Line.declaration?_eq] at hread
    cases hread
    cases h
    obtain ⟨s, hs⟩ := Text.exists_string w.name.writable_text
    refine ⟨⟨s, ?_, hs.symm⟩, ⟨categories, rfl⟩, Line.nodup_keys_roleSignatures _⟩
    rintro rfl
    exact w.name.chars_ne_nil (congrArg Text.codePoints hs).symm
  · cases h

theorem normal_of_ofEntries {es : Entries} (h : ofEntries es = .ok d) : d.Normal := by
  unfold ofEntries at h
  simp only at h
  obtain ⟨⟨name, kind, categories, parents, roles, signature, roleSignatures⟩, hfields, rfl⟩ :=
    Checked.map_eq_ok.1 h
  refine ⟨?_, ⟨categories, rfl⟩, Json.nodup_keys_fields roleSignatures⟩
  rcases eq_ok_of_field (Checked.also_eq_ok.1 hfields).1 with hmissing | ⟨data, hdata⟩
  · cases hmissing
  · exact Data.exists_string_of_checkName hdata

theorem normal_of_ofData {data : Data} (h : ofData data = .ok d) : d.Normal := by
  cases data with
  | map es => exact normal_of_ofEntries h
  | _ => cases h

/-- Categories are read again as they are, in any order and with repeats. -/
theorem Normal.nameSet_caseFold (h : d.Normal) {names : List Text}
    (hnames : ∀ t, t ∈ names ↔ t ∈ d.categories) :
    nameSet (names.map Text.caseFold) = d.categories := by
  obtain ⟨read, hread⟩ := h.categories
  have hfolded : names.map Text.caseFold = names := by
    refine (List.map_congr_left fun t ht => ?_).trans (List.map_id _)
    rw [hnames, hread, mem_nameSet] at ht
    obtain ⟨s, _, rfl⟩ := List.mem_map.1 ht
    exact Text.caseFold_caseFold s
  rw [hfolded]
  refine (pairwise_nameSet names).eq_of_mem_iff ?_ fun t => mem_nameSet.trans (hnames t)
  rw [hread]
  exact pairwise_nameSet _

/-! ## Ways of writing -/

/-- The names of the field for the kind. -/
def kindKeys : List String :=
  ["type", "packagetype"]

/-- The names of the field for the parents. -/
def parentsKeys : List String :=
  ["is", "super_names"]

/-- The names of the field for the roles. -/
def rolesKeys : List String :=
  ["does", "role_names"]

/-- A list of texts as a value: a list, or a single text by itself. -/
inductive WritesTexts : List Text → Data → Prop
  | list (ts : List Text) : WritesTexts ts (.list (ts.map .text))
  | bare (t : Text) : WritesTexts [t] (.text t)

/-- A text or nothing as a value. -/
def optionalText : Option Text → Data
  | some t => .text t
  | none => .null

/-- Pairs of texts as a mapping. -/
def textMap (pairs : List (Text × Text)) : Data :=
  .map (pairs.map fun p => (.text p.1, .text p.2))

/-- The entries that give the name and the kind: one for each, or one under the word of the kind. -/
inductive WritesHead (d : Declaration) : Entries → Prop
  | apart {kindKey : String} (key : kindKey ∈ kindKeys) :
      WritesHead d [(.text "name", .text d.name), (.text kindKey, .text d.kind.keyword)]
  | shorthand : WritesHead d [(.text d.kind.keyword, .text d.name)]

/-- A mapping that says all of a declaration. Its entries stand in any order, the fields that have
two names go by either, the categories are listed in any order and with repeats, and both shorthands
may be used. -/
inductive Writes (d : Declaration) : Data → Prop
  | mapping {head entries : Entries} {names : List Text} {categories parents roles : Data}
      {parentsKey rolesKey : String} (head_written : WritesHead d head)
      (mem_names : ∀ t, t ∈ names ↔ t ∈ d.categories)
      (categories_written : WritesTexts names categories)
      (parents_key : parentsKey ∈ parentsKeys)
      (parents_written : WritesTexts d.parents parents)
      (roles_key : rolesKey ∈ rolesKeys)
      (roles_written : WritesTexts d.roles roles)
      (perm : entries.Perm (head ++ [
        (.text "signature", optionalText d.signature),
        (.text "role_signatures", textMap d.roleSignatures),
        (.text "categories", categories),
        (.text parentsKey, parents),
        (.text rolesKey, roles)])) : Writes d (.map entries)

/-! ## Reading -/

section

variable {head rest entries entries' : Entries} {key : Text}

open Data (entry?_eq_none_iff entry?_of_perm)

theorem field_congr {α : Type} (h : ∀ key, Data.entry? key entries = Data.entry? key entries')
    (names : List String) (default : Checked α) (check : Data → Checked α) :
    field entries names default check = field entries' names default check := by
  unfold field
  simp only [h]

/-- A declaration is read from what its keys lead to. -/
theorem ofEntries_congr (h : ∀ key, Data.entry? key entries = Data.entry? key entries') :
    ofEntries entries = ofEntries entries' := by
  unfold ofEntries
  simp only [field_congr h]

/-- The keys that may give the name and the kind. -/
def headKeys : List String :=
  "name" :: kindKeys ++ Kind.all.map Kind.keyword

/-- The keys that give the name and the kind together. -/
def headForms : List (List String) :=
  kindKeys.map (["name", ·]) ++ Kind.all.map ([·.keyword])

/-- The keys of all other fields. -/
def fieldKeys (parentsKey rolesKey : String) : List String :=
  ["signature", "role_signatures", "categories", parentsKey, rolesKey]

theorem apart_mem_headForms {kindKey : String} (h : kindKey ∈ kindKeys) :
    ["name", kindKey] ∈ headForms :=
  List.mem_append_left _ (List.mem_map_of_mem h)

theorem WritesHead.exists_keyed (h : WritesHead d head) :
    ∃ keys ∈ headForms, Data.Keyed head keys := by
  cases h with
  | apart hkey => exact ⟨_, apart_mem_headForms hkey, rfl⟩
  | shorthand => exact ⟨[d.kind.keyword], by cases d.kind <;> decide, rfl⟩

theorem keyword_mem_headKeys (k : Kind) : k.keyword ∈ headKeys := by
  cases k <;> decide

theorem keyword_ne_name (k : Kind) : Text.ofString k.keyword ≠ "name" := by
  rw [Ne, Text.ofString_inj]
  cases k <;> decide

theorem keyword_injective {k k' : Kind} (h : Text.ofString k.keyword = k'.keyword) : k = k' := by
  have hkind := Kind.ofKeyword?_keyword k
  rw [Text.ofString_inj.1 h, Kind.ofKeyword?_keyword] at hkind
  exact (Option.some.inj hkind).symm

/-- However the name and the kind are written, they stand apart once the shorthand is expanded. -/
theorem expandKind_perm (hhead : WritesHead d head) (hperm : entries.Perm (head ++ rest))
    (hnodup : ((head ++ rest).map (·.1)).Nodup)
    (hrest : ∀ key ∈ headKeys, Data.entry? (key : Text) rest = none) :
    ∃ kindKey ∈ kindKeys, (expandKind entries).Perm ((.text "name", .text d.name) ::
      (.text (kindKey : String), .text d.kind.keyword) :: rest) := by
  have hlookup := entry?_of_perm hperm hnodup
  cases hhead with
  | @apart kindKey hkey =>
    refine ⟨kindKey, hkey, ?_⟩
    rw [expandKind, if_pos]
    · exact hperm
    · rw [hlookup]
      rfl
  | shorthand =>
    refine ⟨"type", List.mem_cons_self, ?_⟩
    have hcons (key : String) : Data.entry? (key : Text) entries =
        if Text.ofString d.kind.keyword == (key : Text) then some (.text d.name)
        else Data.entry? (key : Text) rest :=
      hlookup key
    have hname : Data.entry? ("name" : Text) entries = none := by
      rw [hcons, hrest _ (by decide), beq_eq_false_iff_ne.2 (keyword_ne_name d.kind)]
      rfl
    have hword (k : Kind) : Data.entry? (k.keyword : Text) entries =
        if k = d.kind then some (.text d.name) else none := by
      rw [hcons, hrest _ (keyword_mem_headKeys k)]
      by_cases hk : k = d.kind
      · rw [hk, beq_self_eq_true, if_pos rfl, if_pos rfl]
      · rw [if_neg hk, beq_eq_false_iff_ne.2 fun h => hk (keyword_injective h.symm)]
        rfl
    -- so the only word of a kind that is a key is that of this kind
    have hkind : (Kind.all.findSome? fun k => (Data.entry? (k.keyword : Text) entries).map (k, ·)) =
        some (d.kind, .text d.name) := by
      simp only [hword]
      cases d.kind <;> rfl
    have hfilter : (entries.filter (!isEntryOf d.kind.keyword ·)).Perm rest := by
      refine (hperm.filter _).trans ?_
      rw [List.singleton_append, List.filter_cons_of_neg (by simp [isEntryOf]),
        List.filter_eq_self.2]
      intro e he
      rw [entry?_eq_none_iff.1 (hrest _ (keyword_mem_headKeys d.kind)) e he]
      rfl
    have htype : Data.entry? ("type" : Text) (entries.filter (!isEntryOf d.kind.keyword ·) ++
        [(.text "name", .text d.name)]) = none := by
      rw [entry?_eq_none_iff]
      intro e he
      rcases List.mem_append.1 he with he | he
      · exact entry?_eq_none_iff.1 (hrest "type" (by decide)) e (hfilter.mem_iff.1 he)
      · rw [List.mem_singleton.1 he]
        rfl
    rw [expandKind, hname, if_neg (by decide), hkind]
    simp only [htype]
    rw [if_neg (by decide), List.append_assoc]
    exact (hfilter.append_right _).trans List.perm_append_comm

/-- However a list of texts is written, it is a list once the shorthand is expanded. -/
theorem expandText_of_writesTexts {key : Text} {ts : List Text} {value : Data}
    (hkey : key ∈ listKeys) (h : WritesTexts ts value) :
    expandText (.text key, value) = (.text key, .list (ts.map .text)) := by
  cases h with
  | list ts => rfl
  | bare t => exact if_pos (List.contains_iff_mem.2 hkey)

theorem expandText_of_not_mem (key : Text) (hkey : key ∉ listKeys) (value : Data) :
    expandText (.text key, value) = (.text key, value) := by
  unfold expandText
  simp only
  split
  · rename_i hk _
    cases hk
    exact if_neg (mt List.contains_iff_mem.1 hkey)
  · rfl

/-- A declaration as a mapping without any shorthand. -/
def plainEntries (d : Declaration) (names : List Text) (kindKey parentsKey rolesKey : String) :
    Entries := [
  (.text "name", .text d.name),
  (.text kindKey, .text d.kind.keyword),
  (.text "signature", optionalText d.signature),
  (.text "role_signatures", textMap d.roleSignatures),
  (.text "categories", .list (names.map .text)),
  (.text parentsKey, .list (d.parents.map .text)),
  (.text rolesKey, .list (d.roles.map .text))]

theorem checkText?_optionalText (t : Option Text) : (optionalText t).checkText? = .ok t := by
  cases t <;> rfl

theorem checkTextMap_textMap (pairs : List (Text × Text)) :
    (textMap pairs).checkTextMap = .ok pairs :=
  Data.checkEntries_map pairs

theorem checkKind_keyword (k : Kind) : checkKind (.text k.keyword) = .ok k := by
  have htext : (Data.text k.keyword).checkText = .ok (k.keyword : Text) := rfl
  unfold checkKind
  rw [htext]
  simp only [Text.toString?_ofString, Kind.ofKeyword?_keyword]

/-- Without shorthands, every field is read as it is, under either of its names. -/
theorem Normal.ofEntries_plainEntries (h : d.Normal) {names : List Text}
    (hnames : ∀ t, t ∈ names ↔ t ∈ d.categories) {kindKey parentsKey rolesKey : String}
    (hkind : kindKey ∈ kindKeys) (hparents : parentsKey ∈ parentsKeys)
    (hroles : rolesKey ∈ rolesKeys) :
    ofEntries (plainEntries d names kindKey parentsKey rolesKey) = .ok d := by
  obtain ⟨s, hs, hname⟩ := h.name
  have hcheck : Data.checkName (.text d.name) = .ok d.name := by
    rw [hname]
    exact Data.checkName_ofString hs
  have hread : ofEntries (plainEntries d names kindKey parentsKey rolesKey) =
      .ok { d with
        categories := nameSet (names.map Text.caseFold)
        roleSignatures := Json.fields d.roleSignatures } := by
    simp only [kindKeys, parentsKeys, rolesKeys, List.mem_cons, List.not_mem_nil, or_false]
      at hkind hparents hroles
    rcases hkind with rfl | rfl <;> rcases hparents with rfl | rfl <;>
      rcases hroles with rfl | rfl <;>
      simp [ofEntries, field, plainEntries, Data.entry?, Text.ofString_inj, hcheck,
        checkKind_keyword, Data.checkTextSet_list, Data.checkTexts_list, checkText?_optionalText,
        checkTextMap_textMap, Checked.under, Checked.also, Except.map]
  rw [hread, h.nameSet_caseFold hnames, Json.fields_of_nodup h.roleSignatures]

theorem nodup_headForm_append :
    ∀ keys ∈ headForms, ∀ parentsKey ∈ parentsKeys, ∀ rolesKey ∈ rolesKeys,
      (keys ++ fieldKeys parentsKey rolesKey).Nodup := by
  decide

theorem headKey_not_mem_fieldKeys :
    ∀ parentsKey ∈ parentsKeys, ∀ rolesKey ∈ rolesKeys, ∀ key ∈ headKeys,
      key ∉ fieldKeys parentsKey rolesKey := by
  decide

theorem kindKey_not_mem_listKeys : ∀ key ∈ kindKeys, (key : Text) ∉ listKeys := by
  decide

theorem mem_listKeys :
    ∀ key ∈ "categories" :: parentsKeys ++ rolesKeys, (key : Text) ∈ listKeys := by
  decide

/-- However a declaration is written, it is read as it was. -/
theorem Normal.ofData_of_writes (h : d.Normal) {data : Data} (hwrites : Writes d data) :
    ofData data = .ok d := by
  cases hwrites with
  | @mapping head entries names categories parents roles parentsKey rolesKey hhead hnames
      hcategories hparentsKey hparents hrolesKey hroles hperm =>
    have hrest : Data.Keyed [(.text "signature", optionalText d.signature),
        (.text "role_signatures", textMap d.roleSignatures), (.text "categories", categories),
        (.text parentsKey, parents), (.text rolesKey, roles)] (fieldKeys parentsKey rolesKey) := rfl
    have hnodup (keys) (hkeys : keys ∈ headForms) : (keys ++ fieldKeys parentsKey rolesKey).Nodup :=
      nodup_headForm_append keys hkeys parentsKey hparentsKey rolesKey hrolesKey
    -- the shorthand for the name and the kind goes first
    obtain ⟨keys, hkeys, hkeyed⟩ := hhead.exists_keyed
    obtain ⟨kindKey, hkindKey, hkind⟩ := expandKind_perm hhead hperm
      ((hkeyed.append hrest).nodup (hnodup keys hkeys)) fun key hkey => hrest.entry?_eq_none
        (headKey_not_mem_fieldKeys parentsKey hparentsKey rolesKey hrolesKey key hkey)
    -- then single texts become lists
    have hexpand : (expand entries).Perm (plainEntries d names kindKey parentsKey rolesKey) := by
      refine (hkind.map expandText).trans (.of_eq ?_)
      have hparentsText := expandText_of_writesTexts
        (mem_listKeys parentsKey (by simp [hparentsKey])) hparents
      have hrolesText := expandText_of_writesTexts
        (mem_listKeys rolesKey (by simp [hrolesKey])) hroles
      simp only [List.map_cons, List.map_nil]
      rw [expandText_of_not_mem "name" (by decide),
        expandText_of_not_mem _ (kindKey_not_mem_listKeys kindKey hkindKey),
        expandText_of_not_mem "signature" (by decide),
        expandText_of_not_mem "role_signatures" (by decide),
        expandText_of_writesTexts (by decide) hcategories, hparentsText, hrolesText]
      rfl
    have hplain : Data.Keyed (plainEntries d names kindKey parentsKey rolesKey)
        (["name", kindKey] ++ fieldKeys parentsKey rolesKey) := rfl
    show ofEntries (expand entries) = _
    rw [ofEntries_congr (entry?_of_perm hexpand
      (hplain.nodup (hnodup _ (apart_mem_headForms hkindKey))))]
    exact h.ofEntries_plainEntries hnames hkindKey hparentsKey hrolesKey

end

end Declaration

end Lineage
