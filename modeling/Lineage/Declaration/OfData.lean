import Lineage.Data.Checked
import Lineage.Declaration.Basic
import Lineage.Text.CaseFold

/-!
# Declarations from data

A declaration may be written as a mapping. Before its fields are read, two shorthands are
expanded: the word of a kind may stand for the name and the kind together, and a single text may
stand for a list of one. The fields `type`, `is` and `does` also go by the longer names
`packagetype`, `super_names` and `role_names`; the short name wins.
-/

namespace Lineage

namespace Declaration

/-! ## Shorthands -/

/-- The values that entries of a declaration may have: data, or whatever stands for data. -/
class EntryValue (α : Type) where
  ofData : Data → α
  /-- The text, if the value is one. -/
  text? : α → Option Text

instance : EntryValue Data where
  ofData := id
  text?
    | .text t => some t
    | _ => none

section

variable {α : Type} [EntryValue α]

/-- Whether an entry goes by the given name. -/
def isEntryOf (key : Text) : Data × α → Bool
  | (.text k, _) => k == key
  | _ => false

/-- Where no name is given, the first kind whose word is a key gives the name; it also gives the
kind, unless there is one. -/
def expandKind (es : List (Data × α)) : List (Data × α) :=
  if (Data.entry? "name" es).isSome then es
  else
    match Kind.all.findSome? fun k => (Data.entry? k.keyword es).map (k, ·) with
    | none => es
    | some (k, name) =>
      let es := es.filter (!isEntryOf k.keyword ·) ++ [(.text "name", name)]
      if (Data.entry? "type" es).isSome then es
      else es ++ [(.text "type", EntryValue.ofData (.text k.keyword))]

/-- The keys whose value may be a single text. -/
def listKeys : List Text :=
  ["is", "does", "super_names", "role_names", "categories"]

/-- A single text under one of the list keys becomes a list of one. -/
def expandText (e : Data × α) : Data × α :=
  match e.1, EntryValue.text? e.2 with
  | .text k, some t =>
    if listKeys.contains k then (.text k, EntryValue.ofData (.list [.text t])) else e
  | _, _ => e

/-- The entries with both shorthands expanded. -/
def expand (es : List (Data × α)) : List (Data × α) :=
  (expandKind es).map expandText

end

/-! ## Fields -/

/-- The entries of a mapping. -/
abbrev Entries := List (Data × Data)

/-- Reads the field that goes by the first of the given names that is a key. -/
def field {α : Type} (es : Entries) (names : List String) (default : Checked α)
    (check : Data → Checked α) : Checked α :=
  match names.findSome? fun (n : String) => (Data.entry? n es).map (n, ·) with
  | some (n, d) => Checked.under n (check d)
  | none => default

/-- Reads the word of a kind. -/
def checkKind (d : Data) : Checked Kind :=
  match d.checkText with
  | .error _ => .fail .unknownKind
  | .ok t =>
    match t.toString? with
    | none => .fail .notUnicode
    | some word =>
      match Kind.ofKeyword? word with
      | some k => .ok k
      | none => .fail .unknownKind

/-- Reads the fields of a declaration from entries whose shorthands are expanded. -/
def ofEntries (es : Entries) : Checked Declaration :=
  let name := field es ["name"] (Checked.under "name" (.fail .missing)) Data.checkName
  let kind := field es ["type", "packagetype"] (.ok .ofClass) checkKind
  let categories := field es ["categories"] (.ok []) Data.checkTextSet
  let parents := field es ["is", "super_names"] (.ok []) Data.checkTexts
  let roles := field es ["does", "role_names"] (.ok []) Data.checkTexts
  let signature := field es ["signature"] (.ok none) Data.checkText?
  let roleSignatures := field es ["role_signatures"] (.ok []) Data.checkTextMap
  (name.also (kind.also (categories.also (parents.also (roles.also
    (signature.also roleSignatures)))))).map
    fun (name, kind, categories, parents, roles, signature, roleSignatures) =>
      { name, kind, parents, roles, signature
        categories := nameSet (categories.map Text.caseFold)
        roleSignatures := Json.fields roleSignatures }

/-- Reads a declaration from data. -/
def ofData : Data → Checked Declaration
  | .map es => ofEntries (expand es)
  | _ => .fail (.notRecord "Declaration")

end Declaration

/-- Reads a model from data: a mapping whose `declarations`, if given, are a list. -/
def Model.ofData : Data → Checked Model
  | .map es =>
    match Data.entry? "declarations" es with
    | none => .ok {}
    | some d => Checked.under "declarations" <|
      match d with
      | .list l | .set l => (Checked.items Declaration.ofData 0 l).map fun ds => ⟨ds⟩
      | _ => .fail .notList
  | _ => .fail (.notRecord "TypeModel")

end Lineage
