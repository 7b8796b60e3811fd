import Lineage.Data.Basic

/-!
# Checking data

A check reads a value as something and either succeeds or lists everything that is wrong, each
complaint with the place it is about. Checks of independent parts are combined so that the
complaints of all parts are kept, in the order of the parts.
-/

namespace Lineage

/-- What can be wrong with a value. -/
inductive Complaint where
  | missing
  | notText
  | notUnicode
  | tooShort
  | notList
  | notSet
  | notMapping
  | unknownKind
  /-- Neither a mapping nor a record of the named sort. -/
  | notRecord (sort : String)
  /-- The value cannot be changed. -/
  | frozen
deriving DecidableEq, Repr

namespace Complaint

/-- The sentence that describes the complaint. -/
def message : Complaint → String
  | missing => "Field required"
  | notText => "Input should be a valid string"
  | notUnicode => "Input should be a valid string, unable to parse raw data as a unicode string"
  | tooShort => "String should have at least 1 character"
  | notList => "Input should be a valid list"
  | notSet => "Input should be a valid set"
  | notMapping => "Input should be a valid dictionary"
  | unknownKind => "Input should be 'class', 'role', 'module' or 'enum'"
  | notRecord sort => s!"Input should be a valid dictionary or instance of {sort}"
  | frozen => "Instance is frozen"

/-- The short word for the complaint. -/
def code : Complaint → String
  | missing => "missing"
  | notText => "string_type"
  | notUnicode => "string_unicode"
  | tooShort => "string_too_short"
  | notList => "list_type"
  | notSet => "set_type"
  | notMapping => "dict_type"
  | unknownKind => "enum"
  | notRecord _ => "model_type"
  | frozen => "frozen_instance"

end Complaint

/-- A complaint and the steps that lead to its place. -/
structure DataFault where
  place : List String
  complaint : Complaint
deriving DecidableEq, Repr

/-- The place as one word. -/
def DataFault.location (f : DataFault) : String :=
  ".".intercalate f.place

/-- The outcome of a check: a value, or all that is wrong. -/
abbrev Checked (α : Type) := Except (List DataFault) α

namespace Checked

/-- A failed check with one complaint about the value itself. -/
def fail {α : Type} (c : Complaint) : Checked α :=
  .error [⟨[], c⟩]

/-- Moves the complaints one step further in. -/
def under {α : Type} (step : String) : Checked α → Checked α
  | .ok a => .ok a
  | .error fs => .error (fs.map fun f => { f with place := step :: f.place })

/-- Combines two independent checks and keeps the complaints of both. -/
def also {α β : Type} : Checked α → Checked β → Checked (α × β)
  | .ok a, .ok b => .ok (a, b)
  | .ok _, .error fs => .error fs
  | .error fs, .ok _ => .error fs
  | .error fs, .error gs => .error (fs ++ gs)

/-- Checks each item under its index, counted from the given number. -/
def items {α : Type} (check : Data → Checked α) : Nat → List Data → Checked (List α)
  | _, [] => .ok []
  | n, x :: xs =>
    (also (under (toString n) (check x)) (items check (n + 1) xs)).map fun (a, as) => a :: as

end Checked

namespace Data

/-- Reads a text; bytes count if they are valid UTF-8. -/
def checkText : Data → Checked Text
  | text t => .ok t
  | bytes b =>
    match String.fromUTF8? b with
    | some s => .ok (s : Text)
    | none => .fail .notUnicode
  | _ => .fail .notText

/-- Reads a text without surrogates. -/
def checkString (d : Data) : Checked String := do
  match (← d.checkText).toString? with
  | some s => .ok s
  | none => .fail .notUnicode

/-- Reads a name: a text without surrogates that is not empty. -/
def checkName (d : Data) : Checked Text := do
  let s ← d.checkString
  if s.isEmpty then .fail .tooShort else .ok (s : Text)

/-- Reads a list of texts; a set counts as a list. -/
def checkTexts : Data → Checked (List Text)
  | list l | set l => Checked.items checkText 0 l
  | _ => .fail .notList

/-- Reads a set of texts, given as a set or as a list. -/
def checkTextSet : Data → Checked (List Text)
  | list l | set l => Checked.items checkText 0 l
  | _ => .fail .notSet

/-- Reads a text or nothing. -/
def checkText? : Data → Checked (Option Text)
  | null => .ok none
  | d => d.checkText.map some

/-- Reads the entries of a mapping from texts to texts. -/
def checkEntries : List (Data × Data) → Checked (List (Text × Text))
  | [] => .ok []
  | (k, v) :: rest =>
    let step := k.keyText
    let key := Checked.under step (Checked.under "[key]" k.checkText)
    let value := Checked.under step v.checkText
    (Checked.also (Checked.also key value) (checkEntries rest)).map fun (e, es) => e :: es

/-- Reads a mapping from texts to texts. -/
def checkTextMap : Data → Checked (List (Text × Text))
  | map entries => checkEntries entries
  | _ => .fail .notMapping

end Data

end Lineage
