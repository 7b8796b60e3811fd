import Lineage.Text.Basic

/-!
# Declarations

A declaration introduces one type by name and says what it inherits from and which roles it
composes. A model is the list of declarations of one document; a name may be declared several
times, and then the last declaration decides what kind of type it is.
-/

namespace Lineage

/-- What kind of type a declaration introduces. -/
inductive Kind where
  | ofClass
  | ofRole
  | ofModule
  | ofEnum
deriving DecidableEq, Repr, Inhabited

namespace Kind

/-- The word that declares a type of this kind. -/
def keyword : Kind → String
  | ofClass => "class"
  | ofRole => "role"
  | ofModule => "module"
  | ofEnum => "enum"

/-- Every kind, in the order in which the words are tried. -/
def all : List Kind :=
  [ofClass, ofRole, ofModule, ofEnum]

/-- The kind that a word declares. -/
def ofKeyword? (word : String) : Option Kind :=
  all.find? (·.keyword == word)

theorem ofKeyword?_keyword (k : Kind) : ofKeyword? k.keyword = some k := by
  cases k <;> decide +kernel

end Kind

/-! ## Sets of names -/

/-- Adds a name to an ascending list without repeats. -/
def insertName (name : Text) : List Text → List Text
  | [] => [name]
  | n :: rest =>
    if name < n then name :: n :: rest
    else if name == n then n :: rest
    else n :: insertName name rest

/-- The set of the given names, as an ascending list without repeats. -/
def nameSet (names : List Text) : List Text :=
  names.foldl (fun set name => insertName name set) []

/-! ## Declarations and models -/

/-- A single declared type and the edges it introduces. -/
structure Declaration where
  name : Text
  kind : Kind := .ofClass
  /-- The categories, as an ascending list without repeats. -/
  categories : List Text := []
  /-- The types it inherits from, in the order of its `is` clauses. -/
  parents : List Text := []
  /-- The roles it composes, in the order of its `does` clauses. -/
  roles : List Text := []
  /-- A bracketed signature, carried along but never interpreted. -/
  signature : Option Text := none
  /-- The signature given with each role that has one. -/
  roleSignatures : List (Text × Text) := []
deriving DecidableEq, Repr, Inhabited

/-- The declarations of one document, in order. -/
structure Model where
  declarations : List Declaration := []
deriving DecidableEq, Repr, Inhabited

namespace Model

/-- Every declaration of a name, in order. -/
def declarationsOf (m : Model) (name : Text) : List Declaration :=
  m.declarations.filter (·.name == name)

/-- The declared names in the order of their first declaration. -/
def declaredNames (m : Model) : List Text :=
  m.declarations.foldl
    (fun seen d => if seen.contains d.name then seen else seen ++ [d.name]) []

/-- The kind of a declared name: its last declaration decides. -/
def kindOf? (m : Model) (name : Text) : Option Kind :=
  (m.declarationsOf name).getLast?.map (·.kind)

end Model

end Lineage
