import Lineage.Text.Basic

/-!
# JSON values

Objects keep their fields in order, because that order shows in the printed text, and whole
numbers are kept apart from real ones for the same reason.
-/

namespace Lineage

/-- A JSON value. -/
inductive Json where
  | null
  | bool (b : Bool)
  | int (i : Int)
  | real (x : Float)
  | text (t : Text)
  | list (items : List Json)
  | record (fields : List (Text × Json))
deriving Inhabited

namespace Json

/-- A list of texts. -/
def texts (l : List Text) : Json :=
  list (l.map text)

/-- A text, or null where there is none. -/
def text? : Option Text → Json
  | some t => text t
  | none => null

/-- Sets a field: a new one goes last, a known one keeps its place and takes the new value. -/
def put {α : Type} (key : Text) (value : α) : List (Text × α) → List (Text × α)
  | [] => [(key, value)]
  | (k, v) :: rest => if k == key then (k, value) :: rest else (k, v) :: put key value rest

/-- The fields that result from setting each in turn. -/
def fields {α : Type} (pairs : List (Text × α)) : List (Text × α) :=
  pairs.foldl (fun acc (k, v) => put k v acc) []

end Json

end Lineage
