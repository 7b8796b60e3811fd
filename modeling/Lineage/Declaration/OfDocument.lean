import Lineage.Declaration.OfData
import Lineage.Yaml.Document

/-!
# Declarations from documents

In a document a mapping can stand at several places. When it is read as a declaration its
shorthands are expanded in the mapping itself, so they are expanded at all its places from then
on, even where it stands inside the declaration that is being read.
-/

namespace Lineage

instance : Declaration.EntryValue Yaml.Ref where
  ofData := .value
  text?
    | .value (.text t) => some t
    | _ => none

namespace Declaration

/-- Reads the declaration that a value describes, and returns the collections as they are then.
A field is at most a collection of texts, so no more than one level of it is looked at. -/
def ofRef (boxes : Array Yaml.Box) : Yaml.Ref → Array Yaml.Box × Checked Declaration
  | .value d => (boxes, ofData d)
  | .box b =>
    match boxes.getD b default with
    | .map es =>
      let es := expand es
      let boxes := boxes.setIfInBounds b (.map es)
      (boxes, ofEntries (es.map fun (k, r) => (k, r.unfold boxes 1)))
    | _ => (boxes, .fail (.notRecord "Declaration"))

/-- Reads the declarations that several values describe, counted from the given number, one after
the other. -/
def ofRefs (boxes : Array Yaml.Box) : Nat → List Yaml.Ref → Checked (List Declaration)
  | _, [] => .ok []
  | n, r :: rs =>
    let (boxes, d) := ofRef boxes r
    (Checked.also (Checked.under (toString n) d) (ofRefs boxes (n + 1) rs)).map
      fun (d, ds) => d :: ds

end Declaration

/-- Reads a model from the entries of a document's mapping. -/
def Model.ofEntries (boxes : Array Yaml.Box) (es : List (Data × Yaml.Ref)) : Checked Model :=
  match Data.entry? "declarations" es with
  | none => .ok {}
  | some r => Checked.under "declarations" <|
    match r.items? boxes with
    | some rs => (Declaration.ofRefs boxes 0 rs).map fun ds => ⟨ds⟩
    | none => .fail .notList

end Lineage
