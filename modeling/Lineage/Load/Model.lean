import Lineage.Declaration.Document
import Lineage.Declaration.OfDocument
import Lineage.Load.Blocks
import Lineage.Load.Error
import Lineage.Load.Files

/-!
# Loading models

A model is written as a declaration document or as a data document. The name of a file tells which
of the two it holds. Files are UTF-8, and every kind of newline in them counts as a line feed.

Two things that a data document leaves open are settled by the run that reads it: how deep
collections may stand inside each other, and in which order a set is listed where it stands for a
list.
-/

namespace Lineage

/-- Adds the path of the document to a complaint about one of its lines. -/
def LineFault.inFile (f : LineFault) (path : String) : LineFault :=
  { f with path := some path }

namespace Load

/-- What a run brings along for reading data documents. -/
structure Reader where
  /-- The number of collections that may enclose each other. Reading one inside another takes room
  for nested calls, of which the caller of the reader has left so much. -/
  room : Nat := 490
  sets : Yaml.SetOrder := .asWritten
deriving Inhabited

/-- The data document of a source, as the run lists its sets. -/
def document (source : Yaml.Source) (path : Option String) (reader : Reader := {}) :
    Except LoadError (Option Yaml.Document) :=
  match Yaml.Document.ofSource reader.room source with
  | .error .malformed => .error (.malformedData path)
  | .error .unreadable => .error .notText
  | .error fault => .error (.badValue fault)
  | .ok doc => .ok (doc.map (·.inOrder reader.sets))

/-- The entries of the mapping that a data document holds, with its collections; a document without
any value stands for the empty mapping. -/
def mapping (source : Yaml.Source) (path : Option String) (reader : Reader := {}) :
    Except LoadError (Array Yaml.Box × List (Data × Yaml.Ref)) := do
  match ← document source path reader with
  | none => .ok (#[], [])
  | some doc =>
    match doc.root with
    | .value .null => .ok (doc.boxes, [])
    | root =>
      match root.entries? doc.boxes with
      | some es => .ok (doc.boxes, es)
      | none => .error (.notAMapping (root.unfold doc.boxes 0).typeWord path)

/-- A model, or the complaints about its data. -/
def orInvalid : Checked Model → Except LoadError Model
  | .ok m => .ok m
  | .error faults => .error (.invalid faults)

/-- The model that data describe. -/
def modelOfData (d : Data) : Except LoadError Model :=
  orInvalid (Model.ofData d)

/-- The model of a declaration document. -/
def modelOfText (text : Text) : Except LoadError Model :=
  match Model.ofText text with
  | .ok m => .ok m
  | .error fault => .error (.line fault)

/-- The model of a data document. -/
def modelOfYaml (source : Yaml.Source) (path : Option String := none) (reader : Reader := {}) :
    Except LoadError Model := do
  let (boxes, es) ← mapping source path reader
  orInvalid (Model.ofEntries boxes es)

/-! ## Files -/

/-- The bytes of a file. -/
def fileBytes (path : String) : FileState → Except LoadError ByteArray
  | .missing => .error (.notFound path)
  | .folder => .error (.notAFile path)
  | .tooLong => .error .pathTooLong
  | .file bytes => .ok bytes

/-- The text of a file, with every newline written as a line feed. -/
def fileText (path : String) (state : FileState) : Except LoadError String := do
  match String.fromUTF8? (← fileBytes path state) with
  | some s => .ok (String.ofList (Text.unifyNewlines s.toList))
  | none => .error .notText

/-- The entries of the mapping that a data file holds, with its collections. -/
def mappingOfFile (path : Path) (state : FileState) (reader : Reader := {}) :
    Except LoadError (Array Yaml.Box × List (Data × Yaml.Ref)) := do
  mapping (sourceOfBytes (← fileBytes path.toString state)) (some path.toString) reader

/-- The model of a file that holds a declaration document. -/
def modelOfTextFile (path : Path) (state : FileState) : Except LoadError Model := do
  match Model.ofText (← fileText path.toString state) with
  | .ok m => .ok m
  | .error fault => .error (.line (fault.inFile path.toString))

/-- The model of a file that holds a data document. -/
def modelOfDataFile (path : Path) (state : FileState) (reader : Reader := {}) :
    Except LoadError Model := do
  modelOfYaml (sourceOfBytes (← fileBytes path.toString state)) (some path.toString) reader

/-- The model of a file; its name tells the kind of document. -/
def modelOfFile (path : Path) (state : FileState) (reader : Reader := {}) :
    Except LoadError Model :=
  if path.isData then modelOfDataFile path state reader else modelOfTextFile path state

end Load

end Lineage
