import Lineage.Data.Checked
import Lineage.Declaration.Line
import Lineage.Yaml.Glyph

/-!
# Why a model cannot be loaded
-/

namespace Lineage

/-- Why a model cannot be loaded. -/
inductive LoadError where
  /-- There is nothing at the path. -/
  | notFound (path : String)
  /-- There is something else than a file at the path. -/
  | notAFile (path : String)
  /-- The data document breaks the rules of its format. -/
  | malformedData (path : Option String)
  /-- The data document holds a value of another type than a mapping. -/
  | notAMapping (typeWord : String) (path : Option String)
  /-- A line of the document is no declaration. -/
  | line (fault : LineFault)
  /-- The data describe no model. -/
  | invalid (faults : List DataFault)
  /-- The file is no text. -/
  | notText
  /-- The path is longer than paths may be. -/
  | pathTooLong
  /-- A scalar of the data document has no value. -/
  | badValue (fault : Yaml.Fault)
deriving DecidableEq, Repr

namespace LoadError

/-- The sentence that sums up complaints about data. -/
def invalidMessage (count : Nat) : String :=
  s!"Schema validation failed with {count} error(s)"

/-- The sentence that describes the error. -/
def message : LoadError → String
  | notFound path => s!"File not found: {path}"
  | notAFile path => s!"Not a file: {path}"
  | malformedData _ => "Invalid YAML"
  | notAMapping typeWord _ => s!"Expected YAML mapping at root, got {typeWord}"
  | line fault => fault.message
  | invalid faults => invalidMessage faults.length
  | notText => "The file is not valid UTF-8"
  | pathTooLong => "The path is too long"
  | badValue (.truthValue word) => word.escaped
  | badValue _ => "A value of the document cannot be read"

/-- The path that the error belongs to. -/
def path : LoadError → Option String
  | notFound path | notAFile path => some path
  | malformedData path | notAMapping _ path => path
  | line fault => fault.path
  | invalid _ | notText | pathTooLong | badValue _ => none

end LoadError

end Lineage
