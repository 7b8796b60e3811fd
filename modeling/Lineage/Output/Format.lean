/-!
# Output formats
-/

namespace Lineage

/-- The two formats in which results are written. -/
inductive Format where
  | text
  | json
deriving DecidableEq, Repr, Inhabited

namespace Format

/-- The word for a format. -/
def word : Format → String
  | text => "text"
  | json => "json"

/-- The format that a word asks for; any word but the one for JSON asks for text. -/
def ofWord (w : String) : Format :=
  if w == "json" then json else text

end Format

end Lineage
