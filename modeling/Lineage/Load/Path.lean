/-!
# Paths

A path is kept in a normal form: repeated slashes and single dots are dropped, while double dots
stay, since what they lead to depends on the files.
-/

namespace Lineage

/-- A path in normal form. -/
structure Path where
  /-- What the path starts from: nothing for the working directory, one or two slashes. -/
  lead : String
  parts : List String
deriving DecidableEq, Repr

namespace Path

/-- The parts of a path between slashes. -/
def split (s : String) : List String :=
  s.splitOn "/"

/-- Reads a path. Exactly two leading slashes are kept apart from one. -/
def ofString (s : String) : Path :=
  let slashes := (s.toList.takeWhile (· == '/')).length
  { lead := if slashes == 0 then "" else if slashes == 2 then "//" else "/"
    parts := (split s).filter fun p => p != "" && p != "." }

/-- The text of a path; the working directory itself is a dot. -/
def toString (p : Path) : String :=
  if p.lead.isEmpty && p.parts.isEmpty then "." else p.lead ++ "/".intercalate p.parts

/-- The last part of a path. -/
def name (p : Path) : String :=
  p.parts.getLast?.getD ""

/-- The text from the last dot of a name on, unless nothing stands before or behind the dot. -/
def suffixOf (name : List Char) : List Char :=
  let behind := (name.reverse.takeWhile (· != '.')).reverse
  let before := name.length - behind.length - 1
  if name.contains '.' && 0 < before && !behind.isEmpty then '.' :: behind else []

/-- Whether the name of the file says that it holds a data document. -/
def isData (p : Path) : Bool :=
  let suffix := (suffixOf p.name.toList).map Char.toLower
  suffix == ".yaml".toList || suffix == ".yml".toList

end Path

end Lineage
