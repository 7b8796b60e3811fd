import Lineage.Load.Path

/-!
# Files

What a path can lead to, and a tree of files in which paths are looked up.
-/

namespace Lineage

/-- What a path leads to. -/
inductive FileState where
  | missing
  | folder
  | file (bytes : ByteArray)
  /-- The path is longer than paths may be. -/
  | tooLong
deriving Inhabited

/-- The files and the folders below a working directory, by the parts of their paths. -/
structure FileTree where
  files : List (List String × ByteArray) := []
  folders : List (List String) := []
deriving Inhabited

namespace FileTree

/-- Whether the parts lead to a folder: it is listed, or something below it is. -/
def isFolder (t : FileTree) (parts : List String) : Bool :=
  parts.isEmpty || t.folders.any (parts.isPrefixOf ·)
    || t.files.any fun (f, _) => f != parts && parts.isPrefixOf f

/-- What the parts lead to. -/
def lookup (t : FileTree) (parts : List String) : FileState :=
  match t.files.lookup parts with
  | some bytes => .file bytes
  | none => if t.isFolder parts then .folder else .missing

/-- A folder that a path has reached so far. -/
inductive Position where
  /-- The parts below the working directory, the last one first. -/
  | inside (parts : List String)
  /-- So many levels above the working directory. -/
  | above (levels : Nat)

/-- The most bytes that one part of a path may have. -/
def longestPart : Nat :=
  255

/-- The most bytes that a path may have. -/
def longestPath : Nat :=
  4095

/-- Follows the parts of a path from a folder on. Nothing is known of what else lies above the
working directory. A part that is too long only counts once it is reached. -/
def follow (t : FileTree) : Position → List String → FileState
  | _, [] => .folder
  | pos, part :: rest =>
    if part == "" || part == "." then t.follow pos rest
    else if longestPart < part.utf8ByteSize then .tooLong
    else
      match pos, part == ".." with
      | .above n, true => t.follow (.above (n + 1)) rest
      | .above _, false => .missing
      | .inside [], true => t.follow (.above 1) rest
      | .inside (_ :: up), true => t.follow (.inside up) rest
      | .inside up, false =>
        match t.lookup (part :: up).reverse with
        | .folder => t.follow (.inside (part :: up)) rest
        | .file bytes => if rest.isEmpty then .file bytes else .missing
        | other => other

/-- What a path leads to. A path that is empty or holds a null character leads nowhere, and of what
lies outside the working directory only the root is known. -/
def state (t : FileTree) (path : String) : FileState :=
  if path.isEmpty || path.contains '\x00' then .missing
  else if longestPath < path.utf8ByteSize then .tooLong
  else if path.startsWith "/" then t.follow (.above 0) (Path.split path)
  else t.follow (.inside []) (Path.split path)

end FileTree

end Lineage
