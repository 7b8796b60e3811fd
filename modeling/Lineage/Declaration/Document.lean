import Lineage.Declaration.Line
import Lineage.Text.Lines

/-!
# Declaration documents

A document is read line by line. A bracketed line names categories for the declarations below it,
up to the next blank line or the next bracketed line; lines that start with `#` are comments. The
first line that is none of these and no declaration ends the reading.
-/

namespace Lineage

namespace Document

/-- What a line is, before it is known to spell a declaration. -/
inductive LineForm where
  | blank
  | comment
  /-- A header with the categories it names. -/
  | header (categories : List Text)
  /-- Any other line, trimmed. -/
  | entry (text : List CodePoint)
deriving DecidableEq, Repr

/-- The categories of a header line, if the trimmed line is one. -/
def header? (text : List CodePoint) : Option (List Text) :=
  match text with
  | .char '[' :: tail =>
    if tail.dropWhile Line.isSignatureChar == [.char ']'] then
      some (nameSet ((Text.words (tail.takeWhile Line.isSignatureChar)).map fun w =>
        Text.caseFold ⟨w⟩))
    else none
  | _ => none

/-- The form of a line. -/
def lineForm (line : List CodePoint) : LineForm :=
  match Text.trim line with
  | [] => .blank
  | .char '#' :: _ => .comment
  | text =>
    match header? text with
    | some categories => .header categories
    | none => .entry text

/-- The declarations of the lines from the given number on, under the categories in force. -/
def readLines : Nat → List Text → List (List CodePoint) → Except LineFault (List Declaration)
  | _, _, [] => .ok []
  | number, categories, line :: rest =>
    match lineForm line with
    | .blank => readLines (number + 1) [] rest
    | .comment => readLines (number + 1) categories rest
    | .header new => readLines (number + 1) new rest
    | .entry text =>
      match Declaration.ofLine ⟨text⟩ categories (some number) with
      | .error fault => .error fault
      | .ok d =>
        match readLines (number + 1) categories rest with
        | .error fault => .error fault
        | .ok ds => .ok (d :: ds)

end Document

/-- Reads a whole document. -/
def Model.ofText (text : Text) : Except LineFault Model :=
  match Document.readLines 1 [] (Text.lines text.codePoints) with
  | .ok ds => .ok ⟨ds⟩
  | .error fault => .error fault

end Lineage
