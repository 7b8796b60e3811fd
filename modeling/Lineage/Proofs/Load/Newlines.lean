import Lineage.Proofs.Load.Outcome
import Lineage.Proofs.Text.Lines

/-!
# Declaration documents in files

A text file is read with all its newlines written as line feeds. That leaves the lines as they are,
also where different kinds of newlines follow one another, and so a document means in a file what it
means as a text (`modelOfTextFile_toUTF8`).
-/

namespace Lineage

/-- A text has the same lines with all newlines written as line feeds. -/
theorem Text.lines_ofList_unifyNewlines (t : String) :
    lines (String.ofList (unifyNewlines t.toList) : Text).codePoints =
      lines (t : Text).codePoints := by
  unfold ofString ofChars
  rw [String.toList_ofList]
  exact lines_unifyNewlines t.toList

/-- A document means the same with all newlines written as line feeds. -/
theorem Model.ofText_unifyNewlines (t : String) :
    ofText (String.ofList (Text.unifyNewlines t.toList)) = ofText t := by
  unfold ofText
  rw [Text.lines_ofList_unifyNewlines]

namespace Load

theorem fromUTF8?_toUTF8 (t : String) : String.fromUTF8? t.toUTF8 = some t := by
  rw [String.toUTF8_eq_toByteArray, String.fromUTF8?, dif_pos t.isValidUTF8]
  rfl

/-- The file of a text holds it with all newlines written as line feeds. -/
theorem fileText_toUTF8 (path t : String) :
    fileText path (.file t.toUTF8) = .ok (String.ofList (Text.unifyNewlines t.toList)) := by
  rw [fileText_file, fromUTF8?_toUTF8]

/-- A file that holds the bytes of a text is read as the text is: both have the same lines, and the
model is the same, or the fault is, with the path of the file added. -/
theorem modelOfTextFile_toUTF8 (path : Path) (t : String) :
    Text.lines (String.ofList (Text.unifyNewlines t.toList) : Text).codePoints =
        Text.lines (t : Text).codePoints ∧
      modelOfTextFile path (.file t.toUTF8) =
        match Model.ofText t with
        | .ok m => .ok m
        | .error fault => .error (.line { fault with path := some path.toString }) := by
  refine ⟨Text.lines_ofList_unifyNewlines t, ?_⟩
  rw [← Model.ofText_unifyNewlines, modelOfTextFile, fileText_toUTF8]
  rfl

/-- Two carriage returns and a line feed are two newlines, and the second line is to blame. -/
example : modelOfTextFile ⟨"", ["a.txt"]⟩ (.file "class A\r\r\n?\u2028class B".toUTF8) =
    .error (.line
      (.report "Cannot parse declaration: '?'" (some 3) (some "?") (some "a.txt"))) := by
  decide +kernel

end Load

end Lineage
