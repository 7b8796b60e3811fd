import Lineage.Declaration.Document
import Lineage.Proofs.Declaration.References
import Lineage.Proofs.Text.CaseFold
import Lineage.Proofs.Text.Lines
import Mathlib.Data.List.DropRight
import Mathlib.Data.List.Sort

/-!
# Documents line by line

A document is read from top to bottom, with the categories in force carried along. What comes out
can be said of each line on its own (`reading`): every line is of one of five sorts, whatever the
lines around it are, and the categories of a declaration are those of the nearest header above it
from which no blank line parts it. The first bad line is reported and decides the result alone.
-/

namespace Lineage

/-! ## Trimmed texts -/

namespace Text

theorem trim_eq (cs : List CodePoint) : trim cs = (cs.dropWhile isBlank).rdropWhile isBlank :=
  rfl

theorem trim_trim (cs : List CodePoint) : trim (trim cs) = trim cs := by
  have hstart : (trim cs).dropWhile isBlank = trim cs := by
    rw [List.dropWhile_eq_self_iff]
    intro hpos
    -- what is left starts as it did before its end was trimmed
    have hfront : trim cs <+: cs.dropWhile isBlank := List.rdropWhile_prefix isBlank _
    have hlength := Nat.lt_of_lt_of_le hpos hfront.length_le
    rw [hfront.getElem hpos]
    exact List.dropWhile_get_zero_not _ _ hlength
  rw [trim_eq (trim cs), hstart, trim_eq, List.rdropWhile_idempotent]

end Text

/-! ## Sets of names -/

theorem nameSet_eq_self {l : List Text} (h : l.Pairwise (· < ·)) : nameSet l = l :=
  (pairwise_nameSet l).eq_of_mem_iff h fun _ => mem_nameSet

namespace Document

/-! ## The sorts of lines -/

/-- What a line is. -/
inductive LineSort where
  | blank
  | comment
  /-- A line in brackets, with the text between them. -/
  | header (inner : List CodePoint)
  | declaration (d : Declaration)
  | bad

/-- The text between the brackets, if the whole text is in brackets and holds no others. -/
def bracketed? : List CodePoint → Option (List CodePoint)
  | .char '[' :: tail =>
    if tail.getLast? = some (.char ']') ∧ tail.dropLast.all Line.isSignatureChar then
      some tail.dropLast
    else none
  | _ => none

/-- The sort of a line: whether it is blank is looked at first, then the other sorts in turn. -/
def lineSort (line : List CodePoint) : LineSort :=
  let text := Text.trim line
  if text = [] then .blank
  else if text.head? = some (.char '#') then .comment
  else
    match bracketed? text with
    | some inner => .header inner
    | none =>
      match Declaration.ofLine ⟨line⟩ with
      | .ok d => .declaration d
      | .error _ => .bad

/-- The set of the words between the brackets of a header, without distinctions of case. -/
def categoriesOf (inner : List CodePoint) : List Text :=
  nameSet ((Text.words inner).map fun w => Text.caseFold ⟨w⟩)

def isBlank (line : List CodePoint) : Bool :=
  match lineSort line with
  | .blank => true
  | _ => false

def isBad (line : List CodePoint) : Bool :=
  match lineSort line with
  | .bad => true
  | _ => false

/-- The categories that a header names. -/
def named? (line : List CodePoint) : Option (List Text) :=
  match lineSort line with
  | .header inner => some (categoriesOf inner)
  | _ => none

/-- The categories below the given lines, of which the nearest comes first: those of the nearest
header, among the lines up to the nearest blank one. -/
def categoriesBelow (above : List (List CodePoint)) : List Text :=
  ((above.takeWhile (!isBlank ·)).findSome? named?).getD []

/-- The declaration on a line below the given ones, if there is one. -/
def declarationBelow? (above : List (List CodePoint)) (line : List CodePoint) :
    Option Declaration :=
  match lineSort line with
  | .declaration d => some { d with categories := categoriesBelow above }
  | _ => none

/-- The complaint about a bad line. -/
def fault (number : Nat) (line : List CodePoint) : LineFault :=
  let text : Text := ⟨Text.trim line⟩
  let place : Int := number
  let reason := s!"Cannot parse declaration: {text.quoted}"
  { message := s!"line {place}: {reason}", number := some place, source := some text }

/-- What a document of the given lines says: each declaration in turn, or the first bad line. -/
def reading (ls : List (List CodePoint)) : Except LineFault Model :=
  match ls.findIdx? isBad with
  | some k => .error (fault (k + 1) (ls.getD k []))
  | none => .ok ⟨(List.range ls.length).filterMap fun k =>
      declarationBelow? (ls.take k).reverse (ls.getD k [])⟩

/-! ## One line -/

theorem bracketed?_eq_some_iff {text inner : List CodePoint} :
    bracketed? text = some inner ↔
      text = CodePoint.char '[' :: inner ++ [.char ']'] ∧
        ∀ c ∈ inner, Line.isSignatureChar c = true := by
  unfold bracketed?
  split
  · rename_i tail
    rw [Option.ite_none_right_eq_some, Option.some_inj, List.all_eq_true]
    constructor
    · rintro ⟨⟨hlast, hinner⟩, rfl⟩
      exact ⟨by rw [List.cons_append, List.dropLast_append_getLast? _ hlast], hinner⟩
    · rintro ⟨htail, hinner⟩
      rw [List.cons_append, List.cons.injEq] at htail
      rw [htail.2, List.dropLast_concat]
      exact ⟨⟨List.getLast?_concat, hinner⟩, rfl⟩
  · rename_i hne
    simp only [reduceCtorEq, false_iff, not_and]
    intro htext
    exact absurd htext (hne _)

theorem header?_of_bracketed {inner : List CodePoint}
    (h : ∀ c ∈ inner, Line.isSignatureChar c = true) :
    header? (.char '[' :: (inner ++ [.char ']'])) = some (categoriesOf inner) := by
  have hdrop : (inner ++ [CodePoint.char ']']).dropWhile Line.isSignatureChar = [.char ']'] :=
    List.dropWhile_append_of_pos h
  have htake : (inner ++ [CodePoint.char ']']).takeWhile Line.isSignatureChar = inner :=
    (List.takeWhile_append_of_pos h).trans (List.append_nil inner)
  simp only [header?, hdrop, htake]
  rfl

theorem bracketed?_of_header? {text : List CodePoint} {categories : List Text}
    (h : header? text = some categories) : ∃ inner, bracketed? text = some inner := by
  unfold header? at h
  split at h
  · rename_i tail
    split at h
    · rename_i hdrop
      refine ⟨tail.takeWhile Line.isSignatureChar, bracketed?_eq_some_iff.2 ⟨?_, ?_⟩⟩
      · rw [List.cons_append, ← beq_iff_eq.1 hdrop, List.takeWhile_append_dropWhile]
      · exact fun c hc => List.mem_takeWhile_imp hc
    · cases h
  · cases h

/-- The text behind the first bracket that is no bracket is all up to the last one. -/
theorem header?_eq (text : List CodePoint) : header? text = (bracketed? text).map categoriesOf := by
  cases h : bracketed? text with
  | some inner =>
    obtain ⟨rfl, hinner⟩ := bracketed?_eq_some_iff.1 h
    exact header?_of_bracketed hinner
  | none =>
    cases hheader : header? text with
    | none => rfl
    | some categories =>
      obtain ⟨inner, hinner⟩ := bracketed?_of_header? hheader
      rw [h] at hinner
      cases hinner

theorem lineForm_eq (line : List CodePoint) :
    lineForm line =
      match lineSort line with
      | .blank => .blank
      | .comment => .comment
      | .header inner => .header (categoriesOf inner)
      | _ => .entry (Text.trim line) := by
  cases htext : Text.trim line with
  | nil => simp [lineForm, lineSort, htext]
  | cons c tail =>
    by_cases hc : c = .char '#'
    · simp [lineForm, lineSort, htext, hc]
    · cases hinner : bracketed? (c :: tail) with
      | some inner =>
        have hheader : header? (c :: tail) = some (categoriesOf inner) := by
          rw [header?_eq, hinner, Option.map_some]
        simp [lineForm, lineSort, htext, hc, hinner, hheader]
      | none =>
        have hheader : header? (c :: tail) = none := by
          rw [header?_eq, hinner, Option.map_none]
        cases hread : Declaration.ofLine ⟨line⟩ <;>
          simp [lineForm, lineSort, htext, hc, hinner, hheader, hread]

/-- A line that is none of the other sorts is read as a declaration. -/
theorem ofLine_of_lineSort {line : List CodePoint} :
    (∀ d, lineSort line = .declaration d → Declaration.ofLine ⟨line⟩ = .ok d) ∧
      (lineSort line = .bad → ∃ e, Declaration.ofLine ⟨line⟩ = .error e) := by
  unfold lineSort
  simp only
  split
  · simp
  · split
    · simp
    · split
      · simp
      · split
        · rename_i d hread
          simp [hread]
        · rename_i e hread
          simp [hread]

/-- A declaration gets the categories that it is read under. -/
theorem ofLine_trim_of_declaration {line : List CodePoint} {d : Declaration}
    (h : lineSort line = .declaration d) (categories : List Text) (number : Option Int) :
    Declaration.ofLine ⟨Text.trim line⟩ categories number =
      .ok { d with categories := nameSet (categories.map Text.caseFold) } := by
  have hread := ofLine_of_lineSort.1 d h
  simp only [Declaration.ofLine, Text.trim_trim] at hread ⊢
  cases hd : Line.declaration? (Text.trim line) with
  | some d' =>
    rw [hd] at hread
    cases hread
    rfl
  | none =>
    rw [hd] at hread
    cases hread

theorem ofLine_trim_of_bad {line : List CodePoint} (h : lineSort line = .bad)
    (categories : List Text) (number : Nat) :
    Declaration.ofLine ⟨Text.trim line⟩ categories (some number) =
      .error (fault number line) := by
  obtain ⟨e, hread⟩ := ofLine_of_lineSort.2 h
  simp only [Declaration.ofLine, Text.trim_trim] at hread ⊢
  cases hd : Line.declaration? (Text.trim line) with
  | some d' =>
    rw [hd] at hread
    cases hread
  | none => rfl

/-! ## The categories in force -/

theorem categoriesBelow_cons (line : List CodePoint) (above : List (List CodePoint)) :
    categoriesBelow (line :: above) =
      match lineSort line with
      | .blank => []
      | .header inner => categoriesOf inner
      | _ => categoriesBelow above := by
  unfold categoriesBelow
  cases h : lineSort line <;> simp [isBlank, named?, h]

/-- Categories in force have lost their distinctions of case, and losing them again makes no
difference. -/
theorem nameSet_caseFold_categoriesOf (inner : List CodePoint) :
    nameSet ((categoriesOf inner).map Text.caseFold) = categoriesOf inner := by
  have hfolded : (categoriesOf inner).map Text.caseFold = categoriesOf inner := by
    refine (List.map_congr_left fun t ht => ?_).trans (List.map_id _)
    obtain ⟨w, _, rfl⟩ := List.mem_map.1 (mem_nameSet.1 ht)
    exact Text.caseFold_caseFold _
  rw [hfolded]
  exact nameSet_eq_self (pairwise_nameSet _)

theorem nameSet_caseFold_categoriesBelow (above : List (List CodePoint)) :
    nameSet ((categoriesBelow above).map Text.caseFold) = categoriesBelow above := by
  induction above with
  | nil => rfl
  | cons line above ih =>
    rw [categoriesBelow_cons]
    cases lineSort line with
    | blank => rfl
    | header inner => exact nameSet_caseFold_categoriesOf inner
    | comment | declaration _ | bad => exact ih

/-! ## All lines -/

/-- One line is read: its sort decides what becomes of it. -/
theorem readLines_cons (number : Nat) (above : List (List CodePoint)) (line : List CodePoint)
    (rest : List (List CodePoint)) :
    readLines number (categoriesBelow above) (line :: rest) =
      match lineSort line with
      | .bad => .error (fault number line)
      | .declaration d =>
        (readLines (number + 1) (categoriesBelow (line :: above)) rest).map
          ({ d with categories := categoriesBelow above } :: ·)
      | _ => readLines (number + 1) (categoriesBelow (line :: above)) rest := by
  have hnext := categoriesBelow_cons line above
  have hform := lineForm_eq line
  cases hsort : lineSort line with
  | blank | comment | header _ =>
    simp only [hsort] at hnext hform ⊢
    simp only [readLines, hform, hnext]
  | declaration d =>
    simp only [hsort] at hnext hform ⊢
    simp only [readLines, hform, hnext, ofLine_trim_of_declaration hsort,
      nameSet_caseFold_categoriesBelow]
    cases readLines (number + 1) (categoriesBelow above) rest <;> rfl
  | bad =>
    simp only [hsort] at hnext hform ⊢
    simp only [readLines, hform, ofLine_trim_of_bad hsort]

/-- Lines below others are read as each of them says on its own. -/
theorem readLines_eq (above ls : List (List CodePoint)) :
    readLines (above.length + 1) (categoriesBelow above) ls =
      match ls.findIdx? isBad with
      | some k => .error (fault (above.length + (k + 1)) (ls.getD k []))
      | none => .ok ((List.range ls.length).filterMap fun k =>
          declarationBelow? ((ls.take k).reverse ++ above) (ls.getD k [])) := by
  induction ls generalizing above with
  | nil => rfl
  | cons line rest ih =>
    have hrest := ih (line :: above)
    rw [List.length_cons] at hrest
    rw [readLines_cons, hrest, List.findIdx?_cons, List.length_cons, List.range_succ_eq_map,
      List.filterMap_cons, List.filterMap_map]
    cases hsort : lineSort line with
    | bad =>
      have hbad : isBad line = true := by simp only [isBad, hsort]
      simp [hbad]
    | declaration d =>
      have hbad : isBad line = false := by simp only [isBad, hsort]
      have hhere : declarationBelow? above line =
          some { d with categories := categoriesBelow above } := by
        simp only [declarationBelow?, hsort]
      cases hfind : rest.findIdx? isBad with
      | some k => simp [hbad, Except.map, Nat.add_assoc, Nat.add_comm 1]
      | none => simp [hbad, hhere, Except.map]
    | blank | comment | header _ =>
      have hbad : isBad line = false := by simp only [isBad, hsort]
      have hhere : declarationBelow? above line = none := by simp only [declarationBelow?, hsort]
      cases hfind : rest.findIdx? isBad with
      | some k => simp [hbad, Nat.add_assoc, Nat.add_comm 1]
      | none => simp [hbad, hhere]

/-- A document says what its lines say one by one. A fault has the number of the first bad line, and
its text. -/
theorem ofText_eq (text : Text) :
    Text.Splits text.codePoints (Text.lines text.codePoints) ∧
      Model.ofText text = reading (Text.lines text.codePoints) ∧
      ∀ e, Model.ofText text = .error e →
        ∃ k line, (Text.lines text.codePoints).findIdx? isBad = some k ∧
          (Text.lines text.codePoints)[k]? = some line ∧
          e.number = some ((k : Int) + 1) ∧ e.source = some ⟨Text.trim line⟩ := by
  have hlines := readLines_eq [] (Text.lines text.codePoints)
  have hnone : categoriesBelow [] = [] := rfl
  simp only [List.length_nil, Nat.zero_add, List.append_nil, hnone] at hlines
  have hreading : Model.ofText text = reading (Text.lines text.codePoints) := by
    unfold Model.ofText reading
    rw [hlines]
    cases (Text.lines text.codePoints).findIdx? isBad <;> rfl
  refine ⟨Text.splits_lines _, hreading, fun e he => ?_⟩
  rw [hreading, reading] at he
  cases hfind : (Text.lines text.codePoints).findIdx? isBad with
  | none =>
    rw [hfind] at he
    cases he
  | some k =>
    rw [hfind] at he
    cases he
    obtain ⟨hk, -⟩ := List.findIdx?_eq_some_iff_getElem.1 hfind
    have hline := List.getElem?_eq_getElem hk
    refine ⟨k, _, rfl, hline, rfl, ?_⟩
    rw [fault, List.getD_eq_getElem?_getD, hline, Option.getD_some]

end Document

end Lineage
