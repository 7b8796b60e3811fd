import Mathlib
import Lineage.Proofs.Declaration.Document

/-!
# Documents one below the other

The lines of a document are read on with two things carried along: the number of the line and the
categories in force (`readLines_append`). A blank line takes the categories back, so what stands
below it is read as it would be alone, up to the numbers of the lines (`readLines_below_blank`). Two
line feeds always leave a blank line behind, whatever the text in front of them ends with. So
documents can be put one below the other with two line feeds between them (`ofText_append_blank`).
-/

namespace Lineage.Document

/-- Lines are read on where those in front of them have been read without a fault. -/
theorem readLines_append (number : Nat) (above ls ls' : List (List CodePoint)) :
    readLines number (categoriesBelow above) (ls ++ ls') =
      (readLines number (categoriesBelow above) ls).bind fun ds =>
        (readLines (number + ls.length) (categoriesBelow (ls.reverse ++ above)) ls').map
          (ds ++ ·) := by
  induction ls generalizing number above with
  | nil =>
    show readLines number (categoriesBelow above) ls' =
      (readLines number (categoriesBelow above) ls').map ([] ++ ·)
    cases readLines number (categoriesBelow above) ls' <;> rfl
  | cons line ls ih =>
    have hrest := ih (number + 1) (line :: above)
    have hnumber : number + 1 + ls.length = number + (line :: ls).length := by
      rw [List.length_cons]
      omega
    have habove : ls.reverse ++ line :: above = (line :: ls).reverse ++ above := by
      rw [List.reverse_cons, List.append_assoc, List.singleton_append]
    rw [hnumber, habove] at hrest
    rw [List.cons_append, readLines_cons, readLines_cons, hrest]
    cases lineSort line with
    | bad => rfl
    | blank | comment | header _ => rfl
    | declaration d =>
      cases readLines (number + 1) (categoriesBelow (line :: above)) ls with
      | error e => rfl
      | ok ds =>
        show Except.map _ (Except.map _ _) = Except.map _ _
        cases readLines (number + (line :: ls).length)
          (categoriesBelow ((line :: ls).reverse ++ above)) ls' <;> rfl

/-- No category is in force below a blank line but those named since. -/
theorem categoriesBelow_append_blank {blank : List CodePoint} (h : lineSort blank = .blank)
    (ls above : List (List CodePoint)) :
    categoriesBelow (ls ++ blank :: above) = categoriesBelow ls := by
  induction ls with
  | nil =>
    rw [List.nil_append, categoriesBelow_cons, h]
    rfl
  | cons line ls ih => rw [List.cons_append, categoriesBelow_cons, categoriesBelow_cons, ih]

theorem declarationBelow?_append_blank {blank : List CodePoint} (h : lineSort blank = .blank)
    (ls above : List (List CodePoint)) (line : List CodePoint) :
    declarationBelow? (ls ++ blank :: above) line = declarationBelow? ls line := by
  unfold declarationBelow?
  rw [categoriesBelow_append_blank h]

/-- Below a blank line, lines are read as they are alone, but for their numbers. -/
theorem readLines_below_blank {blank : List CodePoint} (h : lineSort blank = .blank)
    (above ls : List (List CodePoint)) :
    (∀ ds, readLines 1 [] ls = .ok ds →
        readLines ((blank :: above).length + 1) (categoriesBelow (blank :: above)) ls = .ok ds) ∧
      ∀ e, readLines 1 [] ls = .error e → ∃ k line, e = fault k line ∧
        readLines ((blank :: above).length + 1) (categoriesBelow (blank :: above)) ls =
          .error (fault (k + (blank :: above).length) line) := by
  have halone := readLines_eq [] ls
  have hbelow := readLines_eq (blank :: above) ls
  have hnone : categoriesBelow [] = [] := rfl
  simp only [declarationBelow?_append_blank h] at hbelow
  simp only [List.length_nil, Nat.zero_add, hnone, List.append_nil] at halone
  rw [halone, hbelow]
  cases ls.findIdx? isBad with
  | none =>
    refine ⟨fun _ hds => hds, ?_⟩
    rintro _ ⟨⟩
  | some k =>
    refine ⟨?_, ?_⟩
    · rintro _ ⟨⟩
    · rintro _ ⟨⟩
      exact ⟨k + 1, ls.getD k [], rfl, by rw [Nat.add_comm]⟩

theorem readLines_replicate_blank (number : Nat) (categories : List Text) (n : Nat) :
    readLines number categories (List.replicate n []) = .ok [] := by
  induction n generalizing number categories with
  | zero => rfl
  | succ n ih => exact ih (number + 1) []

/-- Lines below others and some blank lines are read when those have been read without a fault. -/
theorem readLines_append_blank (ls ls' : List (List CodePoint)) (n : Nat) :
    readLines 1 [] (ls ++ List.replicate (n + 1) [] ++ ls') =
      (readLines 1 [] ls).bind fun ds =>
        (readLines (([] :: (ls ++ List.replicate n []).reverse).length + 1)
          (categoriesBelow ([] :: (ls ++ List.replicate n []).reverse)) ls').map (ds ++ ·) := by
  have hupper : readLines 1 [] (ls ++ List.replicate (n + 1) []) = readLines 1 [] ls := by
    have happend := readLines_append 1 [] ls (List.replicate (n + 1) [])
    simp only [readLines_replicate_blank] at happend
    refine happend.trans ?_
    show (readLines 1 [] ls).bind _ = _
    cases readLines 1 [] ls with
    | error e => rfl
    | ok ds =>
      show Except.ok (ds ++ []) = _
      rw [List.append_nil]
  have hall := readLines_append 1 [] (ls ++ List.replicate (n + 1) []) ls'
  have hreverse : (ls ++ List.replicate (n + 1) ([] : List CodePoint)).reverse ++ [] =
      [] :: (ls ++ List.replicate n []).reverse := by
    rw [List.replicate_succ', ← List.append_assoc, List.reverse_append, List.append_nil]
    rfl
  have hlength : 1 + (ls ++ List.replicate (n + 1) ([] : List CodePoint)).length =
      ([] :: (ls ++ List.replicate n ([] : List CodePoint)).reverse).length + 1 := by
    rw [← hreverse, List.append_nil, List.length_reverse, Nat.add_comm]
  rw [hreverse, hlength] at hall
  refine hall.trans ?_
  show (readLines 1 [] _).bind _ = _
  rw [hupper]

theorem ofText_eq_map (text : Text) :
    Model.ofText text = (readLines 1 [] (Text.lines text.codePoints)).map Model.mk := by
  unfold Model.ofText
  cases readLines 1 [] (Text.lines text.codePoints) <;> rfl

/-- Two documents can be put one below the other with two line feeds between them, whatever the
upper one ends with. The upper one is read as it is alone, and its fault is the fault of both. If it
has none, then the lower one is read as it is alone as well, under its own categories only, and a
fault of it is reported for the same line, which stands below all lines of the upper part. -/
theorem ofText_append_blank (s t : Text) :
    (∀ m m', Model.ofText s = .ok m → Model.ofText t = .ok m' →
        Model.ofText (s ++ "\n\n" ++ t) = .ok ⟨m.declarations ++ m'.declarations⟩) ∧
      (∀ e, Model.ofText s = .error e → Model.ofText (s ++ "\n\n" ++ t) = .error e) ∧
      ∀ m e, Model.ofText s = .ok m → Model.ofText t = .error e →
        ∃ k line, e = fault k line ∧ e.number = some (k : Int) ∧
          ∃ e', Model.ofText (s ++ "\n\n" ++ t) = .error e' ∧
            e' = fault (k + (Text.lines (s ++ "\n\n").codePoints).length) line ∧
            e'.number = some ((k + (Text.lines (s ++ "\n\n").codePoints).length : Nat) : Int) ∧
            e'.source = e.source := by
  obtain ⟨n, -, hblank⟩ := Text.exists_lines_append_blank s.codePoints
  have hends : (s.codePoints ++ [CodePoint.char '\n', .char '\n']).getLast? =
      some (.char '\n') := by simp
  have hupper : (s ++ "\n\n").codePoints = s.codePoints ++ [.char '\n', .char '\n'] := rfl
  have hlines : Text.lines (s ++ "\n\n" ++ t).codePoints =
      Text.lines s.codePoints ++ List.replicate (n + 1) [] ++ Text.lines t.codePoints := by
    rw [show (s ++ "\n\n" ++ t).codePoints = (s ++ "\n\n").codePoints ++ t.codePoints from rfl,
      hupper, Text.lines_append hends, hblank]
  have hlength : (Text.lines (s ++ "\n\n").codePoints).length =
      ([] :: (Text.lines s.codePoints ++
        List.replicate n ([] : List CodePoint)).reverse).length := by
    rw [hupper, hblank]
    simp
    omega
  have hempty : lineSort [] = .blank := rfl
  obtain ⟨hok, herror⟩ := readLines_below_blank hempty
    (Text.lines s.codePoints ++ List.replicate n []).reverse (Text.lines t.codePoints)
  rw [hlength]
  simp only [ofText_eq_map, hlines, readLines_append_blank]
  cases readLines 1 [] (Text.lines s.codePoints) with
  | error e =>
    refine ⟨?_, fun _ he => he, ?_⟩
    · rintro _ _ ⟨⟩
    · rintro _ _ ⟨⟩
  | ok ds =>
    cases hread : readLines 1 [] (Text.lines t.codePoints) with
    | ok ds' =>
      refine ⟨?_, ?_, ?_⟩
      · rintro _ _ ⟨⟩ ⟨⟩
        show ((readLines _ _ _).map (ds ++ ·)).map Model.mk = _
        rw [hok ds' hread]
        rfl
      · rintro _ ⟨⟩
      · rintro _ _ _ ⟨⟩
    | error e =>
      obtain ⟨k, line, he, hbelow⟩ := herror e hread
      refine ⟨?_, ?_, ?_⟩
      · rintro _ _ _ ⟨⟩
      · rintro _ ⟨⟩
      · rintro _ _ _ ⟨⟩
        refine ⟨k, line, he, by rw [he]; rfl, _, ?_, rfl, rfl, by rw [he]; rfl⟩
        show ((readLines _ _ _).map (ds ++ ·)).map Model.mk = _
        rw [hbelow]
        rfl

/-- The upper document ends in a header and a carriage return, which the first line feed goes with.
The lower one has none of the categories, and its second line is the fifth one of both. -/
theorem ofText_append_blank_open_header :
    Model.ofText "class A\n[ X ]\r" = .ok ⟨[{ name := "A" }]⟩ ∧
      Model.ofText "class B" = .ok ⟨[{ name := "B" }]⟩ ∧
      Model.ofText (("class A\n[ X ]\r" : Text) ++ "\n\n" ++ "class B") =
        .ok ⟨[{ name := "A" }, { name := "B" }]⟩ ∧
      Model.ofText "class B\nclass" = .error (fault 2 ("class" : Text).codePoints) ∧
      Model.ofText (("class A\n[ X ]\r" : Text) ++ "\n\n" ++ "class B\nclass") =
        .error (fault 5 ("class" : Text).codePoints) := by
  have hupper : Model.ofText "class A\n[ X ]\r" = .ok ⟨[{ name := "A" }]⟩ := by
    decide +kernel
  have hlower : Model.ofText "class B" = .ok ⟨[{ name := "B" }]⟩ := by cbv
  have hbad : Model.ofText "class B\nclass" = .error (fault 2 ("class" : Text).codePoints) := by
    decide +kernel
  have hlines : (Text.lines (("class A\n[ X ]\r" : Text) ++ "\n\n").codePoints).length = 3 := by
    cbv
  obtain ⟨hok, -, -⟩ := ofText_append_blank "class A\n[ X ]\r" "class B"
  obtain ⟨-, -, hfault⟩ := ofText_append_blank "class A\n[ X ]\r" "class B\nclass"
  obtain ⟨k, line, he, hnumber, e, hjoined, hmoved, -, -⟩ := hfault _ _ hupper hbad
  have hk : k = 2 := by
    have htwo : (2 : Int) = k := Option.some.inj hnumber
    omega
  have hline : Text.trim ("class" : Text).codePoints = Text.trim line :=
    congrArg Text.codePoints (Option.some.inj (congrArg LineFault.source he))
  refine ⟨hupper, hlower, hok _ _ hupper hlower, hbad, ?_⟩
  rw [hjoined, hmoved, hlines, hk, fault, ← hline]
  rfl

end Lineage.Document
