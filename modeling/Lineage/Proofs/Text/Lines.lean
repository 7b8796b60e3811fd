import Lineage.Text.Lines
import Mathlib.Data.List.TakeWhile

/-!
# The lines of a text

A text is a sequence of lines, each with a boundary behind it, but for the last line, which may have
none. There is only one way to read it so, because a carriage return and the line feed behind it
belong together: the lines of a text are the only lines it splits into (`splits_iff`). What becomes
of the lines when texts are joined or newlines are rewritten follows from how the new text splits
(`lines_append`, `lines_unifyNewlines`).
-/

namespace Lineage.Text

/-- What ends a line in front of the rest of a text: a carriage return together with a line feed,
or a single line break. -/
inductive Boundary : List CodePoint → List CodePoint → Prop
  | pair {rest : List CodePoint} : Boundary [.char '\r', .char '\n'] rest
  | single {c : CodePoint} {rest : List CodePoint} (isLineBreak : isLineBreak c = true)
      (unpaired : c = .char '\r' → rest.head? ≠ some (.char '\n')) : Boundary [c] rest

/-- The text consists of the lines. -/
inductive Splits : List CodePoint → List (List CodePoint) → Prop
  | nil : Splits [] []
  | last {line : List CodePoint} (nonempty : line ≠ [])
      (unbroken : ∀ c ∈ line, isLineBreak c = false) : Splits line [line]
  | cons {line boundary rest : List CodePoint} {ls : List (List CodePoint)}
      (unbroken : ∀ c ∈ line, isLineBreak c = false) (ended : Boundary boundary rest)
      (splits : Splits rest ls) : Splits (line ++ (boundary ++ rest)) (line :: ls)

theorem lines_of_ne_nil {cs : List CodePoint} (h : cs ≠ []) :
    lines cs = cs.takeWhile (!isLineBreak ·) ::
      lines (dropLineBreak (cs.dropWhile (!isLineBreak ·))) := by
  rw [lines, if_neg (by simpa using h)]

theorem lines_nil : lines [] = [] := by
  rw [lines]
  rfl

/-- A boundary starts with a line break, and all of it is dropped. -/
theorem Boundary.dropLineBreak {boundary rest : List CodePoint} (h : Boundary boundary rest) :
    (∃ c more, boundary ++ rest = c :: more ∧ isLineBreak c = true) ∧
      dropLineBreak (boundary ++ rest) = rest := by
  cases h with
  | pair => exact ⟨⟨.char '\r', .char '\n' :: rest, rfl, by decide⟩, rfl⟩
  | @single c _ hbreak hunpaired =>
    refine ⟨⟨c, rest, rfl, hbreak⟩, ?_⟩
    show Text.dropLineBreak (c :: rest) = rest
    unfold Text.dropLineBreak
    split
    · rename_i heq
      cases heq
      exact absurd rfl (hunpaired rfl)
    · rename_i heq
      cases heq
      rfl
    · rename_i heq
      cases heq

/-- What is dropped at a line break is a boundary. -/
theorem exists_boundary {c : CodePoint} (h : isLineBreak c = true) (cs : List CodePoint) :
    ∃ boundary, Boundary boundary (dropLineBreak (c :: cs)) ∧
      boundary ++ dropLineBreak (c :: cs) = c :: cs := by
  by_cases hpair : c = .char '\r' ∧ cs.head? = some (.char '\n')
  · obtain ⟨rfl, hhead⟩ := hpair
    cases cs with
    | nil => cases hhead
    | cons d cs =>
      cases hhead
      exact ⟨[.char '\r', .char '\n'], .pair, rfl⟩
  · have hunpaired : c = .char '\r' → cs.head? ≠ some (.char '\n') :=
      fun hc hhead => hpair ⟨hc, hhead⟩
    have hboundary : Boundary [c] cs := .single h hunpaired
    have hdrop : dropLineBreak (c :: cs) = cs := hboundary.dropLineBreak.2
    rw [hdrop]
    exact ⟨[c], hboundary, rfl⟩

/-- What a text splits into are its lines. -/
theorem Splits.eq_lines {cs : List CodePoint} {ls : List (List CodePoint)} (h : Splits cs ls) :
    ls = lines cs := by
  induction h with
  | nil => exact lines_nil.symm
  | @last line hne hline =>
    have hall : ∀ c ∈ line, (!isLineBreak c) = true := by simpa using hline
    rw [lines_of_ne_nil hne, List.takeWhile_eq_self_iff.2 hall, List.dropWhile_eq_nil_iff.2 hall]
    exact congrArg _ lines_nil.symm
  | @cons line boundary rest ls hline hboundary _ ih =>
    have hall : ∀ c ∈ line, (!isLineBreak c) = true := by simpa using hline
    obtain ⟨⟨c, more, hfront, hc⟩, hdrop⟩ := hboundary.dropLineBreak
    have hne : line ++ (boundary ++ rest) ≠ [] := by simp [hfront]
    -- the line goes up to the boundary, since that starts with a line break
    have htake : (boundary ++ rest).takeWhile (!isLineBreak ·) = [] := by simp [hfront, hc]
    have hstop : (boundary ++ rest).dropWhile (!isLineBreak ·) = boundary ++ rest := by
      simp [hfront, hc]
    rw [lines_of_ne_nil hne, List.takeWhile_append_of_pos hall, List.dropWhile_append_of_pos hall,
      htake, hstop, hdrop, List.append_nil, ih]

/-- A text splits into its lines. -/
theorem splits_lines (cs : List CodePoint) : Splits cs (lines cs) := by
  induction hn : cs.length using Nat.strongRecOn generalizing cs with
  | ind n ih =>
    by_cases hne : cs = []
    · rw [hne, lines_nil]
      exact .nil
    · have hunbroken : ∀ c ∈ cs.takeWhile (!isLineBreak ·), isLineBreak c = false := by
        intro c hc
        simpa using List.mem_takeWhile_imp hc
      have hsplit := List.takeWhile_append_dropWhile (p := (!isLineBreak ·)) (l := cs)
      rw [lines_of_ne_nil hne]
      cases hrest : cs.dropWhile (!isLineBreak ·) with
      | nil =>
        rw [hrest, List.append_nil] at hsplit
        rw [show dropLineBreak [] = [] from rfl, lines_nil, hsplit]
        rw [hsplit] at hunbroken
        exact .last hne hunbroken
      | cons c more =>
        have hc : isLineBreak c = true := by
          have hhead := List.head?_dropWhile_not (!isLineBreak ·) cs
          rw [hrest] at hhead
          simpa using hhead
        obtain ⟨boundary, hboundary, heq⟩ := exists_boundary hc more
        have hlength : (dropLineBreak (c :: more)).length < n := by
          have h₁ := length_dropLineBreak_le (c :: more)
          have h₂ := length_dropWhile_le (!isLineBreak ·) cs
          rw [hrest] at h₂
          simp only [List.length_cons] at h₁ h₂
          omega
        have hcs :
            cs.takeWhile (!isLineBreak ·) ++ (boundary ++ dropLineBreak (c :: more)) = cs := by
          rw [heq, ← hrest, hsplit]
        have hsplits := Splits.cons hunbroken hboundary (ih _ hlength _ rfl)
        rwa [hcs] at hsplits

/-- The lines of a text are the only ones that it splits into. -/
theorem splits_iff {cs : List CodePoint} {ls : List (List CodePoint)} :
    Splits cs ls ↔ ls = lines cs :=
  ⟨Splits.eq_lines, fun h => h ▸ splits_lines cs⟩

/-! ## Joined texts -/

/-- A line feed never waits for what follows it. -/
theorem Boundary.newline (rest : List CodePoint) : Boundary [.char '\n'] rest :=
  .single (by decide) fun h => absurd h (by decide)

/-- A boundary stays one in front of more text, unless that is a line feed behind a carriage
return. -/
theorem Boundary.append {boundary rest more : List CodePoint} (h : Boundary boundary rest)
    (hmore : rest = [] → boundary.getLast? = some (.char '\r') → more.head? ≠ some (.char '\n')) :
    Boundary boundary (rest ++ more) := by
  cases h with
  | pair => exact .pair
  | single hbreak hunpaired =>
    refine .single hbreak ?_
    rintro rfl
    cases rest with
    | nil => exact hmore rfl rfl
    | cons d rest => exact hunpaired rfl

/-- Behind a line feed a text goes on as it would alone. -/
theorem Splits.append {cs cs' : List CodePoint} {ls ls' : List (List CodePoint)}
    (h : Splits cs ls) (hend : cs.getLast? = some (.char '\n')) (h' : Splits cs' ls') :
    Splits (cs ++ cs') (ls ++ ls') := by
  induction h with
  | nil => cases hend
  | last _ hline =>
    exact absurd (hline (.char '\n') (List.mem_of_getLast? hend)) (by decide)
  | @cons line boundary rest ls hline hboundary hrest ih =>
    have hsplits : Splits (rest ++ cs') (ls ++ ls') := by
      cases rest with
      | nil =>
        rw [hrest.eq_lines, lines_nil]
        exact h'
      | cons c rest => exact ih (by simpa using hend)
    have hboundary' : Boundary boundary (rest ++ cs') := by
      refine hboundary.append fun hnil hreturn => ?_
      rw [hnil, List.append_nil, List.getLast?_append, hreturn] at hend
      cases hend
    rw [List.append_assoc, List.append_assoc, List.cons_append]
    exact .cons hline hboundary' hsplits

theorem splits_newline : Splits [.char '\n'] [[]] :=
  @Splits.cons [] [.char '\n'] [] [] (by simp) (.newline []) .nil

/-- A line feed at the end of a text ends its last line, or adds an empty one. It adds none if it
goes with a carriage return. -/
theorem Splits.concat_newline {cs : List CodePoint} {ls : List (List CodePoint)}
    (h : Splits cs ls) :
    Splits (cs ++ [.char '\n']) ls ∨ Splits (cs ++ [.char '\n']) (ls ++ [[]]) := by
  induction h with
  | nil => exact .inr splits_newline
  | last _ hline => exact .inl (.cons hline (.newline []) .nil)
  | @cons line boundary rest ls hline hboundary hrest ih =>
    rw [List.append_assoc, List.append_assoc]
    by_cases hnil : rest = [] ∧ boundary.getLast? = some (.char '\r')
    · -- the carriage return takes the line feed in
      obtain ⟨rfl, hreturn⟩ := hnil
      cases hboundary with
      | pair => cases hreturn
      | single _ _ =>
        obtain rfl := Option.some.inj hreturn
        exact .inl (@Splits.cons _ [.char '\r', .char '\n'] [] _ hline .pair hrest)
    · have hboundary' : Boundary boundary (rest ++ [.char '\n']) :=
        hboundary.append fun hrest' hreturn => absurd ⟨hrest', hreturn⟩ hnil
      exact ih.imp (.cons hline hboundary') (.cons hline hboundary')

/-- Lines are read on behind a line feed as from the start of a text. -/
theorem lines_append {cs : List CodePoint} (hend : cs.getLast? = some (.char '\n'))
    (cs' : List CodePoint) : lines (cs ++ cs') = lines cs ++ lines cs' :=
  ((splits_lines cs).append hend (splits_lines cs')).eq_lines.symm

/-- Two line feeds at the end of a text add an empty line, or two. -/
theorem exists_lines_append_blank (cs : List CodePoint) :
    ∃ n < 2, lines (cs ++ [.char '\n', .char '\n']) = lines cs ++ List.replicate (n + 1) [] := by
  have hempty : lines [.char '\n'] = [[]] := splits_newline.eq_lines.symm
  have hlast : lines (cs ++ [.char '\n', .char '\n']) = lines (cs ++ [.char '\n']) ++ [[]] := by
    rw [← hempty, ← lines_append List.getLast?_concat, List.append_assoc, List.singleton_append]
  rw [hlast]
  rcases (splits_lines cs).concat_newline with h | h
  · rw [← h.eq_lines]
    exact ⟨0, by omega, rfl⟩
  · rw [← h.eq_lines, List.append_assoc]
    exact ⟨1, by omega, rfl⟩

/-! ## Kinds of newlines -/

/-- Only a carriage return in front of a line feed goes with the character behind it. -/
theorem unifyNewlines_cons {c : Char} {cs : List Char} (h : c = '\r' → cs.head? ≠ some '\n') :
    unifyNewlines (c :: cs) = (if c = '\r' then '\n' else c) :: unifyNewlines cs := by
  rw [unifyNewlines.eq_3 _ _ fun _ hc hcs => h hc (by rw [hcs]; rfl)]
  simp

/-- Characters of a line stay as they are. -/
theorem unifyNewlines_append_of_unbroken {line : List Char}
    (h : ∀ c ∈ line, isLineBreak c = false) (cs : List Char) :
    unifyNewlines (line ++ cs) = line ++ unifyNewlines cs := by
  induction line with
  | nil => rfl
  | cons c line ih =>
    obtain ⟨hc, hline⟩ := List.forall_mem_cons.1 h
    have hreturn : c ≠ '\r' := by
      rintro rfl
      exact absurd hc (by decide)
    rw [List.cons_append, unifyNewlines_cons fun h => absurd h hreturn, if_neg hreturn, ih hline,
      List.cons_append]

/-- Where a boundary stood, there is still one. -/
theorem Boundary.unifyNewlines {boundary rest : List Char}
    (h : Boundary (boundary.map .char) (rest.map .char)) :
    ∃ boundary', Boundary boundary' ((unifyNewlines rest).map .char) ∧
      (Text.unifyNewlines (boundary ++ rest)).map .char =
        boundary' ++ (Text.unifyNewlines rest).map .char := by
  generalize hb : boundary.map CodePoint.char = b at h
  generalize hr : rest.map CodePoint.char = r at h
  cases h with
  | pair =>
    obtain ⟨c, d, rfl, ⟨⟩, ⟨⟩⟩ : ∃ c d, boundary = [c, d] ∧ CodePoint.char c = .char '\r' ∧
        CodePoint.char d = .char '\n' := by
      simpa [List.map_eq_cons_iff] using hb
    exact ⟨[.char '\n'], .newline _, rfl⟩
  | @single p _ hbreak hunpaired =>
    obtain ⟨c, rfl, rfl⟩ : ∃ c, boundary = [c] ∧ CodePoint.char c = p := by
      simpa [List.map_eq_cons_iff] using hb
    have hchars : c = '\r' → rest.head? ≠ some '\n' := by
      rintro rfl hhead
      refine hunpaired rfl ?_
      rw [← hr, List.head?_map, hhead]
      rfl
    have hfront := congrArg (List.map CodePoint.char) (unifyNewlines_cons hchars)
    by_cases hc : c = '\r'
    · rw [if_pos hc] at hfront
      exact ⟨[.char '\n'], .newline _, hfront⟩
    · rw [if_neg hc] at hfront
      exact ⟨[.char c], .single hbreak fun h => absurd (CodePoint.char.inj h) hc, hfront⟩

/-- Writing all newlines as line feeds keeps the lines. -/
theorem Splits.unifyNewlines {cs : List Char} {ls : List (List CodePoint)}
    (h : Splits (cs.map .char) ls) : Splits ((unifyNewlines cs).map .char) ls := by
  generalize hcs : cs.map CodePoint.char = ps at h
  induction h generalizing cs with
  | nil =>
    rw [List.map_eq_nil_iff.1 hcs]
    exact .nil
  | @last line hne hline =>
    have hchars : ∀ c ∈ cs, isLineBreak c = false := fun c hc =>
      hline c (hcs ▸ List.mem_map_of_mem hc)
    have hsame := unifyNewlines_append_of_unbroken hchars []
    rw [List.append_nil, show Text.unifyNewlines [] = [] from rfl, List.append_nil] at hsame
    rw [hsame, hcs]
    exact .last hne hline
  | cons hline hboundary _ ih =>
    obtain ⟨line, more, rfl, rfl, hmore⟩ := List.map_eq_append_iff.1 hcs
    obtain ⟨boundary, rest, rfl, rfl, rfl⟩ := List.map_eq_append_iff.1 hmore
    have hchars : ∀ c ∈ line, isLineBreak c = false := fun c hc =>
      hline c (List.mem_map_of_mem hc)
    obtain ⟨boundary', hboundary', hunified⟩ := hboundary.unifyNewlines
    rw [unifyNewlines_append_of_unbroken hchars, List.map_append, hunified]
    exact .cons hline hboundary' (ih rfl)

/-- The lines of a text do not depend on which newlines it is written with. -/
theorem lines_unifyNewlines (cs : List Char) :
    lines ((unifyNewlines cs).map .char) = lines (cs.map .char) :=
  (splits_lines _).unifyNewlines.eq_lines.symm

end Lineage.Text
