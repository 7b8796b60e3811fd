import Mathlib.Data.List.TakeWhile
import Lineage.Decimal.Read
import Lineage.Yaml.Scalar
import Lineage.Proofs.Meets

/-!
# What readers of characters leave behind

Every reader of a part of a document leaves a rest of the characters that it was given, and where it
stops for another fault than one of syntax, the fault shows in these characters: they hold an escape
that names no code point, or the version of a directive has too many digits (`Misspelled`). Both
facts are kept together in `Reads`, one lemma for each reader.
-/

namespace Lineage.Yaml

/-! ## Causes in the characters -/

/-- Why characters spell no value: among them is an escape for no code point, or the word of a
version directive and the digits of too long a number. -/
inductive Misspelled (cs : List Char) : Fault → Prop
  | escape {letter : Char} {digits : List Char} {f : Fault}
      (found : '\\' :: letter :: digits <:+: cs) (width : escapeWidth? letter = some digits.length)
      (hex : ∀ c ∈ digits, isHexDigit c = true)
      (refused : escapedPoint (hexNumber digits) = .error f) : Misspelled cs f
  | number {digits : List Char} (directive : "YAML".toList <:+: cs) (found : digits <:+: cs)
      (decimal : ∀ c ∈ digits, c.isDigit = true)
      (long : Decimal.digitLimit < digits.length) : Misspelled cs .number

/-- A cause in a part of the characters is one in all of them. -/
theorem Misspelled.mono {cs ds : List Char} {f : Fault} (h : Misspelled cs f)
    (hin : cs <:+: ds) : Misspelled ds f := by
  cases h with
  | escape found width hex refused => exact .escape (found.trans hin) width hex refused
  | number directive found decimal long =>
    exact .number (directive.trans hin) (found.trans hin) decimal long

/-- The reading may stop there for a fault of syntax, at the cut, or for a cause in the
characters. -/
def Stop.Explained (cs : List Char) : Stop → Prop
  | .cutOff => True
  | .fault f => f = .malformed ∨ Misspelled cs f

/-- The characters of a rest stand among all of them. -/
theorem infix_chars {gs rest : List Glyph} (h : rest <:+ gs) : chars rest <:+: chars gs :=
  (h.map _).isInfix

/-- What explains a stop in a rest explains it in the whole. -/
theorem Stop.Explained.of_suffix {gs rest : List Glyph} {stop : Stop}
    (h : stop.Explained (chars rest)) (hrest : rest <:+ gs) : stop.Explained (chars gs) := by
  cases stop with
  | cutOff => trivial
  | fault f => exact h.imp_right fun hf => hf.mono (infix_chars hrest)

/-! ## Outcomes of a reading -/

/-- A reading of the characters gives something with the property, or stops for a reason. -/
abbrev Scans {α : Type} (gs : List Glyph) (P : α → Prop) (x : Scan α) : Prop :=
  Meets (Stop.Explained (chars gs)) P x

/-- A reading of the characters leaves a rest of them, or stops for a reason. -/
abbrev Reads {α : Type} (gs : List Glyph) (x : Scan (α × List Glyph)) : Prop :=
  Scans gs (fun p => p.2 <:+ gs) x

variable {α β : Type} {gs rest : List Glyph} {P : α → Prop}

/-- A reading of a rest is one of the whole. -/
theorem Scans.of_suffix {P' : α → Prop} {x : Scan α} (hx : Scans rest P x) (hrest : rest <:+ gs)
    (hP : ∀ a, P a → P' a) : Scans gs P' x :=
  hx.mono (fun _ h => h.of_suffix hrest) hP

/-- What reads a rest of some characters also reads these. -/
theorem Reads.within {x : Scan (α × List Glyph)} (hrest : rest <:+ gs) (hx : Reads rest x) :
    Reads gs x :=
  Scans.of_suffix hx hrest fun _ h => h.trans hrest

/-- Reads on where another reading has stopped. -/
theorem Reads.bind {x : Scan (α × List Glyph)} {f : α × List Glyph → Scan (β × List Glyph)}
    (hx : Reads gs x) (hf : ∀ a rest, Reads rest (f (a, rest))) : Reads gs (x >>= f) :=
  Meets.bind hx fun p hp => (hf p.1 p.2).within hp

/-- To stop without a fault of its own is a fault of syntax, or the cut. -/
theorem scans_stopAt (gs rest : List Glyph) (P : α → Prop) :
    Scans gs P (stopAt rest : Scan α) := by
  unfold stopAt
  cases rest with
  | nil => trivial
  | cons g rest => exact .inl rfl

/-- To stop for a fault with a cause in the characters is allowed. -/
theorem scans_stopAt_of_misspelled {f : Fault} (P : α → Prop) (h : Misspelled (chars gs) f) :
    Scans gs P (stopAt rest f : Scan α) := by
  unfold stopAt
  cases rest with
  | nil => trivial
  | cons g rest => exact .inr h

/-- Looking ahead stops at the cut only. -/
theorem scans_look (gs rest : List Glyph) (n : Nat) : Scans gs (fun _ => True) (look n rest) := by
  unfold look
  split <;> trivial

/-! ## Cutting off -/

theorem takeRun_suffix (p : Char → Bool) (gs : List Glyph) : (takeRun p gs).2 <:+ gs :=
  List.dropWhile_suffix _

theorem skipSpaces_suffix (gs : List Glyph) : skipSpaces gs <:+ gs :=
  List.dropWhile_suffix _

theorem skipComment_suffix (gs : List Glyph) : skipComment gs <:+ gs := by
  unfold skipComment
  split
  · exact List.dropWhile_suffix _
  · exact List.suffix_rfl

theorem takeBreak_suffix (gs : List Glyph) : (takeBreak gs).2 <:+ gs := by
  unfold takeBreak
  dsimp only
  split
  · exact List.drop_suffix ..
  · split
    · exact List.drop_suffix ..
    · split
      · exact List.drop_suffix ..
      · exact List.suffix_rfl

/-- The characters of a run stand among the given ones. -/
theorem infix_takeRun (p : Char → Bool) (gs : List Glyph) : (takeRun p gs).1 <:+: chars gs :=
  ((List.takeWhile_prefix _).map _).isInfix

/-- A run holds characters of its class only. -/
theorem takeRun_all (p : Char → Bool) (gs : List Glyph) : ∀ c ∈ (takeRun p gs).1, p c = true := by
  intro c hc
  obtain ⟨g, hg, rfl⟩ := List.mem_map.1 hc
  exact List.mem_takeWhile_imp (p := fun g : Glyph => p g.char) hg

/-! ## Quoted scalars -/

/-- A document marker inside quotes is a fault of syntax. -/
theorem reads_quotedBreaks (fuel : Nat) (gs : List Glyph) : Reads gs (quotedBreaks fuel gs) := by
  induction fuel generalizing gs with
  | zero => exact scans_stopAt ..
  | succ fuel ih =>
    unfold quotedBreaks
    refine (scans_look ..).bind fun _ _ => ?_
    split
    · exact scans_stopAt ..
    · have hblanks : gs.dropWhile (fun g => g.char == ' ' || g.char == '\t') <:+ gs :=
        List.dropWhile_suffix _
      dsimp only
      split
      · refine Reads.within ((takeBreak_suffix _).trans hblanks) ?_
        exact Reads.bind (ih _) fun _ _ => List.suffix_rfl
      · exact hblanks

/-- White space inside quotes ends at a character that is none. -/
theorem reads_quotedSpaces (bound : Nat) (gs : List Glyph) : Reads gs (quotedSpaces bound gs) := by
  unfold quotedSpaces
  have hblanks := takeRun_suffix (fun c => c == ' ' || c == '\t') gs
  dsimp only
  split
  · exact scans_stopAt ..
  · split
    · refine Reads.within ((takeBreak_suffix _).trans hblanks) ?_
      exact Reads.bind (reads_quotedBreaks ..) fun _ _ => List.suffix_rfl
    · exact hblanks

/-- A character that is seen is there, unless it is the one that stands for the end. -/
theorem exists_cons_of_peek {gs : List Glyph} {c : Char} (h : peek gs = c) (hc : c ≠ '\x00') :
    ∃ g rest, gs = g :: rest ∧ g.char = c := by
  cases gs with
  | nil => exact absurd h.symm hc
  | cons g rest => exact ⟨g, rest, rfl, h⟩

/-- An escape whose digits are all there but name no code point is a cause in the characters. -/
theorem reads_escapedNumber {gs : List Glyph} {letter : Char} {width : Nat}
    (hslash : peek gs = '\\') (hletter : peek gs 1 = letter)
    (hwidth : escapeWidth? letter = some width) :
    Reads gs (escapedNumber width (gs.drop 2)) := by
  have hshown : letter ≠ '\x00' := by
    rintro rfl
    cases hwidth
  obtain ⟨g, rest, rfl, hg⟩ := exists_cons_of_peek hslash (by decide)
  obtain ⟨g', rest, rfl, hg'⟩ := exists_cons_of_peek hletter hshown
  unfold escapedNumber
  extract_lets digits
  have hdigits : digits <+: chars rest :=
    ((List.takeWhile_prefix _).trans (List.take_prefix ..)).map _
  split
  · exact scans_stopAt ..
  · rename_i hlong
    split
    · exact (List.drop_suffix ..).trans (List.drop_suffix 2 (g :: g' :: rest))
    · rename_i f hf
      have hlength : digits.length ≤ width := by
        unfold digits chars
        rw [List.length_map]
        exact (List.takeWhile_prefix _).length_le.trans (List.length_take_le ..)
      have hstart : '\\' :: letter :: digits <+: g.char :: g'.char :: chars rest := by
        rw [hg, hg']
        exact (List.prefix_cons_inj _).2 ((List.prefix_cons_inj _).2 hdigits)
      refine scans_stopAt_of_misspelled _ (.escape hstart.isInfix ?_ ?_ hf)
      · rw [hwidth, Nat.le_antisymm hlength (Nat.not_lt.1 hlong)]
      · intro c hc
        obtain ⟨g, hg, rfl⟩ := List.mem_map.1 hc
        exact List.mem_takeWhile_imp (p := fun g : Glyph => isHexDigit g.char) hg

/-- A run inside quotes takes its escapes and folds its line breaks. -/
theorem reads_quotedRun (double : Bool) (fuel : Nat) (text : List CodePoint) (gs : List Glyph) :
    Reads gs (quotedRun double fuel text gs) := by
  induction fuel generalizing text gs with
  | zero => exact scans_stopAt ..
  | succ fuel ih =>
    have hdrop (n : Nat) (text : List CodePoint) :
        Reads gs (quotedRun double fuel text (gs.drop n)) :=
      (ih ..).within (List.drop_suffix ..)
    unfold quotedRun
    dsimp only
    split
    · exact List.suffix_rfl
    · split
      · split
        · exact hdrop ..
        · split
          · exact hdrop ..
          · exact List.suffix_rfl
      · split
        · split
          · exact List.suffix_rfl
          · exact hdrop ..
        · split
          · rename_i hescape
            have hslash : peek gs = '\\' := by simpa using (Bool.and_eq_true_iff.1 hescape).1
            split
            · exact hdrop ..
            · rename_i width _ hwidth
              exact Reads.bind (reads_escapedNumber hslash rfl hwidth) fun _ _ => ih ..
            · split
              · refine Reads.within ((takeBreak_suffix _).trans (List.drop_suffix 1 gs)) ?_
                exact Reads.bind (reads_quotedBreaks ..) fun _ _ => ih ..
              · exact scans_stopAt ..
          · exact hdrop ..

/-- Runs and white space take turns up to the closing quote. -/
theorem reads_quotedRest (double : Bool) (fuel : Nat) (text : List CodePoint) (gs : List Glyph) :
    Reads gs (quotedRest double fuel text gs) := by
  induction fuel generalizing text gs with
  | zero => exact scans_stopAt ..
  | succ fuel ih =>
    unfold quotedRest
    refine Meets.ite (fun _ => List.drop_suffix ..) fun _ => ?_
    exact Reads.bind (reads_quotedSpaces ..) fun _ _ =>
      Reads.bind (reads_quotedRun ..) fun _ _ => ih ..

theorem reads_quotedScalar (bound : Nat) (gs : List Glyph) : Reads gs (quotedScalar bound gs) :=
  Reads.within (List.drop_suffix ..) <|
    Reads.bind (reads_quotedRun ..) fun _ _ => reads_quotedRest ..

/-! ## Plain scalars -/

/-- A run of a plain scalar stops before the character that it cannot hold. -/
theorem plainRun_suffix (flow : Bool) (text : List Char) (gs : List Glyph) :
    (plainRun flow text gs).2 <:+ gs := by
  induction gs generalizing text with
  | nil => exact List.suffix_rfl
  | cons g gs ih =>
    unfold plainRun
    split
    · exact List.suffix_rfl
    · exact (ih _).trans (List.suffix_cons ..)

/-- A marker that ends a plain scalar stays in the rest. -/
theorem suffix_of_plainEnd? {gs rest : List Glyph} (h : plainEnd? gs = some rest) :
    rest <:+ gs := by
  unfold plainEnd? at h
  split at h
  · cases h
    exact List.nil_suffix
  · split at h
    · cases h
      exact List.suffix_rfl
    · cases h

/-- Blank lines in a plain scalar are taken off the front, up to a marker. -/
theorem plainBreaks_suffix (fuel : Nat) (breaks : List Char) (gs : List Glyph) :
    (plainBreaks fuel breaks gs).2 <:+ gs := by
  induction fuel generalizing breaks gs with
  | zero => exact List.suffix_rfl
  | succ fuel ih =>
    unfold plainBreaks
    split
    · exact (ih ..).trans (List.drop_suffix ..)
    · split
      · dsimp only
        split
        · rename_i rest hend
          exact (suffix_of_plainEnd? hend).trans (takeBreak_suffix _)
        · exact (ih ..).trans (takeBreak_suffix _)
      · exact List.suffix_rfl

theorem plainGap_suffix (bound : Nat) (gs : List Glyph) : (plainGap bound gs).rest <:+ gs := by
  have hspaces := takeRun_suffix (· == ' ') gs
  have hbreak := (takeBreak_suffix (takeRun (· == ' ') gs).2).trans hspaces
  unfold plainGap
  dsimp only
  split
  · split
    · rename_i rest hend
      exact (suffix_of_plainEnd? hend).trans hbreak
    · have hbreaks := (plainBreaks_suffix bound [] (takeBreak (takeRun (· == ' ') gs).2).2).trans
        hbreak
      split
      · rename_i rest heq
        rwa [heq] at hbreaks
      · rename_i more rest heq
        rwa [heq] at hbreaks
  · exact hspaces

/-- A plain scalar ends behind the gap it was given or further on. -/
theorem plainFrom_suffix (flow : Bool) (indent : Int) (fuel : Nat) (text : List Char)
    (gap : PlainGap) : (plainFrom flow indent fuel text gap).rest <:+ gap.rest := by
  induction fuel generalizing text gap with
  | zero => exact List.suffix_rfl
  | succ fuel ih =>
    have hnext := (plainGap_suffix fuel _).trans (plainRun_suffix flow [] gap.rest)
    unfold plainFrom
    dsimp only
    split
    · exact List.suffix_rfl
    · split
      · exact hnext
      · exact (ih ..).trans hnext

theorem plainScalar_suffix (bound : Nat) (flow : Bool) (indent : Int) (gs : List Glyph) :
    (plainScalar bound flow indent gs).rest <:+ gs :=
  plainFrom_suffix ..

/-! ## Block scalars -/

/-- The header takes two characters at most; an indentation of zero is a fault of syntax. -/
theorem reads_blockHeader (gs : List Glyph) :
    Scans gs (fun p => p.2.2 <:+ gs) (blockHeader gs) := by
  unfold blockHeader
  extract_lets digit? found
  have hfound : found.2.2 <:+ gs := by
    unfold found
    split
    · split <;> exact List.drop_suffix ..
    · split <;> exact List.drop_suffix ..
    · exact List.suffix_rfl
  dsimp only
  split
  · exact .inl rfl
  · exact Meets.ite (fun _ => hfound) fun _ => scans_stopAt ..

/-- Looking for the indentation takes blank lines only. -/
theorem blockIndentation_suffix (fuel : Nat) (breaks : List Char) (widest : Nat)
    (gs : List Glyph) : (blockIndentation fuel breaks widest gs).2.2 <:+ gs := by
  induction fuel generalizing breaks widest gs with
  | zero => exact List.suffix_rfl
  | succ fuel ih =>
    unfold blockIndentation
    split
    · exact (ih ..).trans (List.drop_suffix ..)
    · split
      · exact (ih ..).trans (takeBreak_suffix _)
      · exact List.suffix_rfl

theorem skipIndent_suffix (indent : Nat) (gs : List Glyph) : skipIndent indent gs <:+ gs := by
  induction gs with
  | nil => exact List.suffix_rfl
  | cons g gs ih =>
    unfold skipIndent
    split
    · exact ih.trans (List.suffix_cons ..)
    · exact List.suffix_rfl

/-- Blank lines are taken together with the indentation of the next line. -/
theorem blockBreaks_suffix (indent fuel : Nat) (breaks : List Char) (gs : List Glyph) :
    (blockBreaks indent fuel breaks gs).2 <:+ gs := by
  induction fuel generalizing breaks gs with
  | zero => exact List.suffix_rfl
  | succ fuel ih =>
    have hindent := skipIndent_suffix indent gs
    unfold blockBreaks
    dsimp only
    split
    · exact (ih ..).trans ((takeBreak_suffix _).trans hindent)
    · exact hindent

/-- The lines of a block scalar are taken as long as they are indented. -/
theorem blockLines_suffix (folded : Bool) (indent fuel : Nat)
    (text lineBreak breaks : List Char) (gs : List Glyph) :
    (blockLines folded indent fuel text lineBreak breaks gs).2.2.2 <:+ gs := by
  induction fuel generalizing text lineBreak breaks gs with
  | zero => exact List.suffix_rfl
  | succ fuel ih =>
    have hline := (blockBreaks_suffix indent fuel [] _).trans
      ((takeBreak_suffix _).trans (takeRun_suffix (!isBreakOrEnd ·) gs))
    unfold blockLines
    split
    · dsimp only
      split
      · exact (ih ..).trans hline
      · exact hline
    · exact List.suffix_rfl

/-- Behind the line of its header a block scalar never stops the reading, whatever its
indentation. -/
theorem reads_blockScalar (bound : Nat) (parent : Int) (gs : List Glyph) :
    Reads gs (blockScalar bound parent gs) := by
  unfold blockScalar
  refine Meets.bind (Scans.of_suffix (reads_blockHeader _) (List.drop_suffix ..) fun _ h =>
    h.trans (List.drop_suffix ..)) ?_
  rintro ⟨chomping, increment, rest⟩ hrest
  have hcomment : skipComment (skipSpaces rest) <:+ gs :=
    (skipComment_suffix _).trans ((skipSpaces_suffix _).trans hrest)
  have hbreak := (takeBreak_suffix _).trans hcomment
  dsimp only
  refine Meets.ite (fun _ => scans_stopAt ..) fun _ => ?_
  refine (blockLines_suffix ..).trans ?_
  cases increment with
  | none => exact (blockIndentation_suffix ..).trans hbreak
  | some n => exact (blockBreaks_suffix ..).trans hbreak

end Lineage.Yaml
