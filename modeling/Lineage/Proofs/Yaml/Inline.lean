import Mathlib
import Lineage.Proofs.Text.Encoding
import Lineage.Proofs.Yaml.Scanning
import Lineage.Yaml.Document

/-!
# Values in brackets

Nothing, texts, lists and mappings can be written in one line: a collection in brackets, every item
of it with a comma behind, every key with a question mark in front, and a text in quotes with an
escape for each of its code points. Here is what is written, and what it is meant to be read as at
each stage: the tokens, the tree and the data. A text in quotes is read back at once
(`quotedScalar_quote`).
-/

namespace Lineage.Yaml

/-- Values that are written in one line: nothing, texts, and lists and mappings of such values. -/
inductive Inline where
  | null
  | text (t : Text)
  | list (items : List Inline)
  | map (entries : List (Text × Inline))

namespace Inline

/-! ## Writing -/

/-- The last hexadecimal digits of a number. -/
def hexDigits : (width : Nat) → Nat → List Char
  | 0, _ => []
  | width + 1, n => hexDigits width (n / 16) ++ [Nat.digitChar (n % 16)]

/-- A code point as an escape. -/
def escape (c : CodePoint) : List Char :=
  '\\' :: 'U' :: hexDigits 8 c.number

/-- A text in quotes, all of its code points as escapes. -/
def quote (t : Text) : List Char :=
  '\x22' :: t.codePoints.flatMap escape ++ ['\x22']

mutual

/-- A value as it is written. Every item ends with a comma. -/
def chars : Inline → List Char
  | null => ['~']
  | text t => quote t
  | list items => '[' :: itemChars items ++ [']']
  | map entries => '\x7b' :: entryChars entries ++ ['\x7d']

/-- The items of a list as they are written. -/
def itemChars : List Inline → List Char
  | [] => []
  | v :: vs => chars v ++ ',' :: itemChars vs

/-- The entries of a mapping as they are written. -/
def entryChars : List (Text × Inline) → List Char
  | [] => []
  | (k, v) :: es => '?' :: quote k ++ ':' :: chars v ++ ',' :: entryChars es

end

mutual

/-- The tokens of a value. -/
def tokens : Inline → List Token
  | null => [.scalar (.ofChars ['~']) true]
  | text t => [.scalar t false]
  | list items => .flowSequenceStart :: itemTokens items ++ [.flowSequenceEnd]
  | map entries => .flowMappingStart :: entryTokens entries ++ [.flowMappingEnd]

/-- The tokens of the items of a list. -/
def itemTokens : List Inline → List Token
  | [] => []
  | v :: vs => tokens v ++ .flowEntry :: itemTokens vs

/-- The tokens of the entries of a mapping. -/
def entryTokens : List (Text × Inline) → List Token
  | [] => []
  | (k, v) :: es => .key :: .scalar k false :: .value :: tokens v ++ .flowEntry :: entryTokens es

end

mutual

/-- The tree of a value. -/
def tree : Inline → Tree
  | null => .scalar {} (.ofChars ['~']) true
  | text t => .scalar {} t false
  | list items => .sequence {} (itemTrees items)
  | map entries => .mapping {} (entryTrees entries)

/-- The trees of the items of a list. -/
def itemTrees : List Inline → List Tree
  | [] => []
  | v :: vs => tree v :: itemTrees vs

/-- The trees of the entries of a mapping. -/
def entryTrees : List (Text × Inline) → List (Tree × Tree)
  | [] => []
  | (k, v) :: es => (.scalar {} k false, tree v) :: entryTrees es

end

mutual

/-- A value as data. -/
def data : Inline → Data
  | null => .null
  | text t => .text t
  | list items => .list (itemData items)
  | map entries => .map (entryData entries)

/-- The items of a list as data. -/
def itemData : List Inline → List Data
  | [] => []
  | v :: vs => data v :: itemData vs

/-- The entries of a mapping as data. -/
def entryData : List (Text × Inline) → List (Data × Data)
  | [] => []
  | (k, v) :: es => (.text k, data v) :: entryData es

end

/-- No more collections enclose each other than there is room for, and no mapping has a key
twice. -/
inductive Fits : Nat → Inline → Prop
  | null {room : Nat} : Fits room null
  | text {room : Nat} (t : Text) : Fits room (text t)
  | list {room : Nat} {items : List Inline} (fits : ∀ v ∈ items, Fits room v) :
      Fits (room + 1) (list items)
  | map {room : Nat} {entries : List (Text × Inline)} (nodup : (entries.map (·.1)).Nodup)
      (fits : ∀ e ∈ entries, Fits room e.2) : Fits (room + 1) (map entries)

/-! ## Escapes -/

theorem digit_spec :
    ∀ n < 16, isHexDigit (Nat.digitChar n) = true ∧ hexDigit (Nat.digitChar n) = n := by
  decide

theorem length_hexDigits (width n : Nat) : (hexDigits width n).length = width := by
  induction width generalizing n with
  | zero => rfl
  | succ width ih => rw [hexDigits, List.length_append, ih, List.length_singleton]

theorem isHexDigit_of_mem_hexDigits {width n : Nat} {c : Char} (h : c ∈ hexDigits width n) :
    isHexDigit c = true := by
  induction width generalizing n with
  | zero => cases h
  | succ width ih =>
    rcases List.mem_append.1 h with h | h
    · exact ih h
    · rw [List.mem_singleton.1 h]
      exact (digit_spec _ (Nat.mod_lt n (by decide))).1

theorem hexNumber_hexDigits (width n : Nat) : hexNumber (hexDigits width n) = n % 16 ^ width := by
  induction width generalizing n with
  | zero => exact (Nat.mod_one n).symm
  | succ width ih =>
    have hfold (cs : List Char) (c : Char) :
        hexNumber (cs ++ [c]) = 16 * hexNumber cs + hexDigit c := by
      simp [hexNumber]
    rw [hexDigits, hfold, ih, (digit_spec _ (Nat.mod_lt n (by decide))).2, Nat.pow_succ',
      Nat.mod_mul, Nat.add_comm]

theorem length_escape (c : CodePoint) : (escape c).length = 10 := by
  rw [escape, List.length_cons, List.length_cons, length_hexDigits]

theorem lt_length_quote (t : Text) : t.codePoints.length < (quote t).length := by
  have hescapes : (t.codePoints.flatMap escape).length = t.codePoints.length * 10 := by
    rw [List.length_flatMap, List.map_congr_left fun c _ => length_escape c, List.map_const',
      List.sum_replicate_nat]
  rw [quote, List.length_append, List.length_cons, hescapes]
  omega

theorem ofNumber?_number (c : CodePoint) : CodePoint.ofNumber? c.number = some c := by
  cases c with
  | char c =>
    have hrange := Text.toNat_range c
    show CodePoint.ofNumber? c.toNat = _
    rw [CodePoint.ofNumber?, dif_neg (by omega), if_pos (by omega), Char.ofNat_toNat]
  | surrogate place =>
    have hplace := place.isLt
    show CodePoint.ofNumber? (0xD800 + place.val) = _
    have hsame : (⟨0xD800 + place.val - 0xD800, by omega⟩ : Fin 0x800) = place :=
      Fin.ext (Nat.add_sub_cancel_left ..)
    rw [CodePoint.ofNumber?, dif_pos (by omega), hsame]

theorem escapedPoint_number (c : CodePoint) : escapedPoint (c.number % 16 ^ 8) = .ok c := by
  have hsmall : c.number < 0x110000 := by
    cases c with
    | char c =>
      have hrange := Text.toNat_range c
      show c.toNat < _
      omega
    | surrogate place =>
      have hplace := place.isLt
      show 0xD800 + place.val < _
      omega
  rw [Nat.mod_eq_of_lt (by omega), escapedPoint, if_neg, ofNumber?_number]
  show ¬ 2 ^ 31 ≤ c.number
  omega

/-! ## Quoted texts -/

variable {gs : List Glyph} {cs : List Char}

theorem exists_cons_of_chars {c : Char} (h : Yaml.chars gs = c :: cs) :
    ∃ g rest, gs = g :: rest ∧ g.char = c ∧ Yaml.chars rest = cs :=
  List.map_eq_cons_iff.1 h

theorem escapedNumber_hexDigits {c : CodePoint} (h : Yaml.chars gs = hexDigits 8 c.number ++ cs) :
    ∃ rest, escapedNumber 8 gs = .ok (c, rest) ∧ Yaml.chars rest = cs := by
  have hlength := length_hexDigits 8 c.number
  have hdigits : Yaml.chars ((gs.take 8).takeWhile (isHexDigit ·.char)) = hexDigits 8 c.number := by
    have htake : Yaml.chars (gs.take 8) = hexDigits 8 c.number := by
      rw [Yaml.chars, List.map_take, ← Yaml.chars, h, List.take_left' hlength]
    have hall : (gs.take 8).takeWhile (isHexDigit ·.char) = gs.take 8 := by
      refine List.takeWhile_eq_self_iff.2 fun g hg => ?_
      have hmem : g.char ∈ hexDigits 8 c.number := htake ▸ List.mem_map_of_mem hg
      exact isHexDigit_of_mem_hexDigits hmem
    rw [hall, htake]
  refine ⟨gs.drop 8, ?_, ?_⟩
  · unfold escapedNumber
    simp only [hdigits, hlength, hexNumber_hexDigits, escapedPoint_number]
    rfl
  · rw [Yaml.chars, List.map_drop, ← Yaml.chars, h, List.drop_left' hlength]

theorem quotedRun_escapes {ps : List CodePoint} {fuel : Nat} (text : List CodePoint)
    (h : Yaml.chars gs = ps.flatMap escape ++ '\x22' :: cs) (hfuel : ps.length < fuel) :
    ∃ rest, quotedRun true fuel text gs = .ok (ps.reverse ++ text, rest) ∧
      Yaml.chars rest = '\x22' :: cs := by
  induction ps generalizing fuel text gs with
  | nil =>
    obtain ⟨fuel, rfl⟩ := Nat.exists_eq_add_of_lt hfuel
    obtain ⟨g, rest, rfl, hg, -⟩ := exists_cons_of_chars h
    refine ⟨g :: rest, ?_, h⟩
    simp [quotedRun, peek, hg, isBlankOrEnd, isSpaceOrEnd, isBreakOrEnd, isBreak]
  | cons p ps ih =>
    obtain ⟨fuel, rfl⟩ := Nat.exists_eq_add_of_lt hfuel
    have hsplit : Yaml.chars gs =
        '\\' :: 'U' :: (hexDigits 8 p.number ++ (ps.flatMap escape ++ '\x22' :: cs)) := by
      rw [h, List.flatMap_cons, escape, List.append_assoc]
      rfl
    obtain ⟨g₁, gs₁, rfl, hg₁, hgs₁⟩ := exists_cons_of_chars hsplit
    obtain ⟨g₂, gs₂, rfl, hg₂, hgs₂⟩ := exists_cons_of_chars hgs₁
    obtain ⟨gs₃, hescape, hgs₃⟩ := escapedNumber_hexDigits hgs₂
    have hroom : ps.length < ps.length + fuel + 1 := by omega
    obtain ⟨rest, hrun, hrest⟩ := ih (p :: text) hgs₃ hroom
    refine ⟨rest, ?_, hrest⟩
    have hlength : (p :: ps).length + fuel + 1 = ps.length + fuel + 1 + 1 := by
      rw [List.length_cons]
      omega
    rw [hlength, quotedRun]
    simp [peek, hg₁, hg₂, isBlankOrEnd, isSpaceOrEnd, isBreakOrEnd, isBreak, escape?, escapeWidth?,
      hescape]
    exact hrun

/-- A text in quotes is read back. -/
theorem quotedScalar_quote {t : Text} {bound : Nat} (h : Yaml.chars gs = quote t ++ cs)
    (hbound : t.codePoints.length < bound) :
    ∃ rest, quotedScalar bound gs = .ok (t, rest) ∧ Yaml.chars rest = cs := by
  have hsplit : Yaml.chars gs = '\x22' :: (t.codePoints.flatMap escape ++ '\x22' :: cs) := by
    rw [h, quote, List.cons_append, List.cons_append, List.append_assoc]
    rfl
  obtain ⟨g, gs', rfl, hg, hgs'⟩ := exists_cons_of_chars hsplit
  obtain ⟨rest, hrun, hrest⟩ := quotedRun_escapes [] hgs' hbound
  obtain ⟨q, rest, rfl, hq, hrest⟩ := exists_cons_of_chars hrest
  obtain ⟨bound, rfl⟩ := Nat.exists_eq_add_of_lt hbound
  refine ⟨rest, ?_, hrest⟩
  have hquote : peek (g :: gs') = '\x22' := hg
  have hend : peek (q :: rest) = '\x22' := hq
  have hclose : quotedRest true (t.codePoints.length + bound + 1) t.codePoints.reverse (q :: rest) =
      .ok (t, rest) := by
    simp [quotedRest, hend]
  unfold quotedScalar
  simp only [hquote, beq_self_eq_true, List.drop_one, List.tail_cons, hrun, List.append_nil]
  exact hclose

end Inline

end Lineage.Yaml
