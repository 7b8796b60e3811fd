import Mathlib
import Lineage.Declaration.Line
import Lineage.Proofs.Text.Expression

/-!
# The grammar of a declaration line

The parts of a line as they are written, down to the single characters. Each of them is what the
expression of the same name spells, and two of them are never written alike. The reason is always
the same: what may follow a part is never a character that could have continued it. A name ends at
white space or at a bracket, and neither can stand in it.
-/

namespace Lineage

namespace Text

/-! ## White space and words -/

/-- The numbers of the white space. -/
def blankNumbers : List Nat :=
  List.range' 0x09 5 ++ List.range' 0x1C 5 ++ [0x85, 0xA0, 0x1680] ++ List.range' 0x2000 11 ++
    [0x2028, 0x2029, 0x202F, 0x205F, 0x3000]

theorem number_mem_of_isBlank {c : CodePoint} (h : isBlank c = true) :
    c.number ∈ blankNumbers := by
  simp only [isBlank, CharClass.contains, blank, CharClass.inside] at h
  simp only [blankNumbers, List.mem_append, List.mem_range'_1, List.mem_cons, List.not_mem_nil,
    or_false]
  grind

theorem isWordChar_of_isBlank {c : CodePoint} (h : isBlank c = true) : isWordChar c = false := by
  have hnumbers : ∀ n ∈ blankNumbers, CharClass.inside lettersAndNumbers.bounds n = false := by
    decide +kernel
  have hunderscore : c ≠ .char '_' := by
    rintro rfl
    revert h
    decide
  rw [isWordChar, Bool.or_eq_false_iff]
  exact ⟨beq_eq_false_iff_ne.2 hunderscore, hnumbers _ (number_mem_of_isBlank h)⟩

theorem isBlank_of_isWordStart {c : CodePoint} (h : isWordStart c = true) : isBlank c = false := by
  have hnumbers : ∀ n ∈ blankNumbers, n < 65 ∨ 122 < n := by decide
  cases c with
  | surrogate place => cases h
  | char c =>
    rw [← Bool.not_eq_true]
    intro hblank
    have hnumber : c.toNat < 65 ∨ 122 < c.toNat := hnumbers _ (number_mem_of_isBlank hblank)
    rcases Bool.or_eq_true_iff.1 h with hletter | hunderscore
    · simp only [Char.isAlpha, Char.isUpper, Char.isLower, Bool.or_eq_true, Bool.and_eq_true,
        decide_eq_true_eq, ge_iff_le, UInt32.le_iff_toNat_le, Char.reduceVal,
        UInt32.reduceToNat] at hletter
      have htoNat : c.toNat = c.val.toNat := rfl
      omega
    · rw [eq_of_beq hunderscore] at hnumber
      revert hnumber
      decide

end Text

namespace Line

open Text (CharIn Expression Next isBlank isWordChar isWordStart)
open Text.Expression (Spells)

/-! ## The ends of names -/

/-- What ends a name. -/
def isStop (c : CodePoint) : Bool :=
  isBlank c || c == .char '['

theorem isWordChar_of_isMark {c : CodePoint} (h : isMark c = true) : isWordChar c = false := by
  rcases Bool.or_eq_true_iff.1 h with h | h
  · rw [eq_of_beq h]
    decide +kernel
  · rw [eq_of_beq h]
    decide +kernel

theorem isWordChar_of_isStop {c : CodePoint} (h : isStop c = true) : isWordChar c = false := by
  rcases Bool.or_eq_true_iff.1 h with h | h
  · exact Text.isWordChar_of_isBlank h
  · rw [eq_of_beq h]
    decide +kernel

theorem isMark_of_isStop {c : CodePoint} (h : isStop c = true) : isMark c = false := by
  rw [← Bool.not_eq_true]
  intro hmark
  rcases Bool.or_eq_true_iff.1 hmark with hc | hc <;> rw [eq_of_beq hc] at h <;> revert h <;> decide

theorem isStop_of_isBlank (c : CodePoint) (h : isBlank c = true) : isStop c = true := by
  rw [isStop, h]
  rfl

theorem isStop_of_bracket (c : CodePoint) (h : (("[" : Text).codePoints.head? == some c) = true) :
    isStop c = true := by
  cases eq_of_beq h
  decide

theorem ne_colon_of_isStop {c : CodePoint} (h : isStop c = true) : c ≠ .char ':' := by
  rintro rfl
  revert h
  decide

/-! ## Names -/

/-- A word, which starts with an ASCII letter or the underscore. -/
structure Word where
  head : CharIn isWordStart
  tail : List (CharIn isWordChar)

def Word.chars (w : Word) : List CodePoint :=
  w.head.1 :: w.tail.map (·.1)

theorem Word.chars_ne_nil (w : Word) : w.chars ≠ [] :=
  List.cons_ne_nil _ _

theorem spells_word :
    Spells word Word.chars (fun _ => []) isWordStart (fun c => !isWordChar c) := by
  have htail : Spells (.many (.one isWordChar) : Expression Part)
      (fun cs : List (CharIn isWordChar) => cs.map (·.1)) (fun _ => []) isWordChar
      (fun c => !isWordChar c) :=
    .many_one isWordChar fun c hc => by simpa using hc
  have hword := (Spells.one isWordStart fun _ => true).seq_of_ne_nil htail
    (fun _ => List.cons_ne_nil _ _) fun _ _ _ _ _ => rfl
  exact hword.equiv ⟨fun w => (w.head, w.tail), fun w => ⟨w.1, w.2⟩, fun _ => rfl, fun _ => rfl⟩
    (fun _ => rfl) fun _ => rfl

/-- Words joined by apostrophes and hyphens. -/
structure Identifier where
  first : Word
  more : List (CharIn isMark × Word)

def Identifier.chars (i : Identifier) : List CodePoint :=
  i.first.chars ++ i.more.flatMap fun m => m.1.1 :: m.2.chars

theorem Identifier.chars_ne_nil (i : Identifier) : i.chars ≠ [] :=
  List.append_ne_nil_of_left_ne_nil i.first.chars_ne_nil _

theorem spells_identifier : Spells identifier Identifier.chars (fun _ => []) isWordStart
    (fun c => !isWordChar c && !isMark c) := by
  have hend : ∀ c, (!isWordChar c && !isMark c) = true → (!isWordChar c) = true := fun c hc =>
    ((Bool.and_eq_true _ _).mp hc).1
  have hagain : ∀ c, isMark c = true → (!isWordChar c) = true := fun c hc => by
    rw [isWordChar_of_isMark hc]
    rfl
  have hjoined := ((Spells.one isMark fun _ => true).seq_of_ne_nil spells_word
    (fun _ => List.cons_ne_nil _ _) fun _ _ _ _ _ => rfl).many_plain
    (w := fun c => !isWordChar c && !isMark c) (fun _ => List.cons_ne_nil _ _) hagain hend
    fun c hc => by simpa using ((Bool.and_eq_true _ _).mp hc).2
  have hidentifier := spells_word.seq_of_ne_nil hjoined Word.chars_ne_nil
    (hjoined.next hagain hend)
  exact hidentifier.equiv ⟨fun i => (i.first, i.more), fun i => ⟨i.1, i.2⟩, fun _ => rfl,
    fun _ => rfl⟩ (fun _ => rfl) fun _ => rfl

/-- Identifiers joined by double colons. -/
structure Name where
  first : Identifier
  more : List Identifier

def Name.chars (n : Name) : List CodePoint :=
  n.first.chars ++ n.more.flatMap fun i => ("::" : Text).codePoints ++ i.chars

theorem Name.chars_ne_nil (n : Name) : n.chars ≠ [] :=
  List.append_ne_nil_of_left_ne_nil n.first.chars_ne_nil _

theorem spells_longName : Spells longName Name.chars (fun _ => []) isWordStart isStop := by
  have hend : ∀ c, isStop c = true → (!isWordChar c && !isMark c) = true := fun c hc => by
    rw [isWordChar_of_isStop hc, isMark_of_isStop hc]
    rfl
  have hagain : ∀ c, (("::" : Text).codePoints.head? == some c) = true →
      (!isWordChar c && !isMark c) = true := fun c hc => by
    cases eq_of_beq hc
    decide +kernel
  have hstep := (Spells.literal "::" fun _ => true).seq_of_ne_nil spells_identifier
    (fun _ => List.cons_ne_nil _ _) fun _ _ _ _ _ => rfl
  have hnext : Spells (.seq (.literal "::") identifier)
      (fun i : Identifier => ("::" : Text).codePoints ++ i.chars) (fun _ => [])
      (fun c => ("::" : Text).codePoints.head? == some c) (fun c => !isWordChar c && !isMark c) :=
    hstep.equiv ⟨fun i => ((), i), fun i => i.2, fun _ => rfl, fun _ => rfl⟩ (fun _ => rfl)
      fun _ => rfl
  have hjoined := hnext.many_plain (w := isStop) (fun _ => List.cons_ne_nil _ _) hagain hend
    fun c hc => beq_eq_false_iff_ne.2 fun heq => ne_colon_of_isStop hc (Option.some.inj heq).symm
  have hname := spells_identifier.seq_of_ne_nil hjoined Identifier.chars_ne_nil
    (hjoined.next hagain hend)
  exact hname.equiv ⟨fun n => (n.first, n.more), fun n => ⟨n.1, n.2⟩, fun _ => rfl, fun _ => rfl⟩
    (fun _ => rfl) fun _ => rfl

/-! ## Signatures, gaps and keywords -/

/-- A signature, by what stands between its brackets. -/
structure Signature where
  inner : List (CharIn isSignatureChar)

def Signature.chars (s : Signature) : List CodePoint :=
  ("[" : Text).codePoints ++ (s.inner.map (·.1) ++ ("]" : Text).codePoints)

theorem Signature.chars_ne_nil (s : Signature) : s.chars ≠ [] :=
  List.cons_ne_nil _ _

theorem spells_signature : Spells signature Signature.chars (fun _ => [])
    (fun c => ("[" : Text).codePoints.head? == some c) (fun _ => true) := by
  have hinner : Spells (.many (.one isSignatureChar) : Expression Part)
      (fun cs : List (CharIn isSignatureChar) => cs.map (·.1)) (fun _ => []) isSignatureChar
      (fun c => !isSignatureChar c) :=
    .many_one isSignatureChar fun c hc => by simpa using hc
  have hclose : Spells (.literal "]" : Expression Part) (fun _ : Unit => ("]" : Text).codePoints)
      (fun _ => []) (fun c => ("]" : Text).codePoints.head? == some c) (fun _ => true) :=
    .literal _ _
  have hcloses : ∀ c, (("]" : Text).codePoints.head? == some c) = true →
      (!isSignatureChar c) = true := by
    intro c hc
    cases eq_of_beq hc
    decide
  have hclosed := hinner.seq hclose (f := fun _ => true) (fun _ _ _ _ => rfl) fun j rest _ =>
    hclose.next_of_ne_nil (fun _ => List.cons_ne_nil _ _) hcloses j rest
  have hsignature := (Spells.literal "[" fun _ => true).seq_of_ne_nil hclosed
    (fun _ => List.cons_ne_nil _ _) fun _ _ _ _ _ => rfl
  exact hsignature.equiv ⟨fun s => ((), s.inner, ()), fun s => ⟨s.2.1⟩, fun _ => rfl, fun _ => rfl⟩
    (fun _ => rfl) fun _ => rfl

/-- White space. -/
structure Gap where
  head : CharIn isBlank
  tail : List (CharIn isBlank)

def Gap.chars (g : Gap) : List CodePoint :=
  g.head.1 :: g.tail.map (·.1)

theorem Gap.chars_ne_nil (g : Gap) : g.chars ≠ [] :=
  List.cons_ne_nil _ _

theorem spells_gap : Spells gap Gap.chars (fun _ => []) isBlank (fun c => !isBlank c) := by
  have htail : Spells (.many (.one isBlank) : Expression Part)
      (fun cs : List (CharIn isBlank) => cs.map (·.1)) (fun _ => []) isBlank
      (fun c => !isBlank c) :=
    .many_one isBlank fun c hc => by simpa using hc
  have hgap := (Spells.one isBlank fun _ => true).seq_of_ne_nil htail
    (fun _ => List.cons_ne_nil _ _) fun _ _ _ _ _ => rfl
  exact hgap.equiv ⟨fun g => (g.head, g.tail), fun g => ⟨g.1, g.2⟩, fun _ => rfl, fun _ => rfl⟩
    (fun _ => rfl) fun _ => rfl

theorem keyword_ne_nil (k : Kind) : (k.keyword : Text).codePoints ≠ [] := by
  cases k <;> decide

theorem spells_kindWord : Spells kindWord (fun k : Kind => (k.keyword : Text).codePoints)
    (fun _ => []) (fun c => Kind.all.any fun k => (k.keyword : Text).codePoints.head? == some c)
    (fun _ => true) :=
  .anyOf_literal (fun k => by cases k <;> decide) keyword_ne_nil
    (fun k l => by cases k <;> cases l <;> decide) _

theorem relation_ne_nil (r : Relation) : (r.keyword : Text).codePoints ≠ [] := by
  cases r <;> decide

theorem not_isBlank_of_relation (c : CodePoint)
    (h : (Relation.all.any fun r => (r.keyword : Text).codePoints.head? == some c) = true) :
    (!isBlank c) = true := by
  obtain ⟨r, _, hr⟩ := List.any_eq_true.1 h
  cases r <;> cases eq_of_beq hr <;> decide

theorem not_isBlank_of_isWordStart (c : CodePoint) (h : isWordStart c = true) :
    (!isBlank c) = true := by
  rw [Text.isBlank_of_isWordStart h]
  rfl

theorem spells_relationWord : Spells relationWord
    (fun r : Relation => (r.keyword : Text).codePoints) (fun _ => [])
    (fun c => Relation.all.any fun r => (r.keyword : Text).codePoints.head? == some c)
    (fun _ => true) :=
  .anyOf_literal (fun r => by cases r <;> decide) relation_ne_nil
    (fun r s => by cases r <;> cases s <;> decide) _

/-! ## Clauses and lines -/

/-- A clause as it is written. -/
structure WrittenClause where
  before : Gap
  relation : Relation
  between : Gap
  target : Name
  signature : Option Signature

/-- A signature, where there is one. -/
def optionalChars (s : Option Signature) : List CodePoint :=
  s.elim [] Signature.chars

def WrittenClause.chars (k : WrittenClause) : List CodePoint :=
  k.before.chars ++ ((k.relation.keyword : Text).codePoints ++ (k.between.chars ++
    (k.target.chars ++ optionalChars k.signature)))

theorem WrittenClause.chars_ne_nil (k : WrittenClause) : k.chars ≠ [] :=
  List.append_ne_nil_of_left_ne_nil k.before.chars_ne_nil _

/-- A declaration line as it is written. -/
structure WrittenLine where
  kind : Kind
  gap : Gap
  name : Name
  signature : Option Signature
  clauses : List WrittenClause

/-- The text of the clauses. -/
def WrittenLine.clauseChars (w : WrittenLine) : List CodePoint :=
  w.clauses.flatMap WrittenClause.chars

def WrittenLine.chars (w : WrittenLine) : List CodePoint :=
  (w.kind.keyword : Text).codePoints ++ (w.gap.chars ++ (w.name.chars ++
    (optionalChars w.signature ++ w.clauseChars)))

section

variable {r t s : Expression Part} {pr : Relation → List (Part × List CodePoint)}
  {pt : Name → List (Part × List CodePoint)} {ps : Signature → List (Part × List CodePoint)}

theorem spells_optional (hs : Spells s Signature.chars ps
      (fun c => ("[" : Text).codePoints.head? == some c) (fun _ => true)) :
    Spells (.optional s) optionalChars (fun o => o.elim [] ps)
      (fun c => ("[" : Text).codePoints.head? == some c) isBlank :=
  hs.optional Signature.chars_ne_nil (fun _ _ => rfl) fun c hc => by
    rw [beq_eq_false_iff_ne]
    intro heq
    cases heq
    revert hc
    decide

/-- A clause is spelled by its parts, whichever of them are remembered. -/
theorem spells_clauseOf
    (hr : Spells r (fun r => (r.keyword : Text).codePoints) pr
      (fun c => Relation.all.any fun r => (r.keyword : Text).codePoints.head? == some c)
      (fun _ => true))
    (ht : Spells t Name.chars pt isWordStart isStop)
    (hs : Spells s Signature.chars ps (fun c => ("[" : Text).codePoints.head? == some c)
      (fun _ => true)) :
    Spells (clauseOf r t s) WrittenClause.chars
      (fun k => k.signature.elim [] ps ++ (pt k.target ++ pr k.relation)) isBlank isBlank := by
  have hoptional := spells_optional hs
  have htarget := ht.seq_of_ne_nil hoptional Name.chars_ne_nil
    (hoptional.next isStop_of_bracket isStop_of_isBlank)
  have hnamed : ∀ n : Name × Option Signature, n.1.chars ++ optionalChars n.2 ≠ [] := fun n =>
    List.append_ne_nil_of_left_ne_nil n.1.chars_ne_nil _
  have hgap := spells_gap.seq_nonempty htarget Gap.chars_ne_nil hnamed not_isBlank_of_isWordStart
  have hrelation := hr.seq_nonempty hgap relation_ne_nil
    (fun n => List.append_ne_nil_of_left_ne_nil n.1.chars_ne_nil _) fun _ _ => rfl
  have hclause := spells_gap.seq_nonempty hrelation Gap.chars_ne_nil
    (fun r => List.append_ne_nil_of_left_ne_nil (relation_ne_nil r.1) _) not_isBlank_of_relation
  exact hclause.equiv ⟨fun k => (k.before, k.relation, k.between, k.target, k.signature),
    fun k => ⟨k.1, k.2.1, k.2.2.1, k.2.2.2.1, k.2.2.2.2⟩, fun _ => rfl, fun _ => rfl⟩
    (fun _ => rfl) fun _ => by simp

end

/-- The parts of a clause that are remembered when it is read by itself. -/
def WrittenClause.parts (k : WrittenClause) : List (Part × List CodePoint) :=
  k.signature.elim [] (fun s => [(.signature, s.chars)]) ++
    [(.name, k.target.chars), (.relation, (k.relation.keyword : Text).codePoints)]

theorem spells_clausePattern :
    Spells clausePattern WrittenClause.chars WrittenClause.parts isBlank isBlank :=
  spells_clauseOf (spells_relationWord.part .relation) (spells_longName.part .name)
    (spells_signature.part .signature)

/-- The parts of a line that are remembered. -/
def WrittenLine.parts (w : WrittenLine) : List (Part × List CodePoint) :=
  (.clauses, w.clauseChars) :: (w.signature.elim [] (fun s => [(.signature, s.chars)]) ++
    [(.name, w.name.chars), (.kind, (w.kind.keyword : Text).codePoints)])

theorem spells_clauses : Spells (.many (clauseOf relationWord longName signature))
    (fun ks : List WrittenClause => ks.flatMap WrittenClause.chars) (fun _ => []) isBlank
    (fun _ => false) := by
  have hclause : Spells (clauseOf relationWord longName signature) WrittenClause.chars
      (fun _ => []) isBlank isBlank :=
    (spells_clauseOf spells_relationWord spells_longName spells_signature).equiv (.refl _)
      (fun _ => rfl) fun ⟨_, _, _, _, s⟩ => by cases s <;> rfl
  exact hclause.many_plain WrittenClause.chars_ne_nil (fun _ => id) (fun _ => nofun) fun _ => nofun

theorem spells_declarationPattern :
    Spells declarationPattern WrittenLine.chars WrittenLine.parts (fun _ => true)
      (fun _ => false) := by
  have hoptional := spells_optional (spells_signature.part .signature)
  have hclauses := spells_clauses.part Part.clauses
  have hafter := hoptional.seq hclauses (f := isStop)
    (fun o ks => hoptional.next isStop_of_bracket isStop_of_isBlank o _ (hclauses.starts ks))
    (hclauses.next (fun _ => id) fun _ => nofun)
  have hname := (spells_longName.part Part.name).seq_of_ne_nil hafter Name.chars_ne_nil
    (hafter.next (fun _ => id) fun _ => nofun)
  have hgap := spells_gap.seq_nonempty hname Gap.chars_ne_nil
    (fun n => List.append_ne_nil_of_left_ne_nil n.1.chars_ne_nil _) not_isBlank_of_isWordStart
  have hline := (spells_kindWord.part Part.kind).seq_of_ne_nil hgap keyword_ne_nil
    fun _ _ _ _ _ => rfl
  exact (hline.mono (fun _ _ => rfl) fun _ => id).equiv
    ⟨fun w => (w.kind, w.gap, w.name, w.signature, w.clauses),
      fun w => ⟨w.1, w.2.1, w.2.2.1, w.2.2.2.1, w.2.2.2.2⟩, fun _ => rfl, fun _ => rfl⟩
    (fun _ => rfl) fun ⟨_, _, _, s, _⟩ => by cases s <;> rfl

end Line

end Lineage
