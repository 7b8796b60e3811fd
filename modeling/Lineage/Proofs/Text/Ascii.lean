import Lineage.Text.ControlSequence
import Mathlib.Data.List.TakeWhile

/-!
# ASCII

Numbers are written in ASCII, and so are control sequences. So what is not ASCII in a text stays
there when the control sequences are dropped (`mem_withoutSequences`).
-/

namespace Lineage.Text

/-- All characters are in ASCII. -/
def Ascii (cs : List Char) : Prop :=
  ∀ c ∈ cs, c.toNat < 0x80

instance : DecidablePred Ascii :=
  List.decidableBAll fun c : Char => c.toNat < 0x80

section

variable {c : Char} {cs ds : List Char}

@[simp] theorem ascii_nil : Ascii [] :=
  List.forall_mem_nil _

@[simp] theorem ascii_cons : Ascii (c :: cs) ↔ c.toNat < 0x80 ∧ Ascii cs :=
  List.forall_mem_cons

@[simp] theorem ascii_append : Ascii (cs ++ ds) ↔ Ascii cs ∧ Ascii ds :=
  List.forall_mem_append

/-- Characters among others in ASCII are in ASCII. -/
theorem Ascii.subset (h : Ascii ds) (hin : cs ⊆ ds) : Ascii cs :=
  fun c hc => h c (hin hc)

/-- A character that is repeated is in ASCII if it is once. -/
theorem ascii_replicate (h : c.toNat < 0x80) (n : Nat) : Ascii (List.replicate n c) :=
  fun _ hmem => List.eq_of_mem_replicate hmem ▸ h

/-! ## Numbers -/

/-- A digit is in ASCII, and so is the mark for what is none. -/
theorem digitChar_lt (n : Nat) : (Nat.digitChar n).toNat < 0x80 := by
  have hdigit : ∀ m < 16, (Nat.digitChar m).toNat < 0x80 := by decide
  by_cases h : n < 16
  · exact hdigit n h
  · -- there is a mark for what is no digit
    have hmark : Nat.digitChar n = '*' := by
      unfold Nat.digitChar
      simp (disch := omega) only [if_neg]
    rw [hmark]
    decide

/-- Digits are put before those that are there already. -/
theorem ascii_toDigitsCore (base fuel n : Nat) (h : Ascii ds) :
    Ascii (Nat.toDigitsCore base fuel n ds) := by
  induction fuel generalizing n ds with
  | zero => exact h
  | succ fuel ih =>
    have hmore : Ascii (Nat.digitChar (n % base) :: ds) := ascii_cons.2 ⟨digitChar_lt _, h⟩
    unfold Nat.toDigitsCore
    dsimp only
    split
    · exact hmore
    · exact ih _ hmore

/-- A number is written in ASCII, to whichever base. -/
@[simp] theorem ascii_toDigits (base n : Nat) : Ascii (Nat.toDigits base n) :=
  ascii_toDigitsCore _ _ _ ascii_nil

/-- A number is shown in ASCII. -/
@[simp] theorem ascii_toString (n : Nat) : Ascii (toString n).toList := by
  rw [Nat.toString_eq_repr, Nat.toList_repr]
  exact ascii_toDigits 10 n

end

/-! ## Control sequences -/

section

variable {p : CodePoint} {ps behind : List CodePoint}

/-- What is not of a class is not skipped with the class. -/
theorem mem_dropWhile {class? : CodePoint → Bool} (hp : class? p = false) (h : p ∈ ps) :
    p ∈ ps.dropWhile class? := by
  have hsplit : ps.takeWhile class? ++ ps.dropWhile class? = ps := List.takeWhile_append_dropWhile
  rw [← hsplit, List.mem_append] at h
  refine h.resolve_left fun htaken => ?_
  rw [List.mem_takeWhile_imp htaken] at hp
  cases hp

/-- What a control sequence consists of. -/
theorem eq_of_afterSequence? (h : afterSequence? ps = some behind) :
    ∃ rest last, ps = escape :: .char '[' :: rest ∧
      (rest.dropWhile isParameter).dropWhile isIntermediate = last :: behind ∧
      isFinal last = true := by
  unfold afterSequence? at h
  split at h
  · rename_i e rest
    split at h
    · rename_i he
      split at h
      · rename_i last rest' hlast
        split at h
        · rename_i hfinal
          cases h
          exact ⟨rest, last, by rw [he], hlast, hfinal⟩
        · cases h
      · cases h
    · cases h
  · cases h

/-- A control sequence is in ASCII. -/
theorem mem_of_afterSequence? (h : afterSequence? ps = some behind) (hp : 0x80 ≤ p.number)
    (hmem : p ∈ ps) : p ∈ behind := by
  obtain ⟨rest, last, rfl, hlast, hfinal⟩ := eq_of_afterSequence? h
  have hrest : p ∈ rest := by
    rcases List.mem_cons.1 hmem with rfl | hmem
    · exact absurd hp (by decide)
    · rcases List.mem_cons.1 hmem with rfl | hmem
      · exact absurd hp (by decide)
      · exact hmem
  -- the three kinds of characters all lie in ASCII
  have hparameter : isParameter p = false := by
    simp only [isParameter, Bool.and_eq_false_imp, decide_eq_true_eq, decide_eq_false_iff_not]
    omega
  have hintermediate : isIntermediate p = false := by
    simp only [isIntermediate, Bool.and_eq_false_imp, decide_eq_true_eq, decide_eq_false_iff_not]
    omega
  simp only [isFinal, Bool.and_eq_true, decide_eq_true_eq] at hfinal
  have hleft := mem_dropWhile hintermediate (mem_dropWhile hparameter hrest)
  rw [hlast] at hleft
  rcases List.mem_cons.1 hleft with rfl | hbehind
  · omega
  · exact hbehind

/-- What follows a control sequence stands behind it. -/
theorem suffix_of_afterSequence? (h : afterSequence? ps = some behind) : behind <:+ ps := by
  obtain ⟨rest, last, rfl, hlast, _⟩ := eq_of_afterSequence? h
  have hleft : last :: behind <:+ rest := by
    rw [← hlast]
    exact (List.dropWhile_suffix _).trans (List.dropWhile_suffix _)
  have hall : rest <:+ escape :: .char '[' :: rest :=
    List.suffix_append [escape, .char '['] rest
  exact (List.suffix_cons last behind).trans (hleft.trans hall)

/-- Dropping control sequences takes nothing but ASCII away. -/
theorem mem_dropSequences (hp : 0x80 ≤ p.number) : p ∈ dropSequences ps ↔ p ∈ ps := by
  fun_induction dropSequences ps with
  | case1 => rfl
  | case2 q rest behind h ih =>
    rw [ih]
    constructor
    · exact fun hmem => (suffix_of_afterSequence? h).subset hmem
    · exact mem_of_afterSequence? h hp
  | case3 q rest h ih => rw [List.mem_cons, List.mem_cons, ih]

/-- Nothing but ASCII goes with a control sequence. -/
theorem mem_withoutSequences {t : Text} (hp : 0x80 ≤ p.number) :
    p ∈ t.withoutSequences.codePoints ↔ p ∈ t.codePoints :=
  mem_dropSequences hp

end

end Lineage.Text
