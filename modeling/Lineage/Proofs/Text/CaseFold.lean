import Lineage.Text.CaseFold
import Mathlib.Data.List.Basic
import Mathlib.Data.Nat.Bitwise

/-!
# Folding once is enough

Full case folding has no chains: what a code point is folded to is never folded any further, so a
text that has been folded stays as it is (`caseFold_caseFold`).

That the targets of the tables are none of their sources is checked by bits: either list of code
points is turned into one number, and the two numbers have no bit in common.
-/

namespace Lineage.Text

/-! ## Lists of numbers as bits -/

/-- The number whose bits are the members of a list. -/
def mask (l : List Nat) : Nat :=
  l.foldr (fun n m => 2 ^ n ||| m) 0

theorem testBit_mask {l : List Nat} {n : Nat} (h : n ∈ l) : (mask l).testBit n = true := by
  induction l with
  | nil => cases h
  | cons m l ih =>
    show (2 ^ m ||| mask l).testBit n = true
    rw [Nat.testBit_or]
    rcases List.mem_cons.1 h with rfl | h
    · rw [Nat.testBit_two_pow_self, Bool.true_or]
    · rw [ih h, Bool.or_true]

theorem disjoint_of_mask {l l' : List Nat} (h : mask l &&& mask l' = 0) {n : Nat} (hn : n ∈ l) :
    n ∉ l' := by
  intro hn'
  have hbit : (mask l &&& mask l').testBit n = true := by
    rw [Nat.testBit_and, testBit_mask hn, testBit_mask hn', Bool.true_and]
  rw [h, Nat.zero_testBit] at hbit
  cases hbit

/-! ## Sources and targets -/

/-- The code points that a run moves. -/
def CaseRun.codes (r : CaseRun) : List Nat :=
  (List.range ((r.last - r.first) / r.step + 1)).map fun k => r.first + k * r.step

theorem CaseRun.mem_codes {r : CaseRun} {c : Nat} (h : r.covers c = true) : c ∈ r.codes := by
  simp only [covers, Bool.and_eq_true, decide_eq_true_eq, beq_iff_eq] at h
  obtain ⟨⟨hfirst, hlast⟩, hstep⟩ := h
  refine List.mem_map.2 ⟨(c - r.first) / r.step, ?_, ?_⟩
  · rw [List.mem_range, Nat.lt_succ_iff]
    exact Nat.div_le_div_right (Nat.sub_le_sub_right hlast r.first)
  · rw [Nat.div_mul_cancel (Nat.dvd_of_mod_eq_zero hstep)]
    omega

/-- The code points that are folded. -/
def foldSources : List Nat :=
  foldRuns.flatMap (·.codes) ++ foldExpansions.map (·.1)

/-- The code points that others are folded to. -/
def foldTargets : List Nat :=
  foldRuns.flatMap (fun r => r.codes.map r.apply) ++ foldExpansions.flatMap (·.2)

/-- No code point is both. -/
theorem foldTargets_disjoint {n : Nat} (h : n ∈ foldTargets) : n ∉ foldSources := by
  have hmasks : mask foldTargets &&& mask foldSources = 0 := by decide +kernel
  exact disjoint_of_mask hmasks h

theorem foldCode_of_not_source {n : Nat} (h : n ∉ foldSources) : foldCode n = [n] := by
  unfold foldSources at h
  rw [List.mem_append, not_or] at h
  have hexpansion : foldExpansions.lookup n = none := by
    rw [List.lookup_eq_none_iff]
    intro e he
    exact bne_iff_ne.2 fun heq => h.2 (List.mem_map.2 ⟨e, he, heq.symm⟩)
  have hrun : foldRuns.find? (·.covers n) = none := by
    rw [List.find?_eq_none]
    intro r hr hcovers
    exact h.1 (List.mem_flatMap.2 ⟨r, hr, CaseRun.mem_codes hcovers⟩)
  unfold foldCode CaseRun.map
  rw [hexpansion, hrun]

theorem foldCode_of_target {n : Nat} (h : n ∈ foldTargets) : foldCode n = [n] :=
  foldCode_of_not_source (foldTargets_disjoint h)

/-- What a code point is folded to is not folded any further. -/
theorem foldCode_of_mem_foldCode {n m : Nat} (h : m ∈ foldCode n) : foldCode m = [m] := by
  cases hexpansion : foldExpansions.lookup n with
  | some l =>
    simp only [foldCode, hexpansion] at h
    obtain ⟨before, rest, hsplit, _⟩ := List.lookup_eq_some_iff.1 hexpansion
    refine foldCode_of_target (List.mem_append_right _ (List.mem_flatMap.2 ⟨(n, l), ?_, h⟩))
    rw [hsplit]
    exact List.mem_append_right _ List.mem_cons_self
  | none =>
    have hfold : foldCode n = [CaseRun.map foldRuns n] := by simp only [foldCode, hexpansion]
    rw [hfold, List.mem_singleton] at h
    cases hrun : foldRuns.find? (·.covers n) with
    | some r =>
      have hcovers : r.covers n = true := by simpa using List.find?_some hrun
      have hm : m = r.apply n := by simpa only [CaseRun.map, hrun] using h
      refine foldCode_of_target (List.mem_append_left _ (List.mem_flatMap.2
        ⟨r, List.mem_of_find?_eq_some hrun, ?_⟩))
      rw [hm]
      exact List.mem_map_of_mem (CaseRun.mem_codes hcovers)
    | none =>
      have hm : m = n := by simpa only [CaseRun.map, hrun] using h
      rw [hm, hfold, ← h, hm]

/-! ## Texts -/

theorem foldPoint_of_mem_foldPoint {p q : CodePoint} (h : q ∈ foldPoint p) : foldPoint q = [q] := by
  cases p with
  | surrogate place =>
    rw [List.mem_singleton.1 h]
    rfl
  | char c =>
    obtain ⟨m, hm, rfl⟩ := List.mem_map.1 h
    have hfixed : foldCode (Char.ofNat m).toNat = [(Char.ofNat m).toNat] := by
      by_cases hvalid : m.isValidChar
      · rw [Char.ofNat, dif_pos hvalid]
        exact foldCode_of_mem_foldCode hm
      · -- a number that no character has stands for the null character
        rw [Char.ofNat, dif_neg hvalid]
        decide +kernel
    show (foldCode (Char.ofNat m).toNat).map (fun n => CodePoint.char (Char.ofNat n)) = _
    rw [hfixed, List.map_singleton, Char.ofNat_toNat]

/-- A text that has been folded is left as it is. -/
theorem caseFold_caseFold (t : Text) : caseFold (caseFold t) = caseFold t := by
  unfold caseFold
  rw [List.flatMap_assoc]
  congr 1
  refine List.flatMap_congr fun p _ => ?_
  calc (foldPoint p).flatMap foldPoint = (foldPoint p).flatMap ([·]) :=
        List.flatMap_congr fun _ hq => foldPoint_of_mem_foldPoint hq
    _ = foldPoint p := List.flatMap_singleton' _

end Lineage.Text
