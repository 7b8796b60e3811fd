import Mathlib.Data.Char

/-!
# Bytes of a character

UTF-8 writes a character as a lead byte and up to three more, which hold its number to the base
sixty-four. A character that is cut off behind some of its bytes can always be completed: the bytes
at hand leave open the last digits of the number, and setting these all to the least or all to the
greatest digit makes a character again (`exists_completion`). The least digits alone would not do,
since they may give a number that takes fewer bytes, nor would the greatest, which may give a
surrogate.
-/

namespace Lineage.Text

open String

theorem toNat_range (c : Char) :
    c.toNat < 0xD800 ∨ 0xE000 ≤ c.toNat ∧ c.toNat < 0x110000 := by
  have hvalid : c.toNat.isValidChar := c.valid
  rcases hvalid with h | h <;> omega

theorem exists_toNat_eq {n : Nat} (h : n < 0xD800 ∨ 0xE000 ≤ n ∧ n < 0x110000) :
    ∃ c : Char, c.toNat = n := by
  have hvalid : n.isValidChar := by
    unfold Nat.isValidChar
    omega
  refine ⟨Char.ofNat n, ?_⟩
  rw [Char.ofNat, dif_pos hvalid]
  rfl

/-! ## The four lengths -/

variable {c : Char} {k : Nat}

theorem encode_one (h : c.toNat ≤ 0x7F) : utf8EncodeChar c = [.ofNat c.toNat] :=
  if_pos h

theorem encode_two (h₁ : 0x7F < c.toNat) (h₂ : c.toNat ≤ 0x7FF) :
    utf8EncodeChar c = [.ofNat (c.toNat / 64 % 32 + 0xC0), .ofNat (c.toNat % 64 + 0x80)] :=
  (if_neg (Nat.not_le.2 h₁)).trans (if_pos h₂)

theorem encode_three (h₁ : 0x7FF < c.toNat) (h₂ : c.toNat ≤ 0xFFFF) :
    utf8EncodeChar c = [.ofNat (c.toNat / 4096 % 16 + 0xE0), .ofNat (c.toNat / 64 % 64 + 0x80),
      .ofNat (c.toNat % 64 + 0x80)] :=
  (if_neg (by show ¬ c.toNat ≤ _; omega)).trans ((if_neg (Nat.not_le.2 h₁)).trans (if_pos h₂))

theorem encode_four (h : 0xFFFF < c.toNat) :
    utf8EncodeChar c = [.ofNat (c.toNat / 262144 % 8 + 0xF0), .ofNat (c.toNat / 4096 % 64 + 0x80),
      .ofNat (c.toNat / 64 % 64 + 0x80), .ofNat (c.toNat % 64 + 0x80)] :=
  (if_neg (by show ¬ c.toNat ≤ _; omega)).trans
    ((if_neg (by show ¬ c.toNat ≤ _; omega)).trans (if_neg (Nat.not_le.2 h)))

/-! ## Completing a character -/

/-- Whether the first bytes of a character, so many of them, become a character by repeating one end
of the range of the bytes that may follow. -/
def Completes (c : Char) (k : Nat) : Prop :=
  ∃ last ∈ [(0x80 : UInt8), 0xBF], ∃ d : Char,
    (utf8EncodeChar c).take k ++ List.replicate ((utf8EncodeChar c).length - k) last
      = utf8EncodeChar d

theorem completes_two (h₁ : 0x7F < c.toNat) (h₂ : c.toNat ≤ 0x7FF) (hpos : 0 < k) (hk : k < 2) :
    Completes c k := by
  obtain rfl : k = 1 := by omega
  obtain ⟨d, hd⟩ := exists_toNat_eq (n := c.toNat / 64 * 64) (by omega)
  refine ⟨0x80, by simp, d, ?_⟩
  rw [encode_two h₁ h₂, encode_two (c := d) (by omega) (by omega), hd]
  simp

theorem completes_three (h₁ : 0x7FF < c.toNat) (h₂ : c.toNat ≤ 0xFFFF) (hpos : 0 < k)
    (hk : k < 3) : Completes c k := by
  have hrange := toNat_range c
  obtain rfl | rfl : k = 1 ∨ k = 2 := by omega
  · rcases Nat.lt_or_ge c.toNat 0x1000 with hsmall | hlarge
    · -- the lead byte alone would also start a number that two bytes are enough for
      obtain ⟨d, hd⟩ := exists_toNat_eq (n := 0xFFF) (by omega)
      have hlead : c.toNat / 4096 = 0 := by omega
      refine ⟨0xBF, by simp, d, ?_⟩
      rw [encode_three h₁ h₂, encode_three (c := d) (by omega) (by omega), hd]
      simp [hlead]
    · obtain ⟨d, hd⟩ := exists_toNat_eq (n := c.toNat / 4096 * 4096) (by omega)
      have hsecond : d.toNat / 64 % 64 = 0 := by omega
      have hthird : d.toNat % 64 = 0 := by omega
      refine ⟨0x80, by simp, d, ?_⟩
      rw [encode_three h₁ h₂, encode_three (c := d) (by omega) (by omega), hsecond, hthird, hd]
      simp
  · obtain ⟨d, hd⟩ := exists_toNat_eq (n := c.toNat / 64 * 64) (by omega)
    have hlead : d.toNat / 4096 = c.toNat / 4096 := by omega
    refine ⟨0x80, by simp, d, ?_⟩
    rw [encode_three h₁ h₂, encode_three (c := d) (by omega) (by omega), hlead, hd]
    simp

theorem completes_four (h : 0xFFFF < c.toNat) (hpos : 0 < k) (hk : k < 4) : Completes c k := by
  have hrange := toNat_range c
  obtain rfl | rfl | rfl : k = 1 ∨ k = 2 ∨ k = 3 := by omega
  · rcases Nat.lt_or_ge c.toNat 0x40000 with hsmall | hlarge
    · -- the lead byte alone would also start a number that three bytes are enough for
      obtain ⟨d, hd⟩ := exists_toNat_eq (n := 0x3FFFF) (by omega)
      have hlead : c.toNat / 262144 = 0 := by omega
      refine ⟨0xBF, by simp, d, ?_⟩
      rw [encode_four h, encode_four (c := d) (by omega), hd]
      simp [hlead]
    · obtain ⟨d, hd⟩ := exists_toNat_eq (n := c.toNat / 262144 * 262144) (by omega)
      have hsecond : d.toNat / 4096 % 64 = 0 := by omega
      have hthird : d.toNat / 64 % 64 = 0 := by omega
      have hfourth : d.toNat % 64 = 0 := by omega
      refine ⟨0x80, by simp, d, ?_⟩
      rw [encode_four h, encode_four (c := d) (by omega), hsecond, hthird, hfourth, hd]
      simp
  · obtain ⟨d, hd⟩ := exists_toNat_eq (n := c.toNat / 4096 * 4096) (by omega)
    have hlead : d.toNat / 262144 = c.toNat / 262144 := by omega
    have hthird : d.toNat / 64 % 64 = 0 := by omega
    have hfourth : d.toNat % 64 = 0 := by omega
    refine ⟨0x80, by simp, d, ?_⟩
    rw [encode_four h, encode_four (c := d) (by omega), hlead, hthird, hfourth, hd]
    simp
  · obtain ⟨d, hd⟩ := exists_toNat_eq (n := c.toNat / 64 * 64) (by omega)
    have hlead : d.toNat / 262144 = c.toNat / 262144 := by omega
    have hsecond : d.toNat / 4096 = c.toNat / 4096 := by omega
    refine ⟨0x80, by simp, d, ?_⟩
    rw [encode_four h, encode_four (c := d) (by omega), hlead, hsecond, hd]
    simp

/-- The first bytes of a character, if there are more, can be completed. -/
theorem exists_completion (hpos : 0 < k) (hk : k < (utf8EncodeChar c).length) :
    Completes c k := by
  rcases Nat.lt_or_ge 0x7F c.toNat with h₁ | h₁
  · rcases Nat.lt_or_ge 0x7FF c.toNat with h₂ | h₂
    · rcases Nat.lt_or_ge 0xFFFF c.toNat with h₃ | h₃
      · exact completes_four h₃ hpos (by simpa [encode_four h₃] using hk)
      · exact completes_three h₂ h₃ hpos (by simpa [encode_three h₂ h₃] using hk)
    · exact completes_two h₁ h₂ hpos (by simpa [encode_two h₁ h₂] using hk)
  · have hone : k < 1 := by simpa [encode_one h₁] using hk
    omega

end Lineage.Text
