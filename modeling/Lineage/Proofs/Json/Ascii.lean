import Lineage.Json.Indented
import Lineage.Proofs.Text.Ascii

/-!
# JSON text is ASCII

Whatever a value holds, its text is in ASCII (`Json.ascii_render`): numbers and punctuation are, and
any other code point in a text is spelled out.
-/

namespace Lineage

open Text

/-! ## Numbers -/

namespace Decimal

/-- A decimal is written with digits, a point and an exponent. -/
theorem Scientific.ascii_render (s : Scientific) (layout : Layout) :
    Ascii (s.render layout).toList := by
  have hdigits := ascii_toDigits 10 s.digits
  have hzeros := ascii_replicate (c := '0') (by decide)
  have htake (n : Nat) := hdigits.subset (List.take_subset n _)
  have hdrop (n : Nat) := hdigits.subset (List.drop_subset n _)
  unfold render
  dsimp only
  split
  · split
    · simp [hzeros]
    · split
      · simp [hzeros]
      · simp [htake, hdrop]
  · have hsign : (if s.point - 1 < 0 then '-' else '+' : Char).toNat < 0x80 := by
      split <;> decide
    have hrest : Ascii (if ((Nat.toDigits 10 s.digits).drop 1).isEmpty then []
        else '.' :: (Nat.toDigits 10 s.digits).drop 1) := by
      split
      · exact ascii_nil
      · exact ascii_cons.2 ⟨by decide, hdrop 1⟩
    rw [String.toList_ofList]
    simp only [ascii_append, ascii_cons]
    exact ⟨⟨⟨htake 1, hrest⟩, by decide, hsign, hzeros _⟩, ascii_toDigits _ _⟩

/-- A double is written in ASCII if the words for what is no number are. -/
theorem ascii_render {layout : Layout} (hinfinity : Ascii layout.infinity.toList)
    (hnumber : Ascii layout.notANumber.toList) (x : Float) : Ascii (render x layout).toList := by
  have hbody {body : String} (negative : Bool) (h : Ascii body.toList) :
      Ascii (if negative then "-" ++ body else body).toList := by
    split
    · rw [String.toList_append, ascii_append]
      exact ⟨by decide, h⟩
    · exact h
  unfold render
  dsimp only
  split
  · split
    · exact hnumber
    · exact hbody _ hinfinity
  · refine hbody _ ?_
    split
    · decide
    · exact Scientific.ascii_render _ _

end Decimal

/-! ## Texts -/

theorem Text.ascii_hexPadded (width n : Nat) : Ascii (hexPadded width n) :=
  ascii_append.2 ⟨ascii_replicate (by decide) _, ascii_toDigits _ _⟩

/-- A surrogate is spelled by its number. -/
theorem Text.ascii_surrogateSpelling (place : Fin 0x800) : Ascii (surrogateSpelling place) :=
  ascii_cons.2 ⟨by decide, ascii_cons.2 ⟨by decide, ascii_hexPadded _ _⟩⟩

namespace Json

theorem ascii_escapeUnit (n : Nat) : Ascii (escapeUnit n) :=
  ascii_cons.2 ⟨by decide, ascii_cons.2 ⟨by decide, ascii_hexPadded _ _⟩⟩

/-- What stands for itself in a text is in ASCII. -/
theorem ascii_escapeChar (c : Char) : Ascii (escapeChar c) := by
  unfold escapeChar
  -- the seven characters with escapes of their own
  iterate 7 (split; · decide)
  split
  · rename_i hshown
    obtain ⟨-, hlast⟩ := Bool.and_eq_true_iff.1 hshown
    have hle : c.toNat ≤ '~'.toNat := of_decide_eq_true hlast
    exact ascii_cons.2 ⟨Nat.lt_of_le_of_lt hle (by decide), ascii_nil⟩
  · split
    · exact ascii_escapeUnit _
    · exact ascii_append.2 ⟨ascii_escapeUnit _, ascii_escapeUnit _⟩

/-- A text is written in ASCII between its quotes, whatever it holds. -/
theorem ascii_encodeText (t : Text) : Ascii (encodeText t).toList := by
  have hpoints : Ascii (t.codePoints.flatMap escapePoint) := by
    intro c hc
    obtain ⟨p, _, hc⟩ := List.mem_flatMap.1 hc
    cases p with
    | char d => exact ascii_escapeChar d c hc
    | surrogate place => exact ascii_surrogateSpelling place c hc
  unfold encodeText
  rw [String.toList_ofList, List.cons_append, ascii_cons, ascii_append]
  exact ⟨by decide, hpoints, by decide⟩

/-! ## Values -/

theorem ascii_lineStart (depth : Nat) : Ascii (lineStart depth).toList := by
  unfold lineStart
  rw [String.toList_ofList]
  exact ascii_cons.2 ⟨by decide, ascii_replicate (by decide) _⟩

/-- A whole number has at most a sign before its digits. -/
theorem ascii_toString_int (i : Int) : Ascii (toString i).toList := by
  cases i with
  | ofNat n => exact ascii_toString n
  | negSucc n =>
    show Ascii ("-" ++ (n + 1).repr).toList
    rw [String.toList_append, ascii_append]
    exact ⟨by decide, ascii_toString (n + 1)⟩

mutual

/-- The text of a value is in ASCII at every depth. -/
theorem ascii_renderAt (depth : Nat) : (j : Json) → Ascii (renderAt depth j).toList
  | null => by unfold renderAt; decide
  | bool true => by unfold renderAt; decide
  | bool false => by unfold renderAt; decide
  | int i => by
    unfold renderAt
    exact ascii_toString_int i
  | real x => by
    unfold renderAt
    exact Decimal.ascii_render (by decide) (by decide) x
  | text t => by
    unfold renderAt
    exact ascii_encodeText t
  | list [] => by unfold renderAt; decide
  | list (x :: xs) => by
    unfold renderAt
    simp only [String.toList_append, ascii_append]
    exact ⟨⟨⟨⟨⟨by decide, ascii_lineStart _⟩, ascii_renderAt _ x⟩, ascii_renderItems _ xs⟩,
      ascii_lineStart _⟩, by decide⟩
  | record [] => by unfold renderAt; decide
  | record ((k, x) :: fs) => by
    unfold renderAt
    simp only [String.toList_append, ascii_append]
    exact ⟨⟨⟨⟨⟨⟨⟨by decide, ascii_lineStart _⟩, ascii_encodeText k⟩, by decide⟩,
      ascii_renderAt _ x⟩, ascii_renderFields _ fs⟩, ascii_lineStart _⟩, by decide⟩

theorem ascii_renderItems (depth : Nat) : (xs : List Json) → Ascii (renderItems depth xs).toList
  | [] => by unfold renderItems; decide
  | x :: xs => by
    unfold renderItems
    simp only [String.toList_append, ascii_append]
    exact ⟨⟨⟨by decide, ascii_lineStart _⟩, ascii_renderAt _ x⟩, ascii_renderItems _ xs⟩

theorem ascii_renderFields (depth : Nat) :
    (fs : List (Text × Json)) → Ascii (renderFields depth fs).toList
  | [] => by unfold renderFields; decide
  | (k, x) :: fs => by
    unfold renderFields
    simp only [String.toList_append, ascii_append]
    exact ⟨⟨⟨⟨⟨by decide, ascii_lineStart _⟩, ascii_encodeText k⟩, by decide⟩,
      ascii_renderAt _ x⟩, ascii_renderFields _ fs⟩

end

/-- The text of a value is in ASCII. -/
theorem ascii_render (j : Json) : Ascii j.render.toList :=
  ascii_renderAt 0 j

end Json

end Lineage
