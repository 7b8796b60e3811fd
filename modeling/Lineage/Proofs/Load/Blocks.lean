import Mathlib.Data.Char
import Lineage.Load.Blocks
import Lineage.Proofs.Text.Encoding

/-!
# Texts read in blocks

A chunk of a file may end inside a character. The bytes of the unfinished character are found again
at its end, whatever the character is (`unfinishedLength_eq`), so the chunks of a text are cut into
texts. A file that is UTF-8 is therefore read to its end: a data file is unreadable at some block
only if it is not UTF-8 (`not_isValidUTF8_of_unreadable`).
-/

namespace Lineage.Load

open String

/-! ## The length that a byte announces -/

theorem encodedLength_ofNat {n : Nat} (h : n < 256) :
    encodedLength (.ofNat n)
      = if n < 0xC0 then 1 else if n < 0xE0 then 2 else if n < 0xF0 then 3 else 4 := by
  have hn : (UInt8.ofNat n).toNat = n := by
    rw [UInt8.toNat_ofNat']
    omega
  simp only [encodedLength, UInt8.lt_iff_toNat_lt, hn]
  rfl

theorem encodedLength_following (n : Nat) : encodedLength (.ofNat (n % 64 + 0x80)) = 1 := by
  rw [encodedLength_ofNat (by omega), if_pos (by omega)]

/-- The lead byte of a character announces its length, and every other byte stands for itself. -/
theorem map_encodedLength (c : Char) :
    (utf8EncodeChar c).map encodedLength
      = (utf8EncodeChar c).length :: List.replicate ((utf8EncodeChar c).length - 1) 1 := by
  have hrange := Text.toNat_range c
  rcases Nat.lt_or_ge 0x7F c.toNat with h₁ | h₁
  · rcases Nat.lt_or_ge 0x7FF c.toNat with h₂ | h₂
    · rcases Nat.lt_or_ge 0xFFFF c.toNat with h₃ | h₃
      · have hlead := encodedLength_ofNat (n := c.toNat / 262144 % 8 + 0xF0) (by omega)
        rw [if_neg (by omega), if_neg (by omega), if_neg (by omega)] at hlead
        rw [Text.encode_four h₃]
        simp only [List.map_cons, List.map_nil, hlead, encodedLength_following]
        rfl
      · have hlead := encodedLength_ofNat (n := c.toNat / 4096 % 16 + 0xE0) (by omega)
        rw [if_neg (by omega), if_neg (by omega), if_pos (by omega)] at hlead
        rw [Text.encode_three h₂ h₃]
        simp only [List.map_cons, List.map_nil, hlead, encodedLength_following]
        rfl
    · have hlead := encodedLength_ofNat (n := c.toNat / 64 % 32 + 0xC0) (by omega)
      rw [if_neg (by omega), if_pos (by omega)] at hlead
      rw [Text.encode_two h₁ h₂]
      simp only [List.map_cons, List.map_nil, hlead, encodedLength_following]
      rfl
  · have hlead := encodedLength_ofNat (n := c.toNat) (by omega)
    rw [if_pos (by omega)] at hlead
    rw [Text.encode_one h₁]
    simp only [List.map_cons, List.map_nil, hlead]
    rfl

/-- No byte of a character announces more bytes than there are from it on, and no byte behind the
first announces any other. -/
theorem encodedLength_of_char {c : Char} {before behind : List UInt8} {b : UInt8}
    (h : utf8EncodeChar c = before ++ b :: behind) :
    encodedLength b = if before = [] then behind.length + 1 else 1 := by
  have hmap := map_encodedLength c
  rw [h] at hmap
  cases before with
  | nil =>
    rw [List.nil_append, List.map_cons] at hmap
    exact (List.cons.inj hmap).1
  | cons a before =>
    have hones : before.map encodedLength ++ encodedLength b :: behind.map encodedLength
        = List.replicate (before.length + (behind.length + 1)) 1 := by
      simpa using (List.cons.inj hmap).2
    have hmem : encodedLength b ∈ List.replicate (before.length + (behind.length + 1)) 1 := by
      rw [← hones]
      simp
    simpa using List.eq_of_mem_replicate hmem

/-- No byte of a text announces more bytes than there are from it on. -/
theorem encodedLength_le_of_text {cs : List Char} {before behind : List UInt8} {b : UInt8}
    (h : cs.flatMap utf8EncodeChar = before ++ b :: behind) :
    encodedLength b ≤ behind.length + 1 := by
  induction cs generalizing before with
  | nil => simp at h
  | cons c cs ih =>
    rw [List.flatMap_cons, List.append_eq_append_iff] at h
    obtain ⟨more, -, hcs⟩ | ⟨more, hc, hmore⟩ := h
    · exact ih hcs
    · cases more with
      | nil =>
        have hrest : cs.flatMap utf8EncodeChar = [] ++ b :: behind := hmore.symm
        exact ih hrest
      | cons b' rest =>
        obtain ⟨rfl, rfl⟩ := List.cons.inj hmore
        have hlength := encodedLength_of_char hc
        split at hlength <;> simp [hlength]

/-! ## Finding the unfinished character -/

theorem isUnfinished_eq_false {bs : List UInt8} (h : encodedLength (bs.headD 0) ≤ bs.length) :
    isUnfinished bs = false := by
  have hmissing : encodedLength (bs.headD 0) - bs.length = 0 := by omega
  unfold isUnfinished
  rw [hmissing]
  rfl

theorem isUnfinished_take {c : Char} {k : Nat} (hpos : 0 < k)
    (hk : k < (utf8EncodeChar c).length) : isUnfinished ((utf8EncodeChar c).take k) = true := by
  obtain ⟨last, hlast, d, hd⟩ := Text.exists_completion hpos hk
  have hlead : encodedLength (((utf8EncodeChar c).take k).headD 0) = (utf8EncodeChar c).length := by
    obtain ⟨b, rest, hc⟩ := List.exists_cons_of_ne_nil (utf8EncodeChar_ne_nil (c := c))
    obtain ⟨k, rfl⟩ := Nat.exists_eq_add_of_lt hpos
    have hstart : utf8EncodeChar c = [] ++ b :: rest := hc
    simpa [hc] using encodedLength_of_char hstart
  have htaken : ((utf8EncodeChar c).take k).length = k := by
    rw [List.length_take]
    omega
  unfold isUnfinished
  rw [hlead, htaken]
  simp only [Bool.and_eq_true, decide_eq_true_eq, List.any_eq_true]
  refine ⟨by omega, last, hlast, ?_⟩
  have hvalid : ByteArray.IsValidUTF8 ⟨(utf8EncodeChar d).toArray⟩ := by
    refine ⟨[d], ByteArray.ext ?_⟩
    rw [List.utf8Encode, List.data_toByteArray, List.flatMap_singleton]
  rw [hd, fromUTF8?, dif_pos hvalid]
  rfl

theorem toList_eq_data (b : ByteArray) : b.toList = b.data.toList := by
  have hloop : ∀ i r, ByteArray.toList.loop b i r = r.reverse ++ b.data.toList.drop i := by
    intro i r
    fun_induction ByteArray.toList.loop b i r with
    | case1 i r h ih =>
      have hi : i < b.data.toList.length := by simpa using h
      have hget : b.get! i = b.data.toList[i] := by
        simp [ByteArray.get!, getElem!_pos, h]
      rw [ih, List.drop_eq_getElem_cons hi, hget]
      simp
    | case2 i r h =>
      have hi : b.data.toList.length ≤ i := by simpa using h
      simp [List.drop_eq_nil_of_le hi]
  exact hloop 0 []

/-- Bytes that are a text but for an unfinished character at the end, of which there are so many
bytes. -/
def EndsUnfinished (b : ByteArray) (k : Nat) : Prop :=
  ∃ (cs : List Char) (c : Char), k < (utf8EncodeChar c).length ∧
    b.data.toList = cs.flatMap utf8EncodeChar ++ (utf8EncodeChar c).take k

section

variable {l : List UInt8} {cs : List Char} {c : Char} {k n : Nat}

theorem isUnfinished_drop_of_lt (hl : l = cs.flatMap utf8EncodeChar ++ (utf8EncodeChar c).take k)
    (hk : k < (utf8EncodeChar c).length) (hpos : 0 < n) (hn : n < k ∨ k = 0)
    (hle : n ≤ l.length) : isUnfinished (l.drop (l.length - n)) = false := by
  obtain ⟨b, behind, hdrop⟩ := List.exists_cons_of_ne_nil
    (l := l.drop (l.length - n)) (by simp; omega)
  have hlength : behind.length + 1 = n := by
    have := congrArg List.length hdrop
    simp at this
    omega
  refine isUnfinished_eq_false ?_
  rw [hdrop]
  show encodedLength b ≤ behind.length + 1
  obtain hn | rfl := hn
  · have htaken : ((utf8EncodeChar c).take k).length = k := by
      rw [List.length_take]
      omega
    have hpart : ((utf8EncodeChar c).take k).drop (k - n) = b :: behind := by
      have hstart : l.length - n = (cs.flatMap utf8EncodeChar).length + (k - n) := by
        rw [hl, List.length_append, htaken]
        omega
      rw [← hdrop, hstart, hl, List.drop_append, Nat.add_sub_cancel_left]
      simp
    have hchar : utf8EncodeChar c =
        (utf8EncodeChar c).take (k - n) ++ b :: (behind ++ (utf8EncodeChar c).drop k) := by
      rw [← List.cons_append, ← hpart, ← List.drop_append_of_le_length (by omega),
        List.take_append_drop, List.take_append_drop]
    have hone := encodedLength_of_char hchar
    rw [if_neg (by simp; omega)] at hone
    omega
  · have htext : cs.flatMap utf8EncodeChar = l.take (l.length - n) ++ b :: behind := by
      rw [← hdrop, List.take_append_drop, hl]
      simp
    exact encodedLength_le_of_text htext

end

theorem unfinishedLength_eq {b : ByteArray} {k : Nat} (h : EndsUnfinished b k) :
    unfinishedLength b = k := by
  obtain ⟨cs, c, hk, hb⟩ := h
  have hle := Char.utf8Size_le_four c
  rw [← length_utf8EncodeChar] at hle
  have htail : ∀ n, (b.extract (b.size - n) b.size).toList
      = b.data.toList.drop (b.data.toList.length - n) := by
    intro n
    rw [toList_eq_data, ByteArray.data_extract, Array.toList_extract, List.extract_eq_take_drop]
    exact List.take_of_length_le (by simp)
  have hshort : ∀ n, 0 < n → n < k ∨ k = 0 →
      (decide (n ≤ b.size) && isUnfinished (b.extract (b.size - n) b.size).toList) = false := by
    intro n hpos hn
    rw [htail, Bool.and_eq_false_imp]
    exact fun hle => isUnfinished_drop_of_lt hb hk hpos hn (by simpa using hle)
  have hfound : 0 < k →
      (decide (k ≤ b.size) && isUnfinished (b.extract (b.size - k) b.size).toList) = true := by
    intro hpos
    have hlength : b.data.toList.length = (cs.flatMap utf8EncodeChar).length + k := by
      rw [hb, List.length_append, List.length_take]
      omega
    rw [htail, Bool.and_eq_true, decide_eq_true_eq]
    refine ⟨by simp at hlength; omega, ?_⟩
    rw [hlength, Nat.add_sub_cancel, hb, List.drop_left]
    exact isUnfinished_take hpos hk
  -- lengths from one to three are tried in turn, and no character has more than four bytes
  unfold unfinishedLength
  obtain rfl | rfl | rfl | rfl : k = 0 ∨ k = 1 ∨ k = 2 ∨ k = 3 := by omega
  · simp [List.find?, hshort]
  · simp [List.find?, hfound]
  · simp [List.find?, hshort, hfound]
  · simp [List.find?, hshort, hfound]

/-! ## Chunks of a text -/

/-- The first bytes of a text, so many of them, are a text but for an unfinished character. -/
theorem exists_cut (cs : List Char) (n : Nat) :
    ∃ before behind c k, cs = before ++ behind ∧ k < (utf8EncodeChar c).length ∧
      (cs.flatMap utf8EncodeChar).take n
        = before.flatMap utf8EncodeChar ++ (utf8EncodeChar c).take k := by
  induction cs generalizing n with
  | nil => exact ⟨[], [], 'a', 0, rfl, by decide, by simp⟩
  | cons c cs ih =>
    rcases Nat.lt_or_ge n (utf8EncodeChar c).length with hn | hn
    · refine ⟨[], c :: cs, c, n, rfl, hn, ?_⟩
      rw [List.flatMap_cons, List.take_append_of_le_length (Nat.le_of_lt hn)]
      rfl
    · obtain ⟨before, behind, d, k, rfl, hk, hcut⟩ := ih (n - (utf8EncodeChar c).length)
      refine ⟨c :: before, behind, d, k, rfl, hk, ?_⟩
      rw [List.flatMap_cons, List.take_append, List.take_of_length_le hn, hcut, List.flatMap_cons,
        List.append_assoc]

/-- Cutting off the unfinished character of the first bytes of a text leaves a text. -/
theorem exists_whole {cs : List Char} {b : ByteArray} {n : Nat}
    (h : b = cs.utf8Encode.extract 0 n) :
    ∃ before behind, cs = before ++ behind ∧
      b.extract 0 (b.size - unfinishedLength b) = before.utf8Encode := by
  obtain ⟨before, behind, c, k, rfl, hk, hcut⟩ := exists_cut cs n
  have hb : b.data.toList = before.flatMap utf8EncodeChar ++ (utf8EncodeChar c).take k := by
    rw [← hcut, h, ByteArray.data_extract, Array.toList_extract, List.extract_eq_take_drop,
      List.utf8Encode, List.data_toByteArray]
    rfl
  have hsize : b.size = (before.flatMap utf8EncodeChar).length + k := by
    have := congrArg List.length hb
    rwa [List.length_append, List.length_take, Nat.min_eq_left (Nat.le_of_lt hk)] at this
  rw [unfinishedLength_eq ⟨before, c, hk, hb⟩]
  refine ⟨before, behind, rfl, ByteArray.ext (Array.toList_inj.1 ?_)⟩
  rw [hsize, Nat.add_sub_cancel, ByteArray.data_extract, Array.toList_extract,
    List.extract_eq_take_drop, hb, List.utf8Encode, List.data_toByteArray]
  simp

namespace Feed

/-- Some characters of a file are decoded, and the bytes kept of the last chunk start the rest. -/
structure Decodes (f : Feed) (done rest : List Char) : Prop where
  bytes : f.bytes = (done ++ rest).utf8Encode
  le_fetched : done.utf8Encode.size ≤ f.fetched
  fetched_le : f.fetched ≤ f.bytes.size
  unfinished : f.unfinished = f.bytes.extract done.utf8Encode.size f.fetched

/-- A file that is UTF-8, as it is being read. -/
def IsText (f : Feed) : Prop :=
  ∃ done rest, f.Decodes done rest

variable {f g : Feed} {done rest : List Char} {wanted : Nat}

theorem isText_of_isValidUTF8 {bytes : ByteArray} (h : bytes.IsValidUTF8) :
    ({ bytes } : Feed).IsText := by
  obtain ⟨cs, rfl⟩ := h
  exact ⟨[], cs, rfl, Nat.le_refl _, Nat.zero_le _, by simp⟩

/-! ### One chunk -/

/-- The next chunk of a file. -/
def nextChunk (f : Feed) (wanted : Nat) : ByteArray :=
  f.bytes.extract f.fetched (f.fetched + f.chunkSize wanted)

/-- The bytes that the next chunk gives to decode. -/
def given (f : Feed) (wanted : Nat) : ByteArray :=
  f.unfinished ++ f.nextChunk wanted

/-- The number of bytes that are decoded with the next chunk. -/
def whole (f : Feed) (wanted : Nat) : Nat :=
  (f.given wanted).size -
    if (f.nextChunk wanted).isEmpty then 0 else unfinishedLength (f.given wanted)

theorem isSome_fetch (h : ((f.given wanted).extract 0 (f.whole wanted)).IsValidUTF8) :
    (f.fetch wanted).isSome = true := by
  unfold whole given nextChunk at h
  unfold fetch
  simp only [Option.isSome_map, fromUTF8?, dif_pos h, Option.isSome_some]

theorem fields_of_fetch (h : f.fetch wanted = some g) :
    g.bytes = f.bytes ∧ g.fetched = f.fetched + (f.nextChunk wanted).size ∧
      g.unfinished = (f.given wanted).extract (f.whole wanted) (f.given wanted).size := by
  unfold fetch at h
  obtain ⟨s, -, rfl⟩ := Option.map_eq_some_iff.1 h
  exact ⟨rfl, rfl, rfl⟩

theorem whole_le (f : Feed) (wanted : Nat) : f.whole wanted ≤ (f.given wanted).size :=
  Nat.sub_le ..

theorem size_nextChunk (f : Feed) (wanted : Nat) :
    (f.nextChunk wanted).size = min (f.fetched + f.chunkSize wanted) f.bytes.size - f.fetched :=
  ByteArray.size_extract

theorem lt_next (f : Feed) (wanted : Nat) : f.fetched < f.fetched + f.chunkSize wanted := by
  have hleast : leastChunk ≤ f.chunkSize wanted := Nat.le_max_left ..
  unfold leastChunk at hleast
  omega

theorem Decodes.given_eq (h : f.Decodes done rest) (wanted : Nat) :
    f.given wanted
      = f.bytes.extract done.utf8Encode.size (f.fetched + f.chunkSize wanted) := by
  rw [given, nextChunk, h.unfinished, ByteArray.extract_append_extract,
    Nat.min_eq_left h.le_fetched, Nat.max_eq_right (Nat.le_of_lt (f.lt_next wanted))]

theorem Decodes.size_given (h : f.Decodes done rest) (wanted : Nat) :
    done.utf8Encode.size + (f.given wanted).size = f.fetched + (f.nextChunk wanted).size := by
  have hle := h.le_fetched
  have hfetched := h.fetched_le
  have hnext := f.lt_next wanted
  rw [h.given_eq, size_nextChunk, ByteArray.size_extract]
  omega

/-- What is given to decode are the first bytes of the rest. -/
theorem Decodes.given_eq_extract_rest (h : f.Decodes done rest) (wanted : Nat) :
    f.given wanted
      = rest.utf8Encode.extract 0 (f.fetched + f.chunkSize wanted - done.utf8Encode.size) := by
  have hle := h.le_fetched
  have hnone : done.utf8Encode.extract done.utf8Encode.size (f.fetched + f.chunkSize wanted)
      = .empty := ByteArray.extract_eq_empty_iff.2 (by omega)
  rw [h.given_eq, h.bytes, List.utf8Encode_append, ByteArray.extract_append, hnone,
    ByteArray.empty_append, Nat.sub_self]

/-- At the end of the file all of the rest is given. -/
theorem Decodes.given_eq_rest (h : f.Decodes done rest)
    (hempty : (f.nextChunk wanted).isEmpty = true) : f.given wanted = rest.utf8Encode := by
  have hnone : (f.nextChunk wanted).size = 0 := by simpa [ByteArray.isEmpty] using hempty
  have htotal : f.bytes.size = done.utf8Encode.size + rest.utf8Encode.size := by
    rw [h.bytes, List.utf8Encode_append, ByteArray.size_append]
  have hfetched := h.fetched_le
  have hnext := f.lt_next wanted
  rw [size_nextChunk] at hnone
  have hmax : f.fetched + f.chunkSize wanted - done.utf8Encode.size
      = max (f.fetched + f.chunkSize wanted - done.utf8Encode.size) rest.utf8Encode.size := by
    omega
  rw [h.given_eq_extract_rest, hmax, ByteArray.extract_zero_max_size]

/-- The bytes that are decoded are those of a text in front of the rest. -/
theorem Decodes.exists_decoded (h : f.Decodes done rest) (wanted : Nat) :
    ∃ before behind, rest = before ++ behind ∧
      (f.given wanted).extract 0 (f.whole wanted) = before.utf8Encode := by
  unfold whole
  split
  · rename_i hempty
    refine ⟨rest, [], (List.append_nil _).symm, ?_⟩
    rw [Nat.sub_zero, ByteArray.extract_zero_size, h.given_eq_rest hempty]
  · exact exists_whole (h.given_eq_extract_rest wanted)

/-- Fetching a chunk decodes a part of the rest. -/
theorem Decodes.fetch {before behind : List Char} (h : f.Decodes done (before ++ behind))
    (hbefore : (f.given wanted).extract 0 (f.whole wanted) = before.utf8Encode)
    (hg : f.fetch wanted = some g) : g.Decodes (done ++ before) behind := by
  obtain ⟨hbytes, hfetched, hunfinished⟩ := fields_of_fetch hg
  have hwhole : before.utf8Encode.size = f.whole wanted := by
    rw [← hbefore, ByteArray.size_extract, Nat.min_eq_left (f.whole_le wanted), Nat.sub_zero]
  have hdone : (done ++ before).utf8Encode.size = done.utf8Encode.size + f.whole wanted := by
    rw [List.utf8Encode_append, ByteArray.size_append, hwhole]
  have hle := f.whole_le wanted
  have hsize := h.size_given wanted
  have hchunk := f.size_nextChunk wanted
  have hinside := h.fetched_le
  refine ⟨?_, by omega, by rw [hbytes]; omega, ?_⟩
  · rw [hbytes, List.append_assoc]
    exact h.bytes
  · -- the bytes kept lie between what is decoded and the end of the chunk
    have hend : min (done.utf8Encode.size + (f.given wanted).size)
        (f.fetched + f.chunkSize wanted) = f.fetched + (f.nextChunk wanted).size := by omega
    rw [hunfinished, hbytes, hdone, hfetched, ← hend, ← ByteArray.extract_extract, ← h.given_eq]

/-- Fetching a chunk of a text succeeds and leaves a text. -/
theorem exists_fetch (hf : f.IsText) (wanted : Nat) :
    ∃ g, f.fetch wanted = some g ∧ g.IsText := by
  obtain ⟨done, rest, h⟩ := hf
  obtain ⟨before, behind, rfl, hbefore⟩ := h.exists_decoded wanted
  obtain ⟨g, hg⟩ := Option.isSome_iff_exists.1 (isSome_fetch ⟨before, hbefore⟩)
  exact ⟨g, hg, done ++ before, behind, h.fetch hbefore hg⟩

/-! ### The whole file -/

theorem exists_prepare (hf : f.IsText) (size bound : Nat) :
    ∃ g, f.prepare size bound = some g ∧ g.IsText := by
  induction bound generalizing f with
  | zero => exact ⟨f, rfl, hf⟩
  | succ bound ih =>
    unfold prepare
    split
    · exact ⟨f, rfl, hf⟩
    · obtain ⟨g, hg, htext⟩ := exists_fetch hf (size - f.ready.length)
      rw [hg]
      simp only [bind, Option.bind]
      split
      · exact ⟨g, rfl, htext⟩
      · exact ih htext

theorem exists_block (hf : f.IsText) : ∃ cs g, f.block = some (cs, g) ∧ g.IsText := by
  obtain ⟨g, hg, done, rest, h⟩ := exists_prepare hf blockSize (f.bytes.size + 3)
  refine ⟨g.ready.take blockSize, { g with ready := g.ready.drop blockSize }, ?_, done, rest,
    h.bytes, h.le_fetched, h.fetched_le, h.unfinished⟩
  rw [block, hg]
  rfl

theorem exists_passage (hf : f.IsText) (first : Bool) :
    ∃ cs g, f.passage first = some (cs, g) ∧ g.IsText := by
  obtain ⟨cs, g, hg, htext⟩ := exists_block hf
  unfold passage
  rw [hg]
  cases first with
  | false => exact ⟨cs, g, rfl, htext⟩
  | true =>
    obtain ⟨more, g', hg', htext'⟩ := exists_block htext
    refine ⟨cs ++ more, g', ?_, htext'⟩
    simp only [Option.bind_eq_bind, Option.bind_some, if_true, hg']

theorem fault_readRest (hf : f.IsText) (bound : Nat) (first : Bool) (before : List (List Char)) :
    (f.readRest bound first before).fault ≠ some .unreadable := by
  induction bound generalizing f first before with
  | zero => simp [readRest]
  | succ bound ih =>
    obtain ⟨cs, g, hg, htext⟩ := exists_passage hf first
    unfold readRest
    rw [hg]
    cases cs with
    | nil => simp
    | cons c cs =>
      simp only
      split
      · exact ih htext false _
      · simp

end Feed

/-- A data file in which some block cannot be read is not UTF-8. -/
theorem not_isValidUTF8_of_unreadable {bytes : ByteArray}
    (h : (sourceOfBytes bytes).fault = some .unreadable) : ¬ bytes.IsValidUTF8 :=
  fun hvalid => Feed.fault_readRest (Feed.isText_of_isValidUTF8 hvalid) _ _ _ h

/-- A data file is read up to its end, up to a block that is not UTF-8, or up to a character that no
document may hold. -/
theorem fault_sourceOfBytes (bytes : ByteArray) :
    (sourceOfBytes bytes).fault = none ∨ (sourceOfBytes bytes).fault = some .malformed ∨
      (sourceOfBytes bytes).fault = some .unreadable := by
  have hrest (bound : Nat) : ∀ (f : Feed) (first : Bool) (before : List (List Char)),
      (f.readRest bound first before).fault = none ∨
        (f.readRest bound first before).fault = some .malformed ∨
        (f.readRest bound first before).fault = some .unreadable := by
    induction bound with
    | zero => exact fun _ _ _ => .inl rfl
    | succ bound ih =>
      intro f first before
      unfold Feed.readRest
      dsimp only
      split
      · exact .inr (.inr rfl)
      · exact .inl rfl
      · split
        · exact ih ..
        · exact .inr (.inl rfl)
  exact hrest ..

end Lineage.Load
