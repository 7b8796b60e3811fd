import Lineage.Proofs.Yaml.Inline
import Lineage.Proofs.Yaml.Scanning

/-!
# The tokens of values in brackets

Inside brackets the scanner has no lines to watch: `Scanner.Stands` says what it holds in front of
some characters and behind some tokens, each kind of token takes it a step on
(`Scanner.Stands.exists_reaches`), and so a value takes it from its first character to its last one
(`Inline.reaches_chars`). The text of a mapping is read as the tokens that it is meant to be read as
(`Inline.tokens_written`).
-/

namespace Lineage.Yaml

namespace Scanner

open Inline (exists_cons_of_chars)

variable {s t u : Scanner} {depth : Nat} {quiet : Bool} {c : Char} {cs : List Char}
  {ts : List Token} {x : Token} {text : Text}

/-! ## Remembered keys -/

/-- No colon has to follow the remembered key. -/
def Free (k : Option SimpleKey) : Prop :=
  ∀ key, k = some key → key.required = false

theorem free_none : Free none :=
  nofun

theorem exists_refresh {k : Option SimpleKey} (g : Glyph) (hk : Free k) :
    ∃ k', refresh g k = .ok k' ∧ Free k' ∧ (k = none → k' = none) := by
  cases k with
  | none => exact ⟨none, rfl, free_none, id⟩
  | some key =>
    have hkey := hk key rfl
    by_cases hfar : (key.line != g.line || 1024 < g.index - key.index) = true
    · exact ⟨none, by rw [refresh, if_pos hfar, hkey]; rfl, free_none, fun _ => rfl⟩
    · exact ⟨some key, by rw [refresh, if_neg hfar], hk, nofun⟩

theorem exists_mapM_refresh {ks : List (Option SimpleKey)} (g : Glyph) (hks : ∀ k ∈ ks, Free k) :
    ∃ ks', ks.mapM (refresh g) = .ok ks' ∧ (∀ k ∈ ks', Free k) ∧ ks'.length = ks.length := by
  induction ks with
  | nil => exact ⟨[], rfl, hks, rfl⟩
  | cons k ks ih =>
    obtain ⟨hk, hks⟩ := List.forall_mem_cons.1 hks
    obtain ⟨k', hk', hfree, -⟩ := exists_refresh g hk
    obtain ⟨ks', hks', hall, hlength⟩ := ih hks
    refine ⟨k' :: ks', ?_, List.forall_mem_cons.2 ⟨hfree, hall⟩, congrArg (· + 1) hlength⟩
    rw [List.mapM_cons, hk', hks']
    rfl

/-! ## Where the scanner stands -/

/-- The scanner stands inside so many brackets and no block, in front of these characters and behind
these tokens, and no colon has to follow. Where it is quiet, no key is remembered, nor may one start
without a question mark. -/
structure Stands (s : Scanner) (depth : Nat) (quiet : Bool) (cs : List Char) (ts : List Token) :
    Prop where
  chars : chars s.rest = cs
  tokens : s.tokens.toList = ts
  room : cs.length < s.bound
  pending : Free s.pending
  around : ∀ k ∈ s.around, Free k
  depth : s.around.length = depth
  indent : s.indent = -1
  outer : s.outer = []
  silent : quiet = true → s.pending = none ∧ s.allowKey = false

namespace Stands

theorem inFlow (h : s.Stands depth quiet cs ts) : s.inFlow = decide (0 < depth) := by
  rw [Scanner.inFlow, ← h.depth]
  cases s.around <;> rfl

theorem peek (h : s.Stands depth quiet (c :: cs) ts) : peek s.rest = c := by
  obtain ⟨g, rest, hrest, hg, -⟩ := exists_cons_of_chars h.chars
  rw [hrest]
  exact hg

theorem forget (h : s.Stands depth quiet cs ts) : s.forget = .ok { s with pending := none } := by
  cases hpending : s.pending with
  | none =>
    rw [Scanner.forget, hpending]
    exact congrArg Except.ok (by rw [← hpending])
  | some key =>
    rw [Scanner.forget, hpending]
    simp [h.pending key hpending]

theorem unwind (h : s.Stands depth quiet cs ts) (column : Int) : s.unwind column = s := by
  rw [Scanner.unwind, h.outer]
  exact ite_self ..

theorem remember (h : s.Stands depth quiet cs ts) :
    ∃ t, s.remember = .ok t ∧ t.Stands depth quiet cs ts ∧ t.rest = s.rest := by
  by_cases hallow : s.allowKey = true
  · rw [Scanner.remember, if_pos hallow, h.forget]
    refine ⟨_, rfl, { h with pending := ?_, silent := ?_ }, rfl⟩
    · rintro key ⟨⟩
      -- no column is that of the stream itself
      have hcolumn : (-1 == (Yaml.column s.rest : Int)) = false := beq_false_of_ne (by omega)
      simp only [Scanner.column, h.indent, hcolumn, Bool.and_false]
    · intro hquiet
      rw [(h.silent hquiet).2] at hallow
      cases hallow
  · exact ⟨s, by rw [Scanner.remember, if_neg hallow], h, rfl⟩

/-- Where the scanner stands behind a token of one character. -/
theorem take (h : s.Stands depth quiet (c :: cs) ts) (x : Token) {allowKey quiet' : Bool}
    {pending : Option SimpleKey} {around : List (Option SimpleKey)} (hpending : Free pending)
    (haround : ∀ k ∈ around, Free k) (hsilent : quiet' = true → pending = none ∧ allowKey = false) :
    Stands { s.take 1 x with allowKey, pending, around } around.length quiet' cs (ts ++ [x]) := by
  obtain ⟨g, rest, hrest, -, hcs⟩ := exists_cons_of_chars h.chars
  exact {
    chars := by rw [← hcs, Scanner.take, hrest]; rfl
    tokens := by rw [← h.tokens, Scanner.take, Array.toList_push]
    room := Nat.lt_of_succ_lt h.room
    pending := hpending
    around := haround
    depth := rfl
    indent := h.indent
    outer := h.outer
    silent := hsilent }

/-! ## Tokens -/

theorem openFlow (h : s.Stands depth quiet (c :: cs) ts) (x : Token) :
    ∃ t, s.openFlow x = .ok t ∧ t.Stands (depth + 1) false cs (ts ++ [x]) := by
  obtain ⟨u, hu, hstands, -⟩ := h.remember
  rw [Scanner.openFlow, hu, ← hstands.depth]
  exact ⟨_, rfl, hstands.take x free_none
    (List.forall_mem_cons.2 ⟨hstands.pending, hstands.around⟩) nofun⟩

theorem closeFlow (h : s.Stands (depth + 1) quiet (c :: cs) ts) (x : Token) :
    ∃ t, s.closeFlow x = .ok t ∧ t.Stands depth false cs (ts ++ [x]) := by
  rw [Scanner.closeFlow, h.forget]
  cases haround : s.around with
  | nil =>
    have hdepth := h.depth
    rw [haround] at hdepth
    cases hdepth
  | cons k ks =>
    have hfree := h.around
    have hdepth := h.depth
    rw [haround, List.forall_mem_cons] at hfree
    rw [haround, List.length_cons] at hdepth
    rw [← Nat.succ.inj hdepth]
    exact ⟨_, by simp only; rfl, h.take x hfree.1 hfree.2 nofun⟩

theorem flowEntry (h : s.Stands depth quiet (c :: cs) ts) :
    ∃ t, s.flowEntry = .ok t ∧ t.Stands depth false cs (ts ++ [.flowEntry]) := by
  rw [Scanner.flowEntry, h.forget, ← h.depth]
  exact ⟨_, rfl, h.take .flowEntry free_none h.around nofun⟩

theorem keyIndicator (h : s.Stands (depth + 1) quiet (c :: cs) ts) :
    ∃ t, s.keyIndicator = .ok t ∧ t.Stands (depth + 1) true cs (ts ++ [.key]) := by
  have hflow : s.inFlow = true := h.inFlow
  have hhere : s.openBlockHere .blockMappingStart = .ok s := if_pos hflow
  rw [Scanner.keyIndicator, hhere, ← h.depth]
  show ∃ t, s.forget >>= _ = _ ∧ _
  rw [h.forget]
  exact ⟨_, rfl, h.take .key free_none h.around fun _ => ⟨rfl, by
    show (!s.inFlow) = false
    rw [hflow]
    rfl⟩⟩

theorem valueIndicator (h : s.Stands (depth + 1) true (c :: cs) ts) :
    ∃ t, s.valueIndicator = .ok t ∧ t.Stands (depth + 1) false cs (ts ++ [.value]) := by
  obtain ⟨hpending, -⟩ := h.silent rfl
  have hflow : s.inFlow = true := h.inFlow
  have hhere : s.openBlockHere .blockMappingStart = .ok s := if_pos hflow
  rw [Scanner.valueIndicator, hpending, hhere, ← h.depth]
  exact ⟨_, rfl, h.take .value h.pending h.around nofun⟩

theorem content (h : s.Stands depth quiet cs ts) {read : List Glyph → Scan (Token × List Glyph)}
    {rest : List Glyph} {cs' : List Char} (hread : read s.rest = .ok (x, rest))
    (hrest : Yaml.chars rest = cs') (hle : cs'.length ≤ cs.length) :
    ∃ t, s.content read = .ok t ∧ t.Stands depth quiet cs' (ts ++ [x]) := by
  obtain ⟨u, hu, hstands, hsame⟩ := h.remember
  have hread' : read u.rest = .ok (x, rest) := hsame ▸ hread
  rw [Scanner.content, hu]
  show ∃ t, read u.rest >>= _ = _ ∧ _
  rw [hread']
  exact ⟨_, rfl, { hstands with
    chars := hrest
    tokens := by rw [← hstands.tokens, emit, Array.toList_push]
    room := Nat.lt_of_le_of_lt hle hstands.room
    silent := fun hquiet => ⟨(hstands.silent hquiet).1, rfl⟩ }⟩

theorem quoted (h : s.Stands depth quiet (Inline.quote text ++ cs) ts) :
    ∃ t, (s.content fun gs =>
        (quotedScalar s.bound gs).map fun (text, gs) => (.scalar text false, gs)) = .ok t ∧
      t.Stands depth quiet cs (ts ++ [.scalar text false]) := by
  have hbound : text.codePoints.length < s.bound := by
    have hlength := Inline.lt_length_quote text
    have hroom := h.room
    rw [List.length_append] at hroom
    omega
  obtain ⟨rest, hread, hrest⟩ := Inline.quotedScalar_quote h.chars hbound
  refine h.content (by rw [hread]; rfl) hrest ?_
  rw [List.length_append]
  exact Nat.le_add_left ..

end Stands

/-! ## Steps -/

/-- The characters that tokens start with here. -/
def starts : List Char :=
  ['[', ']', '\x7b', '\x7d', ',', '\x22', '~', '?', ':', '\x00']

/-- In front of a token, reading it is all that a step does. -/
theorem Stands.step (h : s.Stands depth quiet (c :: cs) ts) (hc : c ∈ starts)
    (hinside : c = '?' ∨ c = ':' → 0 < depth) :
    ∃ t : Scanner, s.step = t.next ∧ t.Stands depth quiet (c :: cs) ts := by
  obtain ⟨g, rest, hrest, hg, -⟩ := exists_cons_of_chars h.chars
  have hsolid : ∀ c ∈ starts, c ≠ ' ' ∧ c ≠ '#' ∧ isBreak c = false := by
    simp [starts, isBreak]
  obtain ⟨hspace, hcomment, hbreak⟩ := hsolid c hc
  obtain ⟨pending', hpending, hfree, hnone⟩ := exists_refresh g h.pending
  obtain ⟨around', haround, hall, hlength⟩ := exists_mapM_refresh g h.around
  have hskip : skipToToken s.inFlow s.bound s.allowKey s.rest = (s.allowKey, s.rest) := by
    obtain ⟨bound, hbound⟩ := Nat.exists_eq_add_of_lt h.room
    have hspaces : skipSpaces s.rest = s.rest := by
      rw [hrest, skipSpaces, List.dropWhile_cons_of_neg]
      simpa [hg] using hspace
    have hnocomment : skipComment s.rest = s.rest := by
      rw [skipComment, h.peek, if_neg (by simpa using hcomment)]
    rw [hbound, skipToToken]
    simp only [hspaces, hnocomment, h.peek, hbreak]
    rfl
  have hlook : look 0 s.rest = .ok () := by
    rw [hrest]
    rfl
  let t : Scanner := { s with pending := pending', around := around' }
  have ht : t.Stands depth quiet (c :: cs) ts := { h with
    pending := hfree
    around := hall
    depth := hlength.trans h.depth
    silent := fun hquiet => ⟨hnone (h.silent hquiet).1, (h.silent hquiet).2⟩ }
  have hahead : t.lookahead = 0 := by
    have hpeek := ht.peek
    have hflow := ht.inFlow
    simp only [starts, List.mem_cons, List.not_mem_nil, or_false] at hc
    rcases hc with rfl | rfl | rfl | rfl | rfl | rfl | rfl | rfl | rfl | rfl <;>
      simp_all [lookahead]
  have hhead : s.rest.head?.getD default = g := by
    rw [hrest]
    rfl
  have hnext : (look t.lookahead t.rest >>= fun _ => (t.unwind t.column).next) = t.next := by
    rw [hahead, ht.unwind]
    show look 0 s.rest >>= _ = _
    rw [hlook]
    rfl
  refine ⟨t, ?_, ht⟩
  rw [← hnext]
  unfold Scanner.step
  simp only [hskip, hlook, hhead, hpending, haround]
  rfl

/-! ## Runs -/

/-- Every run goes on from the one state to the other. -/
def Reaches (s t : Scanner) : Prop :=
  ∀ atCut fuel handed, s.rest.length < fuel → ∃ fuel' handed',
    t.rest.length < fuel' ∧ run atCut fuel s handed = run atCut fuel' t handed'

theorem Reaches.refl (s : Scanner) : s.Reaches s :=
  fun _ fuel handed h => ⟨fuel, handed, h, rfl⟩

theorem Reaches.trans (h₁ : s.Reaches t) (h₂ : t.Reaches u) : s.Reaches u := by
  intro atCut fuel handed hfuel
  obtain ⟨fuel₁, handed₁, hfuel₁, hrun₁⟩ := h₁ atCut fuel handed hfuel
  obtain ⟨fuel₂, handed₂, hfuel₂, hrun₂⟩ := h₂ atCut fuel₁ handed₁ hfuel₁
  exact ⟨fuel₂, handed₂, hfuel₂, hrun₁.trans hrun₂⟩

namespace Stands

theorem length_rest (h : s.Stands depth quiet cs ts) : s.rest.length = cs.length := by
  rw [← h.chars, Yaml.chars, List.length_map]

theorem back?_tokens (h : s.Stands depth quiet cs (ts ++ [x])) : s.tokens.back? = some x := by
  rw [← Array.getLast?_toList, h.tokens, List.getLast?_concat]

theorem exists_advance {depth' : Nat} {quiet' : Bool} {cs' : List Char}
    (h : s.Stands depth quiet (c :: cs) ts) (hc : c ∈ starts)
    (hinside : c = '?' ∨ c = ':' → 0 < depth)
    (hnext : ∀ t : Scanner, t.Stands depth quiet (c :: cs) ts →
      ∃ u, t.next = .ok u ∧ u.Stands depth' quiet' cs' (ts ++ [x]))
    (hcs' : cs' ≠ []) :
    ∃ u settled, s.advance = .ok (u, settled) ∧ u.Stands depth' quiet' cs' (ts ++ [x]) := by
  obtain ⟨t, hstep, ht⟩ := h.step hc hinside
  obtain ⟨u, hu, hstands⟩ := hnext t ht
  have hlook : look 0 u.rest = .ok () := by
    obtain ⟨c', cs'', rfl⟩ := List.exists_cons_of_ne_nil hcs'
    obtain ⟨g, rest, hrest, -⟩ := exists_cons_of_chars hstands.chars
    rw [hrest]
    rfl
  obtain ⟨settled, hsettled⟩ : ∃ settled, u.settled = .ok settled := by
    obtain ⟨ks, hks, -⟩ := exists_mapM_refresh (u.rest.head?.getD default)
      (List.forall_mem_cons.2 ⟨hstands.pending, hstands.around⟩)
    exact ⟨_, by rw [Scanner.settled, hks]; rfl⟩
  refine ⟨u, settled, ?_, hstands⟩
  rw [advance, hstep, hu]
  show (look 0 u.rest >>= _) = _
  rw [hlook]
  show (u.settled >>= _) = _
  rw [hsettled]
  rfl

/-- Behind a token that is not the last one, the run goes on. -/
theorem exists_reaches {depth' : Nat} {quiet' : Bool} {cs' : List Char}
    (h : s.Stands depth quiet (c :: cs) ts) (hc : c ∈ starts)
    (hinside : c = '?' ∨ c = ':' → 0 < depth)
    (hnext : ∀ t : Scanner, t.Stands depth quiet (c :: cs) ts →
      ∃ u, t.next = .ok u ∧ u.Stands depth' quiet' cs' (ts ++ [x]))
    (hcs' : cs' ≠ []) (hshort : cs'.length ≤ cs.length) (hx : x ≠ .streamEnd) :
    ∃ u, s.Reaches u ∧ u.Stands depth' quiet' cs' (ts ++ [x]) := by
  obtain ⟨u, settled, hadvance, hu⟩ := h.exists_advance hc hinside hnext hcs'
  refine ⟨u, fun atCut fuel handed hfuel => ?_, hu⟩
  rw [h.length_rest] at hfuel
  obtain ⟨fuel, rfl⟩ := Nat.exists_eq_add_of_lt hfuel
  have hrun : run atCut ((c :: cs).length + fuel + 1) s handed =
      run atCut ((c :: cs).length + fuel) u
        (handed ++ u.tokens.extract handed.size settled) := by
    rw [run, hadvance]
    exact if_neg (by simpa [hu.back?_tokens] using hx)
  refine ⟨_, _, ?_, hrun⟩
  rw [hu.length_rest, List.length_cons]
  omega

end Stands

/-! ## Values -/

/-- A bracket that opens a collection. -/
inductive Opening : Char → Token → Prop
  | sequence : Opening '[' .flowSequenceStart
  | mapping : Opening '\x7b' .flowMappingStart

/-- A bracket that closes a collection. -/
inductive Closing : Char → Token → Prop
  | sequence : Closing ']' .flowSequenceEnd
  | mapping : Closing '\x7d' .flowMappingEnd

theorem Opening.next (hx : Opening c x) (h : peek s.rest = c) : s.next = s.openFlow x := by
  cases hx <;> simp [Scanner.next, h]

theorem Closing.next (hx : Closing c x) (h : peek s.rest = c) : s.next = s.closeFlow x := by
  cases hx <;> simp [Scanner.next, h]

namespace Stands

theorem reaches_opening (h : s.Stands depth quiet (c :: cs) ts) (hx : Opening c x)
    (hcs : cs ≠ []) : ∃ u, s.Reaches u ∧ u.Stands (depth + 1) false cs (ts ++ [x]) := by
  refine h.exists_reaches (by cases hx <;> decide) (by cases hx <;> simp) (fun t ht => ?_) hcs
    le_rfl (by cases hx <;> simp)
  rw [hx.next ht.peek]
  exact ht.openFlow x

theorem reaches_closing (h : s.Stands (depth + 1) quiet (c :: cs) ts) (hx : Closing c x)
    (hcs : cs ≠ []) : ∃ u, s.Reaches u ∧ u.Stands depth false cs (ts ++ [x]) := by
  refine h.exists_reaches (by cases hx <;> decide) (by cases hx <;> simp) (fun t ht => ?_) hcs
    le_rfl (by cases hx <;> simp)
  rw [hx.next ht.peek]
  exact ht.closeFlow x

theorem reaches_comma (h : s.Stands depth quiet (',' :: cs) ts) (hcs : cs ≠ []) :
    ∃ u, s.Reaches u ∧ u.Stands depth false cs (ts ++ [.flowEntry]) := by
  refine h.exists_reaches (by decide) (by simp) (fun t ht => ?_) hcs le_rfl (by decide)
  have hnext : t.next = t.flowEntry := by simp [Scanner.next, ht.peek]
  rw [hnext]
  exact ht.flowEntry

theorem reaches_key (h : s.Stands (depth + 1) quiet ('?' :: cs) ts) (hcs : cs ≠ []) :
    ∃ u, s.Reaches u ∧ u.Stands (depth + 1) true cs (ts ++ [.key]) := by
  refine h.exists_reaches (by decide) (by simp) (fun t ht => ?_) hcs le_rfl (by decide)
  have hnext : t.next = t.keyIndicator := by simp [Scanner.next, ht.peek, ht.inFlow]
  rw [hnext]
  exact ht.keyIndicator

theorem reaches_value (h : s.Stands (depth + 1) true (':' :: cs) ts) (hcs : cs ≠ []) :
    ∃ u, s.Reaches u ∧ u.Stands (depth + 1) false cs (ts ++ [.value]) := by
  refine h.exists_reaches (by decide) (by simp) (fun t ht => ?_) hcs le_rfl (by decide)
  have hnext : t.next = t.valueIndicator := by simp [Scanner.next, ht.peek, ht.inFlow]
  rw [hnext]
  exact ht.valueIndicator

theorem reaches_quoted (h : s.Stands depth quiet (Inline.quote text ++ cs) ts) (hcs : cs ≠ []) :
    ∃ u, s.Reaches u ∧ u.Stands depth quiet cs (ts ++ [.scalar text false]) := by
  have hquote : Inline.quote text ++ cs =
      '\x22' :: (text.codePoints.flatMap Inline.escape ++ '\x22' :: cs) := by
    rw [Inline.quote, List.cons_append, List.cons_append, List.append_assoc]
    rfl
  rw [hquote] at h
  refine h.exists_reaches (by decide) (by simp) (fun t ht => ?_) hcs ?_ (by simp)
  · have hnext : t.next = t.content fun gs =>
        (quotedScalar t.bound gs).map fun (text, gs) => (.scalar text false, gs) := by
      simp [Scanner.next, ht.peek]
    rw [hnext]
    rw [← hquote] at ht
    exact ht.quoted
  · rw [List.length_append, List.length_cons]
    omega

/-- The sign for nothing is a plain scalar that ends before the comma. -/
theorem plain (h : s.Stands (depth + 1) quiet ('~' :: ',' :: cs) ts) :
    ∃ t, s.plain = .ok t ∧
      t.Stands (depth + 1) false (',' :: cs) (ts ++ [.scalar (.ofChars ['~']) true]) := by
  obtain ⟨u, hu, hstands, -⟩ := h.remember
  obtain ⟨g, rest, hrest, hg, hcs⟩ := exists_cons_of_chars hstands.chars
  obtain ⟨g', rest', rfl, hg', -⟩ := exists_cons_of_chars hcs
  obtain ⟨bound, hbound⟩ := Nat.exists_eq_add_of_lt hstands.room
  have hplain : plainScalar u.bound u.inFlow u.indent u.rest = ⟨['~'], false, g' :: rest'⟩ := by
    have hflow : u.inFlow = true := hstands.inFlow
    have hrun : plainRun true [] (g :: g' :: rest') = (['~'], g' :: rest') := by
      simp [plainRun, plainStops, isBlankOrEnd, isSpaceOrEnd, isBreakOrEnd, isBreak, hg, hg']
    have hgap (bound : Nat) : plainGap bound (g' :: rest') = ⟨[], false, g' :: rest'⟩ := by
      simp [plainGap, takeRun, Yaml.peek, isBreak, hg', Yaml.chars]
    rw [hflow, hrest, hbound, plainScalar, plainFrom]
    simp [hrun, hgap, Yaml.peek, hg]
  refine ⟨{ u.emit (.scalar (.ofChars ['~']) true) with allowKey := false, rest := g' :: rest' },
    ?_, ?_⟩
  · rw [Scanner.plain, hu]
    simp only [bind, Except.bind, hplain]
  · exact { hstands with
      chars := hcs
      tokens := by rw [← hstands.tokens, emit, Array.toList_push]
      room := Nat.lt_of_succ_lt hstands.room
      silent := fun hquiet => absurd hquiet Bool.false_ne_true }

theorem reaches_null (h : s.Stands (depth + 1) quiet ('~' :: ',' :: cs) ts) :
    ∃ u, s.Reaches u ∧
      u.Stands (depth + 1) false (',' :: cs) (ts ++ [.scalar (.ofChars ['~']) true]) := by
  refine h.exists_reaches (by decide) (by simp) (fun t ht => ?_) (by simp) le_rfl (by simp)
  have hnext : t.next = t.plain := by
    simp [Scanner.next, ht.peek, startsPlain, isBlankOrEnd, isSpaceOrEnd, isBreakOrEnd, isBreak,
      indicators]
  rw [hnext]
  exact ht.plain

/-- At the end the tokens are handed on. -/
theorem run_end (h : s.Stands depth quiet ['\x00'] ts) (atCut : Fault) {fuel : Nat}
    (hfuel : s.rest.length < fuel) (handed : Array Token) :
    run atCut fuel s handed = ts ++ [.streamEnd] := by
  have hnext : ∀ t : Scanner, t.Stands depth quiet ['\x00'] ts →
      ∃ u, t.next = .ok u ∧ u.Stands depth quiet ['\x00'] (ts ++ [.streamEnd]) := by
    intro t ht
    have hstream : t.next = t.streamEnd := by simp [Scanner.next, ht.peek]
    rw [hstream, Scanner.streamEnd, ht.unwind, ht.forget]
    exact ⟨_, rfl, { ht with
      tokens := by rw [← ht.tokens, emit, Array.toList_push]
      pending := free_none
      silent := fun _ => ⟨rfl, rfl⟩ }⟩
  obtain ⟨u, settled, hadvance, hu⟩ := h.exists_advance (by decide) (by simp) hnext (by simp)
  obtain ⟨fuel, rfl⟩ := Nat.exists_eq_add_of_lt hfuel
  rw [run, hadvance, ← hu.tokens]
  exact if_pos (by simp [hu.back?_tokens])

end Stands

end Scanner

/-! ## Documents -/

namespace Inline

open Scanner (Stands)

mutual

/-- The tokens of a value are read. -/
theorem reaches_chars {s : Scanner} {depth : Nat} {cs : List Char} {ts : List Token} (v : Inline)
    (h : s.Stands (depth + 1) false (v.chars ++ ',' :: cs) ts) :
    ∃ u, s.Reaches u ∧ u.Stands (depth + 1) false (',' :: cs) (ts ++ v.tokens) := by
  cases v with
  | null => exact h.reaches_null
  | text t => exact h.reaches_quoted (by simp)
  | list items =>
    simp only [chars, List.cons_append, List.append_assoc, List.nil_append] at h
    obtain ⟨u₁, h₁, hu₁⟩ := h.reaches_opening .sequence (by simp)
    obtain ⟨u₂, h₂, hu₂⟩ := reaches_itemChars items hu₁
    obtain ⟨u₃, h₃, hu₃⟩ := hu₂.reaches_closing .sequence (by simp)
    exact ⟨u₃, h₁.trans (h₂.trans h₃), by simpa [tokens] using hu₃⟩
  | map entries =>
    simp only [chars, List.cons_append, List.append_assoc, List.nil_append] at h
    obtain ⟨u₁, h₁, hu₁⟩ := h.reaches_opening .mapping (by simp)
    obtain ⟨u₂, h₂, hu₂⟩ := reaches_entryChars entries hu₁
    obtain ⟨u₃, h₃, hu₃⟩ := hu₂.reaches_closing .mapping (by simp)
    exact ⟨u₃, h₁.trans (h₂.trans h₃), by simpa [tokens] using hu₃⟩

theorem reaches_itemChars {s : Scanner} {depth : Nat} {c : Char} {cs : List Char} {ts : List Token}
    (vs : List Inline) (h : s.Stands (depth + 1) false (itemChars vs ++ c :: cs) ts) :
    ∃ u, s.Reaches u ∧ u.Stands (depth + 1) false (c :: cs) (ts ++ itemTokens vs) := by
  cases vs with
  | nil => exact ⟨s, .refl s, by simpa [itemTokens, itemChars] using h⟩
  | cons v vs =>
    simp only [itemChars, List.append_assoc, List.cons_append] at h
    obtain ⟨u₁, h₁, hu₁⟩ := reaches_chars v h
    obtain ⟨u₂, h₂, hu₂⟩ := hu₁.reaches_comma (by simp)
    obtain ⟨u₃, h₃, hu₃⟩ := reaches_itemChars vs hu₂
    exact ⟨u₃, h₁.trans (h₂.trans h₃), by simpa [itemTokens] using hu₃⟩

theorem reaches_entryChars {s : Scanner} {depth : Nat} {c : Char} {cs : List Char}
    {ts : List Token} (es : List (Text × Inline))
    (h : s.Stands (depth + 1) false (entryChars es ++ c :: cs) ts) :
    ∃ u, s.Reaches u ∧ u.Stands (depth + 1) false (c :: cs) (ts ++ entryTokens es) := by
  cases es with
  | nil => exact ⟨s, .refl s, by simpa [entryTokens, entryChars] using h⟩
  | cons e es =>
    obtain ⟨k, v⟩ := e
    simp only [entryChars, List.append_assoc, List.cons_append] at h
    obtain ⟨u₁, h₁, hu₁⟩ := h.reaches_key (by simp)
    obtain ⟨u₂, h₂, hu₂⟩ := hu₁.reaches_quoted (by simp)
    obtain ⟨u₃, h₃, hu₃⟩ := hu₂.reaches_value (by simp)
    obtain ⟨u₄, h₄, hu₄⟩ := reaches_chars v hu₃
    obtain ⟨u₅, h₅, hu₅⟩ := hu₄.reaches_comma (by simp)
    obtain ⟨u₆, h₆, hu₆⟩ := reaches_entryChars es hu₅
    exact ⟨u₆, h₁.trans (h₂.trans (h₃.trans (h₄.trans (h₅.trans h₆)))),
      by simpa [entryTokens] using hu₆⟩

end

/-- The characters of which values are written. -/
def marks : List Char :=
  "[]\x7b\x7d,?:~\\U\x220123456789abcdef".toList

theorem mem_marks_of_mem_quote {t : Text} {c : Char} (h : c ∈ quote t) : c ∈ marks := by
  have hdigits (width n : Nat) (h : c ∈ hexDigits width n) : c ∈ marks := by
    induction width generalizing n with
    | zero => cases h
    | succ width ih =>
      rcases List.mem_append.1 h with h | h
      · exact ih _ h
      · have hall : ∀ d < 16, Nat.digitChar d ∈ marks := by decide
        exact List.mem_singleton.1 h ▸ hall _ (Nat.mod_lt _ (by decide))
  simp only [quote, escape, List.cons_append, List.mem_cons, List.mem_append, List.mem_flatMap,
    List.not_mem_nil, or_false] at h
  obtain rfl | ⟨p, -, rfl | rfl | h⟩ | rfl := h
  · decide
  · decide
  · decide
  · exact hdigits _ _ h
  · decide

mutual

theorem mem_marks_of_mem_chars {c : Char} (v : Inline) (h : c ∈ v.chars) : c ∈ marks := by
  cases v with
  | null => exact List.mem_singleton.1 h ▸ by decide
  | text t => exact mem_marks_of_mem_quote h
  | list items =>
    simp only [chars, List.cons_append, List.mem_cons, List.mem_append, List.not_mem_nil,
      or_false] at h
    obtain rfl | h | rfl := h
    · decide
    · exact mem_marks_of_mem_itemChars items h
    · decide
  | map entries =>
    simp only [chars, List.cons_append, List.mem_cons, List.mem_append, List.not_mem_nil,
      or_false] at h
    obtain rfl | h | rfl := h
    · decide
    · exact mem_marks_of_mem_entryChars entries h
    · decide

theorem mem_marks_of_mem_itemChars {c : Char} (vs : List Inline) (h : c ∈ itemChars vs) :
    c ∈ marks := by
  cases vs with
  | nil => simp [itemChars] at h
  | cons v vs =>
    simp only [itemChars, List.mem_append, List.mem_cons] at h
    obtain h | rfl | h := h
    · exact mem_marks_of_mem_chars v h
    · decide
    · exact mem_marks_of_mem_itemChars vs h

theorem mem_marks_of_mem_entryChars {c : Char} (es : List (Text × Inline)) (h : c ∈ entryChars es) :
    c ∈ marks := by
  cases es with
  | nil => simp [entryChars] at h
  | cons e es =>
    obtain ⟨k, v⟩ := e
    simp only [entryChars, List.cons_append, List.mem_append, List.mem_cons, or_assoc] at h
    obtain rfl | h | rfl | h | rfl | h := h
    · decide
    · exact mem_marks_of_mem_quote h
    · decide
    · exact mem_marks_of_mem_chars v h
    · decide
    · exact mem_marks_of_mem_entryChars es h

end

/-- The text of a value. -/
def written (v : Inline) : String :=
  String.ofList v.chars

theorem ofString_written (v : Inline) : Source.ofString v.written = { chars := v.chars } := by
  have hallowed : v.chars.all isAllowed = true := by
    refine List.all_eq_true.2 fun c hc => ?_
    have hall : marks.all isAllowed = true := by decide
    exact List.all_eq_true.1 hall c (mem_marks_of_mem_chars v hc)
  rw [written, Source.ofString, String.toList_ofList]
  exact if_pos hallowed

/-- The tokens of a document that is a mapping. -/
theorem tokens_written (es : List (Text × Inline)) :
    Yaml.tokens (.ofString (map es).written) = (map es).tokens ++ [.streamEnd] := by
  obtain ⟨gs, hgs⟩ : ∃ gs, Source.glyphs { chars := (map es).chars } = gs := ⟨_, rfl⟩
  have hchars : Yaml.chars gs = '\x7b' :: (entryChars es ++ ['\x7d', '\x00']) := by
    rw [← hgs, Source.glyphs, chars_placeFrom]
    simp [chars, Yaml.chars]
  have hstart : Scanner.Stands { bound := gs.length + 1, rest := gs } 0 false
      ('\x7b' :: (entryChars es ++ ['\x7d', '\x00'])) [] := {
    chars := hchars
    tokens := rfl
    room := by
      rw [← hchars, Yaml.chars, List.length_map]
      exact Nat.lt_succ_self _
    pending := Scanner.free_none
    around := List.forall_mem_nil _
    depth := rfl
    indent := rfl
    outer := rfl
    silent := fun hquiet => absurd hquiet Bool.false_ne_true }
  obtain ⟨u₁, h₁, hu₁⟩ := hstart.reaches_opening .mapping (by simp)
  obtain ⟨u₂, h₂, hu₂⟩ := reaches_entryChars es hu₁
  obtain ⟨u₃, h₃, hu₃⟩ := hu₂.reaches_closing .mapping (by simp)
  have hmark : (peek gs == '\uFEFF') = false := by
    rw [show peek gs = '\x7b' from hstart.peek]
    rfl
  unfold Yaml.tokens
  simp only [ofString_written, hgs, hmark]
  obtain ⟨fuel, handed, hfuel, hrun⟩ :=
    (h₁.trans (h₂.trans h₃)) .malformed (gs.length + 1) #[] (Nat.lt_succ_self _)
  refine hrun.trans ?_
  rw [hu₃.run_end _ hfuel]
  simp [tokens]

example : Yaml.tokens (.ofString "\x7b?\"\\U00000061\":[~,],\x7d") =
    [.flowMappingStart, .key, .scalar "a" false, .value, .flowSequenceStart, .scalar "~" true,
      .flowEntry, .flowSequenceEnd, .flowEntry, .flowMappingEnd, .streamEnd] := by
  decide +kernel

end Inline

end Lineage.Yaml
