import Lineage.Yaml.Token
import Lineage.Proofs.Yaml.Reading

/-!
# Why tokens break off

The scanner takes rests of the characters, as its readers do, and never makes a token that stands
for a fault. So where the tokens of a document break off, this is a fault of syntax, the fault at
the place where the document is cut off, or one whose cause shows in the characters
(`fault_of_broken_mem_tokens`).
-/

namespace Lineage.Yaml

/-- A token that stands for no fault. -/
def Token.IsSound : Token → Prop
  | .broken _ => False
  | _ => True

variable {α : Type} {gs rest : List Glyph}

/-- What would follow a stop does not count. -/
theorem stopAt_bind {β : Type} (rest : List Glyph) (f : α → Scan β) (P : β → Prop) :
    Scans gs P (stopAt rest >>= f) :=
  Meets.bind (scans_stopAt gs rest fun _ => False) fun _ => False.elim

/-! ## Directives, anchors and tags -/

theorem reads_wordRun (gs : List Glyph) : Reads gs (wordRun gs) := by
  unfold wordRun
  exact Meets.ite (fun _ => scans_stopAt ..) fun _ => takeRun_suffix ..

/-- The word of a run stands among the characters. -/
theorem infix_wordRun (gs : List Glyph) :
    Scans gs (fun p => p.1.toList <:+: chars gs) (wordRun gs) := by
  unfold wordRun
  refine Meets.ite (fun _ => scans_stopAt ..) fun _ => ?_
  show (String.ofList _).toList <:+: chars gs
  rw [String.toList_ofList]
  exact infix_takeRun ..

/-- Behind a version directive, too long a number has its cause in the characters. -/
theorem reads_decimalRun (hdirective : "YAML".toList <:+: chars gs) (hrest : rest <:+ gs) :
    Reads gs (decimalRun rest) := by
  unfold decimalRun
  refine Meets.ite (fun _ => scans_stopAt ..) fun _ => Meets.ite (fun hlong => ?_) fun _ => ?_
  · exact scans_stopAt_of_misspelled _ (.number hdirective
      ((infix_takeRun ..).trans (infix_chars hrest)) (takeRun_all _ _) hlong)
  · exact (takeRun_suffix ..).trans hrest

theorem scans_endOfPart (gs rest : List Glyph) : Scans gs (fun _ => True) (endOfPart rest) := by
  unfold endOfPart
  exact Meets.ite (fun _ => trivial) fun _ => scans_stopAt ..

/-- Each escape takes its percent sign and two digits off the rest. -/
theorem reads_tagBytes (fuel : Nat) (bytes : List UInt8) (gs : List Glyph) :
    Reads gs (tagBytes fuel bytes gs) := by
  induction fuel generalizing bytes gs with
  | zero => exact List.suffix_rfl
  | succ fuel ih =>
    unfold tagBytes
    refine Meets.ite (fun _ => Meets.ite (fun _ => ?_) fun _ => scans_stopAt ..) fun _ => ?_
    · exact (ih ..).within (List.drop_suffix ..)
    · exact List.suffix_rfl

/-- A tag is read character by character; where its escapes spell no UTF-8, this is a fault of
syntax. -/
theorem reads_tagText (fuel : Nat) (text : String) (gs : List Glyph) :
    Reads gs (tagText fuel text gs) := by
  induction fuel generalizing text gs with
  | zero => exact List.suffix_rfl
  | succ fuel ih =>
    unfold tagText
    refine Meets.ite (fun _ => ?_) fun _ => Meets.ite (fun _ => ?_) fun _ => List.suffix_rfl
    · refine Reads.bind (reads_tagBytes ..) fun bytes rest => ?_
      dsimp only
      split
      · exact ih ..
      · exact scans_stopAt ..
    · exact (ih ..).within (List.drop_suffix ..)

theorem reads_tagRun (bound : Nat) (gs : List Glyph) : Reads gs (tagRun bound gs) := by
  unfold tagRun
  exact Meets.ite (fun _ => reads_tagText ..) fun _ => scans_stopAt ..

/-- A tag handle ends at its own exclamation mark, or at the first one. -/
theorem reads_tagHandle (gs : List Glyph) : Reads gs (tagHandle gs) := by
  unfold tagHandle
  refine Meets.ite (fun _ => scans_stopAt ..) fun _ => Meets.ite (fun _ => ?_) fun _ =>
    Meets.ite (fun _ => ?_) fun _ => scans_stopAt ..
  · exact List.drop_suffix ..
  · exact (List.drop_suffix ..).trans ((takeRun_suffix ..).trans (List.drop_suffix ..))

/-- A tag leaves a rest, whether it is verbatim, has a handle or is the mark alone. -/
theorem reads_scanTag (bound : Nat) (gs : List Glyph) :
    Scans gs (fun p => p.2 <:+ gs ∧ p.1.IsSound) (scanTag bound gs) := by
  unfold scanTag
  extract_lets c finish
  have hfinish (p : Option String × String × List Glyph) (hp : p.2.2 <:+ gs) :
      Scans gs (fun p => p.2 <:+ gs ∧ p.1.IsSound) (finish p) :=
    (scans_endOfPart ..).bind fun _ _ => ⟨hp, trivial⟩
  clear_value finish
  refine Meets.ite (fun _ => ?_) fun _ => Meets.ite (fun _ => ?_) fun _ =>
    Meets.ite (fun _ => ?_) fun _ => ?_
  · refine Meets.bind ((reads_tagRun ..).within (List.drop_suffix ..)) ?_
    rintro ⟨suffix, rest⟩ hrest
    refine Meets.ite (fun _ => Meets.ok_bind ?_) fun _ => stopAt_bind ..
    exact hfinish _ ((List.drop_suffix ..).trans hrest)
  · exact Meets.ok_bind (hfinish _ (List.drop_suffix ..))
  · refine Meets.bind (reads_tagHandle _) ?_
    rintro ⟨handle, rest⟩ hrest
    refine Meets.bind ((reads_tagRun ..).within hrest) ?_
    rintro ⟨suffix, rest⟩ hrest
    exact Meets.ok_bind (hfinish _ hrest)
  · refine (scans_look ..).bind fun _ _ => ?_
    refine Meets.bind ((reads_tagRun ..).within (List.drop_suffix ..)) ?_
    rintro ⟨suffix, rest⟩ hrest
    exact Meets.ok_bind (hfinish _ hrest)

/-- The name of an anchor or an alias is a word, and what ends it stays in the rest. -/
theorem reads_scanAnchor (gs : List Glyph) : Reads gs (scanAnchor gs) := by
  unfold scanAnchor
  refine Reads.within (List.drop_suffix ..) (Reads.bind (reads_wordRun _) fun name rest => ?_)
  exact Meets.ite (fun _ => List.suffix_rfl) fun _ => scans_stopAt ..

/-- A directive takes its line. Only in the version directive can a number be too long, and its word
stands before the number. -/
theorem reads_scanDirective (bound : Nat) (gs : List Glyph) :
    Scans gs (fun p => p.2 <:+ gs ∧ p.1.IsSound) (scanDirective bound gs) := by
  unfold scanDirective
  refine Meets.bind (Scans.of_suffix ((reads_wordRun _).and (infix_wordRun _))
    (List.drop_suffix 1 gs) fun _ h => h) ?_
  rintro ⟨name, rest⟩ ⟨hrest, hname⟩
  replace hrest := hrest.trans (List.drop_suffix 1 gs)
  replace hname := hname.trans (infix_chars (List.drop_suffix 1 gs))
  refine (scans_endOfPart ..).bind fun _ _ => ?_
  extract_lets finish
  have hfinish (p : Directive × List Glyph) (hp : p.2 <:+ gs) :
      Scans gs (fun p => p.2 <:+ gs ∧ p.1.IsSound) (finish p) := by
    refine Meets.ite (fun _ => ⟨?_, trivial⟩) fun _ => scans_stopAt ..
    exact (takeBreak_suffix _).trans ((skipComment_suffix _).trans ((skipSpaces_suffix _).trans hp))
  clear_value finish
  have hspaces := (skipSpaces_suffix rest).trans hrest
  refine Meets.ite (fun hyaml => ?_) fun _ => Meets.ite (fun _ => ?_) fun _ => ?_
  · have hdirective : "YAML".toList <:+: chars gs := by
      rw [← eq_of_beq hyaml]
      exact hname
    refine Meets.bind (reads_decimalRun hdirective hspaces) ?_
    rintro ⟨major, rest⟩ hrest
    refine Meets.ite (fun _ => stopAt_bind ..) fun _ => ?_
    refine Meets.bind (reads_decimalRun hdirective ((List.drop_suffix ..).trans hrest)) ?_
    rintro ⟨minor, rest⟩ hrest
    exact (scans_endOfPart ..).bind fun _ _ => Meets.ok_bind (hfinish _ hrest)
  · refine Meets.bind ((reads_tagHandle _).within hspaces) ?_
    rintro ⟨handle, rest⟩ hrest
    refine Meets.ite (fun _ => stopAt_bind ..) fun _ => ?_
    refine Meets.bind ((reads_tagRun ..).within ((skipSpaces_suffix _).trans hrest)) ?_
    rintro ⟨lead, rest⟩ hrest
    exact (scans_endOfPart ..).bind fun _ _ => Meets.ok_bind (hfinish _ hrest)
  · exact Meets.ok_bind (hfinish _ ((List.dropWhile_suffix _).trans hrest))

/-! ## The scanner -/

namespace Scanner

/-- The scanner goes on behind, and adds no token that stands for a fault. -/
structure Leads (s t : Scanner) : Prop where
  rest : t.rest <:+ s.rest
  broken : ∀ f, .broken f ∈ t.tokens → .broken f ∈ s.tokens

/-- A step of the scanner that reads on, or stops for a reason. -/
abbrev Goes (s : Scanner) (x : Scan Scanner) : Prop :=
  Scans s.rest s.Leads x

variable {s t : Scanner}

/-- A scanner that stays as it is leads on. -/
theorem Leads.refl (s : Scanner) : s.Leads s :=
  ⟨List.suffix_rfl, fun _ h => h⟩

/-- Steps that lead on can be put together. -/
theorem Leads.trans {u : Scanner} (h₁ : s.Leads t) (h₂ : t.Leads u) : s.Leads u :=
  ⟨h₂.rest.trans h₁.rest, fun f h => h₁.broken f (h₂.broken f h)⟩

/-- A change of what is remembered leads on. -/
theorem Leads.of_eq (hrest : t.rest = s.rest) (htokens : t.tokens = s.tokens) : s.Leads t :=
  ⟨hrest ▸ List.suffix_rfl, fun _ h => htokens ▸ h⟩

/-- A step may be made of two, the second from wherever the first one leads. -/
theorem Goes.bind {x : Scan Scanner} {f : Scanner → Scan Scanner} (hx : s.Goes x)
    (hf : ∀ t : Scanner, t.Goes (f t)) : s.Goes (x >>= f) :=
  Meets.bind hx fun t ht => Scans.of_suffix (hf t) ht.rest fun _ h => ht.trans h

/-- A step may start from where the scanner has been led already. -/
theorem Goes.of_leads {x : Scan Scanner} (hx : t.Goes x) (ht : s.Leads t) : s.Goes x :=
  Scans.of_suffix hx ht.rest fun _ h => ht.trans h

/-- A fault among the tokens was there before another token was put in. -/
theorem mem_of_mem_insert {tokens : Array Token} {place : Nat} {token : Token} {f : Fault}
    (h : .broken f ∈ tokens.insertIdxIfInBounds place token)
    (htoken : token.IsSound := by trivial) : .broken f ∈ tokens := by
  have hne : .broken f ≠ token := fun heq => by
    rw [← heq] at htoken
    exact htoken
  unfold Array.insertIdxIfInBounds at h
  split at h
  · exact (Array.mem_insertIdx.1 h).resolve_left hne
  · exact h

/-- A fault among the tokens was there before another token was added. -/
theorem mem_of_mem_push {tokens : Array Token} {token : Token} {f : Fault}
    (h : .broken f ∈ tokens.push token) (htoken : token.IsSound := by trivial) :
    .broken f ∈ tokens := by
  have hne : .broken f ≠ token := fun heq => by
    rw [← heq] at htoken
    exact htoken
  exact (Array.mem_push.1 h).resolve_right hne

theorem leads_emit (s : Scanner) {token : Token}
    (h : token.IsSound := by trivial) : s.Leads (s.emit token) :=
  ⟨List.suffix_rfl, fun _ hf => mem_of_mem_push hf h⟩

theorem leads_take (s : Scanner) (n : Nat) {token : Token}
    (h : token.IsSound := by trivial) : s.Leads (s.take n token) :=
  ⟨List.drop_suffix .., fun _ hf => mem_of_mem_push hf h⟩

/-- Opening a block puts in its start token, or nothing. -/
theorem leads_openBlock (s : Scanner) (column : Int) (place : Nat) {token : Token}
    (h : token.IsSound := by trivial) : s.Leads (s.openBlock column place token) := by
  unfold openBlock
  split
  · exact ⟨List.suffix_rfl, fun _ hf => mem_of_mem_insert hf h⟩
  · exact .refl s

/-- Closing blocks adds an end token for each. -/
theorem leads_unwindWithin (fuel : Nat) (column : Int) (s : Scanner) :
    s.Leads (unwindWithin fuel column s) := by
  induction fuel generalizing s with
  | zero => exact .refl s
  | succ fuel ih =>
    unfold unwindWithin
    split
    · split
      · rename_i o os _
        have hclose : s.Leads { s.emit .blockEnd with indent := o, outer := os } :=
          ⟨List.suffix_rfl, fun _ hf => mem_of_mem_push hf⟩
        exact hclose.trans (ih _)
      · exact .refl s
    · exact .refl s

theorem leads_unwind (s : Scanner) (column : Int) : s.Leads (s.unwind column) := by
  unfold unwind
  split
  · exact .refl s
  · exact leads_unwindWithin ..

/-- A key that is required can only be missed by a fault of syntax. -/
theorem goes_forget (s : Scanner) : s.Goes s.forget := by
  unfold forget
  split
  · exact Meets.ite (fun _ => scans_stopAt ..) fun _ => .of_eq rfl rfl
  · exact .refl s

/-- A new key is remembered in place of the one that is forgotten. -/
theorem goes_remember (s : Scanner) : s.Goes s.remember := by
  unfold remember
  refine Meets.ite (fun _ => ?_) fun _ => .refl s
  exact Goes.bind (goes_forget s) fun _ => .of_eq rfl rfl

theorem goes_unwind_forget (s : Scanner) (column : Int) : s.Goes (s.unwind column).forget :=
  (goes_forget _).of_leads (leads_unwind ..)

/-! ### Tokens -/

/-- At the end every block is closed. -/
theorem goes_streamEnd (s : Scanner) : s.Goes s.streamEnd := by
  refine Goes.bind (goes_unwind_forget s _) fun t => ?_
  exact (leads_emit t).trans (.of_eq rfl rfl)

/-- A directive closes every block and takes its line. -/
theorem goes_directive (s : Scanner) : s.Goes s.directive := by
  refine Goes.bind (goes_unwind_forget s _) fun t => ?_
  refine Meets.bind (reads_scanDirective ..) fun p hp => ?_
  exact ⟨hp.1, fun _ hf => mem_of_mem_push hf hp.2⟩

/-- A document marker closes every block and takes three characters. -/
theorem goes_marker (s : Scanner) {token : Token} (h : token.IsSound := by trivial) :
    s.Goes (s.marker token) := by
  refine Goes.bind (goes_unwind_forget s _) fun t => ?_
  exact (leads_take t 3 h).trans (.of_eq rfl rfl)

theorem goes_openFlow (s : Scanner) {token : Token} (h : token.IsSound := by trivial) :
    s.Goes (s.openFlow token) := by
  refine Goes.bind (goes_remember s) fun t => ?_
  exact (leads_take t 1 h).trans (.of_eq rfl rfl)

/-- A closing bracket that nothing has opened is a fault of syntax. -/
theorem goes_closeFlow (s : Scanner) {token : Token} (h : token.IsSound := by trivial) :
    s.Goes (s.closeFlow token) := by
  refine Goes.bind (goes_forget s) fun t => ?_
  split
  · exact (leads_take t 1 h).trans (.of_eq rfl rfl)
  · exact scans_stopAt ..

theorem goes_flowEntry (s : Scanner) : s.Goes s.flowEntry := by
  refine Goes.bind (goes_forget s) fun t => ?_
  exact (leads_take t 1).trans (.of_eq rfl rfl)

/-- Outside brackets, the indicator of a block is a fault of syntax where no key may stand. -/
theorem goes_openBlockHere (s : Scanner) {token : Token} (h : token.IsSound := by trivial) :
    s.Goes (s.openBlockHere token) := by
  unfold openBlockHere
  exact Meets.ite (fun _ => .refl s) fun _ =>
    Meets.ite (fun _ => leads_openBlock _ _ _ h) fun _ => scans_stopAt ..

theorem goes_blockEntry (s : Scanner) : s.Goes s.blockEntry := by
  refine Goes.bind (goes_openBlockHere s) fun t =>
    Goes.bind (goes_forget t) fun u => ?_
  exact (leads_take u 1).trans (.of_eq rfl rfl)

theorem goes_keyIndicator (s : Scanner) : s.Goes s.keyIndicator := by
  refine Goes.bind (goes_openBlockHere s) fun t =>
    Goes.bind (goes_forget t) fun u => ?_
  exact (leads_take u 1).trans (.of_eq rfl rfl)

/-- A colon may put a key, and the start of a mapping, among the tokens before it. -/
theorem goes_valueIndicator (s : Scanner) : s.Goes s.valueIndicator := by
  unfold valueIndicator
  split
  · rename_i k _
    extract_lets t u
    have ht : s.Leads t := ⟨List.suffix_rfl, fun _ hf => mem_of_mem_insert hf⟩
    have hu : t.Leads u := by
      unfold u
      split
      · exact .refl t
      · exact leads_openBlock ..
    exact ht.trans (hu.trans (leads_take u 1))
  · refine Goes.bind (goes_openBlockHere s) fun t => ?_
    exact (leads_take t 1).trans (.of_eq rfl rfl)

/-- What a reader of scalars, anchors or tags leaves and makes, the scanner goes on with. -/
theorem goes_content (s : Scanner) {read : List Glyph → Scan (Token × List Glyph)}
    (hread : ∀ gs, Scans gs (fun p => p.2 <:+ gs ∧ p.1.IsSound) (read gs)) :
    s.Goes (s.content read) := by
  refine Goes.bind (goes_remember s) fun t => Meets.bind (hread _) fun p hp => ?_
  exact ⟨hp.1, fun _ hf => mem_of_mem_push hf hp.2⟩

/-- A plain scalar never stops the reading. -/
theorem goes_plain (s : Scanner) : s.Goes s.plain := by
  refine Goes.bind (goes_remember s) fun t => ?_
  exact ⟨plainScalar_suffix .., fun _ hf => mem_of_mem_push hf⟩

theorem goes_block (s : Scanner) : s.Goes s.block := by
  refine Goes.bind (goes_forget s) fun t => Meets.bind (reads_blockScalar ..) fun p hp => ?_
  exact ⟨hp, fun _ hf => mem_of_mem_push hf⟩

/-- What is read by name becomes a token that stands for no fault. -/
theorem reads_named {read : List Glyph → Scan (α × List Glyph)} (token : α → Token)
    (hread : ∀ gs, Reads gs (read gs)) (htoken : ∀ a, (token a).IsSound) (gs : List Glyph) :
    Scans gs (fun p => p.2 <:+ gs ∧ p.1.IsSound)
      ((read gs).map fun (a, gs) => (token a, gs)) :=
  (hread gs).map fun p hp => ⟨hp, htoken p.1⟩

/-- Whatever the next token is, reading it goes on, or stops for a reason. -/
theorem goes_next (s : Scanner) : s.Goes s.next := by
  unfold next
  exact Meets.ite (fun _ => goes_streamEnd s) fun _ =>
    Meets.ite (fun _ => goes_directive s) fun _ =>
    Meets.ite (fun _ => goes_marker s) fun _ =>
    Meets.ite (fun _ => goes_marker s) fun _ =>
    Meets.ite (fun _ => goes_openFlow s) fun _ =>
    Meets.ite (fun _ => goes_openFlow s) fun _ =>
    Meets.ite (fun _ => goes_closeFlow s) fun _ =>
    Meets.ite (fun _ => goes_closeFlow s) fun _ =>
    Meets.ite (fun _ => goes_flowEntry s) fun _ =>
    Meets.ite (fun _ => goes_blockEntry s) fun _ =>
    Meets.ite (fun _ => goes_keyIndicator s) fun _ =>
    Meets.ite (fun _ => goes_valueIndicator s) fun _ =>
    Meets.ite (fun _ => goes_content s
      (reads_named .alias reads_scanAnchor fun _ => trivial)) fun _ =>
    Meets.ite (fun _ => goes_content s
      (reads_named .anchor reads_scanAnchor fun _ => trivial)) fun _ =>
    Meets.ite (fun _ => goes_content s (reads_scanTag _)) fun _ =>
    Meets.ite (fun _ => goes_block s) fun _ =>
    Meets.ite (fun _ => goes_content s
      (reads_named (.scalar · false) (reads_quotedScalar _) fun _ => trivial)) fun _ =>
    Meets.ite (fun _ => goes_plain s) fun _ => scans_stopAt ..

/-! ### Steps and runs -/

/-- What is skipped before a token stands at the front of the rest. -/
theorem skipToToken_suffix (flow : Bool) (fuel : Nat) (allow : Bool) (gs : List Glyph) :
    (skipToToken flow fuel allow gs).2 <:+ gs := by
  induction fuel generalizing allow gs with
  | zero => exact List.suffix_rfl
  | succ fuel ih =>
    have hcomment := (skipComment_suffix _).trans (skipSpaces_suffix gs)
    unfold skipToToken
    dsimp only
    split
    · exact (ih ..).trans ((takeBreak_suffix _).trans hcomment)
    · exact hcomment

/-- A required key that is too far back is a fault of syntax. -/
theorem scans_refresh (gs : List Glyph) (g : Glyph) (key : Option SimpleKey) :
    Scans gs (fun _ => True) (refresh g key) := by
  cases key with
  | none => trivial
  | some k =>
    unfold refresh
    exact Meets.ite (fun _ => Meets.ite (fun _ => .inl rfl) fun _ => trivial) fun _ => trivial

/-- One step skips to the next token and reads it. -/
theorem goes_step (s : Scanner) : s.Goes s.step := by
  unfold step
  refine (scans_look ..).bind fun _ _ => ?_
  refine (scans_refresh ..).bind fun pending _ => ?_
  refine (Meets.mapM (scans_refresh _ _) _).bind fun around _ => ?_
  refine (scans_look ..).bind fun _ _ => ?_
  refine (goes_next _).of_leads (Leads.trans ?_ (leads_unwind ..))
  exact ⟨skipToToken_suffix .., fun _ hf => hf⟩

theorem scans_settled (gs : List Glyph) (s : Scanner) : Scans gs (fun _ => True) s.settled := by
  unfold settled
  exact (Meets.mapM (scans_refresh _ _) _).bind fun _ _ => trivial

/-- A step that counts the tokens to hand on leads no further than one that does not. -/
theorem scans_advance (s : Scanner) : Scans s.rest (fun p => s.Leads p.1) s.advance := by
  unfold advance
  refine Meets.bind (goes_step s) fun t ht => (scans_look ..).bind fun _ _ => ?_
  exact (scans_settled ..).bind fun _ _ => ht

/-- No token of the scanner stands for a fault. -/
def IsSound (s : Scanner) : Prop :=
  ∀ f, .broken f ∉ s.tokens

/-- The tokens stay free of faults wherever the scanner is led. -/
theorem IsSound.of_leads (hs : s.IsSound) (ht : s.Leads t) : t.IsSound :=
  fun f hf => hs f (ht.broken f hf)

/-- A run breaks off for a fault of syntax, at the cut, or for a cause in the characters. -/
theorem fault_of_broken_mem_run {atCut f : Fault} {fuel : Nat} {handed : Array Token}
    (hs : s.IsSound) (hhanded : ∀ f, .broken f ∉ handed)
    (h : .broken f ∈ run atCut fuel s handed) :
    f = .malformed ∨ f = atCut ∨ Misspelled (chars s.rest) f := by
  induction fuel generalizing s handed with
  | zero => exact .inl (Token.broken.inj (List.mem_singleton.1 h))
  | succ fuel ih =>
    have hadvance := scans_advance s
    unfold run at h
    split at h
    · rename_i stop hstop
      rw [hstop] at hadvance
      rw [List.mem_append, Array.mem_toList_iff, List.mem_singleton] at h
      -- the tokens handed out before are sound, so the fault is the one that ends the run
      obtain rfl := Token.broken.inj (h.resolve_left (hhanded f))
      cases stop with
      | cutOff => exact .inr (.inl rfl)
      | fault f => exact hadvance.imp_right .inr
    · rename_i t settled hnext
      rw [hnext] at hadvance
      have ht := hs.of_leads hadvance
      split at h
      · exact absurd (Array.mem_toList_iff.1 h) (ht f)
      · have hmore : ∀ f, .broken f ∉ handed ++ t.tokens.extract handed.size settled := by
          intro f hf
          rw [Array.mem_append] at hf
          refine hf.elim (hhanded f) fun hf => ?_
          obtain ⟨k, hk, hf⟩ := Array.mem_extract_iff_getElem.1 hf
          exact ht f (hf ▸ Array.getElem_mem _)
        exact (ih ht hmore h).imp_right fun hf => hf.imp_right fun hf =>
          hf.mono (infix_chars hadvance.rest)

end Scanner

/-! ## Documents -/

/-- Placing characters keeps them in their order behind those placed before. -/
theorem chars_placeFrom (placed : List Glyph) (index line column : Nat) (cs : List Char) :
    chars (placeFrom placed index line column cs) = chars placed.reverse ++ cs := by
  induction cs generalizing placed index line column with
  | nil => simp [placeFrom]
  | cons c cs ih =>
    unfold placeFrom
    dsimp only
    split <;> rw [ih] <;> simp [chars]

/-- The end mark has no part in a cause. -/
theorem Misspelled.of_endMark {cs : List Char} {f : Fault} (h : Misspelled (cs ++ ['\x00']) f) :
    Misspelled cs f := by
  have hpart_of {part : List Char} (hpart : '\x00' ∉ part) (found : part <:+: cs ++ ['\x00']) :
      part <:+: cs := by
    rw [List.infix_concat_iff, List.suffix_concat_iff] at found
    obtain (rfl | ⟨front, rfl, -⟩) | found := found
    · exact List.nil_infix
    · simp at hpart
    · exact found
  cases h with
  | escape found width hex refused =>
    -- neither a letter that announces digits nor a digit is the end mark
    refine .escape (hpart_of ?_ found) width hex refused
    rw [List.mem_cons, List.mem_cons, not_or, not_or]
    refine ⟨by decide, ?_, fun hend => absurd (hex _ hend) (by decide)⟩
    rintro rfl
    cases width
  | number directive found decimal long =>
    exact .number (hpart_of (by decide) directive)
      (hpart_of (fun hend => absurd (decimal _ hend) (by decide)) found) decimal long

/-- The characters of a document are those it is scanned from, an end mark apart. -/
theorem Misspelled.of_glyphs {source : Source} {f : Fault}
    (h : Misspelled (chars source.glyphs) f) : Misspelled source.chars f := by
  unfold Source.glyphs at h
  rw [chars_placeFrom] at h
  split at h
  · exact h.of_endMark
  · exact h

/-- Where the tokens of a document break off, this is a fault of syntax, the fault at the cut, or
one with a cause in the characters. -/
theorem fault_of_broken_mem_tokens {source : Source} {f : Fault}
    (h : .broken f ∈ tokens source) :
    f = .malformed ∨ source.fault = some f ∨ Misspelled source.chars f := by
  have hrest : (if peek source.glyphs == '\uFEFF' then source.glyphs.drop 1 else source.glyphs)
      <:+ source.glyphs := by
    split
    · exact List.drop_suffix ..
    · exact List.suffix_rfl
  have hrun := Scanner.fault_of_broken_mem_run (by simp [Scanner.IsSound]) (by simp) h
  obtain hf | hf | hf := hrun
  · exact .inl hf
  · cases hsource : source.fault with
    | none => exact .inl (hf.trans (by rw [hsource]; rfl))
    | some g => exact .inr (.inl (by rw [hf, hsource]; rfl))
  · exact .inr (.inr (hf.mono (infix_chars hrest)).of_glyphs)

end Lineage.Yaml
