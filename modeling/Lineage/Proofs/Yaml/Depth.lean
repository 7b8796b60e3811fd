import Mathlib.Data.List.Basic
import Lineage.Yaml.Tree
import Lineage.Proofs.Meets

/-!
# Why tokens spell no tree

A tree is read from tokens in one pass, so where no tree is read, its rules are broken, or the
tokens themselves break off, or too many collections enclose each other. In the last case the tokens
that open these collections are all there (`faulty_of_ofTokens`).
-/

namespace Lineage.Yaml

/-- A token that can open a collection. A hyphen opens one that is not indented, and a key one of a
single entry. -/
def Token.opens : Token → Bool
  | .blockSequenceStart | .blockMappingStart | .flowSequenceStart | .flowMappingStart
  | .blockEntry | .key => true
  | _ => false

namespace Tree

/-- What the fault says of the tokens in which it is met, with room for so many collections. -/
def Faulty (room : Nat) (ts : List Token) (f : Fault) : Prop :=
  f = .malformed ∨ .broken f ∈ ts ∨ f = .tooDeep ∧ room < ts.countP Token.opens

variable {room : Nat} {ts rest : List Token} {t : Token} {f : Fault} {handles : Handles} {α : Type}

theorem Faulty.of_suffix (h : Faulty room rest f) (hrest : rest <:+ ts) : Faulty room ts f :=
  h.imp_right fun h => h.imp (fun hmem => hrest.subset hmem) fun ⟨hf, hroom⟩ =>
    ⟨hf, Nat.lt_of_lt_of_le hroom hrest.sublist.countP_le⟩

/-- Inside a collection there is room for one collection less. -/
theorem Faulty.of_opens (h : Faulty room rest f) (ht : t.opens = true) :
    Faulty (room + 1) (t :: rest) f :=
  h.imp_right fun h => h.imp (fun hmem => List.mem_cons_of_mem _ hmem) fun ⟨hf, hroom⟩ =>
    ⟨hf, by rw [List.countP_cons_of_pos ht]; omega⟩

/-- What reads a part of the tokens leaves a rest of them, or meets a fault of theirs. -/
abbrev Parses (room : Nat) (ts : List Token) (x : Except Fault (α × List Token)) : Prop :=
  Meets (Faulty room ts) (fun p => p.2 <:+ ts) x

theorem Parses.within {x : Except Fault (α × List Token)} (hx : Parses room rest x)
    (hrest : rest <:+ ts) : Parses room ts x :=
  hx.mono (fun _ h => h.of_suffix hrest) fun _ h => h.trans hrest

theorem Parses.behind {x : Except Fault (α × List Token)} (hx : Parses room rest x) :
    Parses room (t :: rest) x :=
  hx.within (List.suffix_cons ..)

/-- What is read behind a token that opens a collection is read inside it. -/
theorem meets_of_opens {P : α → Prop} {x : Except Fault α} (hx : Meets (Faulty room rest) P x)
    (ht : t.opens = true) : Meets (Faulty (room + 1) (t :: rest)) P x :=
  hx.mono (fun _ h => h.of_opens ht) fun _ h => h

/-! ## Parts of a node -/

theorem faulty_unexpected (room : Nat) (ts : List Token) (P : α → Prop) :
    Meets (Faulty room ts) P (unexpected ts : Except Fault α) := by
  unfold unexpected
  split
  · exact .inr (.inl (List.mem_cons_self ..))
  · exact .inl rfl

theorem meets_inside (rest : List Token) (ht : t.opens = true) :
    Meets (Faulty room (t :: rest)) (fun inner => room = inner + 1) (inside room) := by
  cases room with
  | zero => exact .inr (.inr ⟨rfl, by rw [List.countP_cons_of_pos ht]; omega⟩)
  | succ room => rfl

theorem meets_resolveTag (handles : Handles) (h : Option String) (s : String) :
    Meets (Faulty room ts) (fun _ => True) (resolveTag handles h s) := by
  unfold resolveTag
  split
  · trivial
  · split
    · trivial
    · exact .inl rfl

theorem parses_props (room : Nat) (handles : Handles) (ts : List Token) :
    Parses room ts (props handles ts) := by
  unfold props
  split
  · exact (meets_resolveTag ..).bind fun _ _ => (List.suffix_cons ..).trans (List.suffix_cons ..)
  · exact (meets_resolveTag ..).bind fun _ _ => (List.suffix_cons ..).trans (List.suffix_cons ..)
  · exact List.suffix_cons ..
  · exact .inr (.inl (by simp))
  · exact (meets_resolveTag ..).bind fun _ _ => List.suffix_cons ..
  · exact List.suffix_rfl

/-! ## Nodes -/

/-- What all readers of nodes and of their parts do, with calls of the given depth. -/
structure ReadsNodes (handles : Handles) (fuel : Nat) : Prop where
  node : ∀ room block indentless ts,
    Parses room ts (node handles room block indentless fuel ts)
  blockItems : ∀ room items ts, Parses room ts (blockItems handles room fuel items ts)
  indentlessItems : ∀ room items ts,
    Parses (room + 1) ts (indentlessItems handles room fuel items ts)
  blockEntries : ∀ room entries ts, Parses room ts (blockEntries handles room fuel entries ts)
  flowValue : ∀ room close ts, Parses room ts (flowValue handles room close fuel ts)
  flowItems : ∀ room first items ts,
    Parses room ts (flowItems handles room first fuel items ts)
  flowEntries : ∀ room first entries ts,
    Parses room ts (flowEntries handles room first fuel entries ts)

section

/- The readers call each other with one call less. -/
variable {fuel : Nat} (ih : ∀ less, fuel = less + 1 → ReadsNodes handles less)
include ih

theorem parses_node (room : Nat) (block indentless : Bool) (ts : List Token) :
    Parses room ts (node handles room block indentless fuel ts) := by
  unfold node
  split
  · exact .inl rfl
  · exact List.suffix_cons ..
  · refine Meets.bind (parses_props room handles _) ?_
    rintro ⟨p, rest⟩ hrest
    refine Parses.within ?_ hrest
    have hnothing (ts : List Token) :
        Parses room ts (if p == {} then unexpected ts else .ok (scalar p {} true, ts)) :=
      Meets.ite (fun _ => faulty_unexpected ..) fun _ => List.suffix_rfl
    dsimp only
    split
    · exact .inr (.inl (List.mem_cons_self ..))
    · refine Meets.ite (fun _ => ?_) fun _ => hnothing _
      refine (meets_inside _ rfl).bind fun inner hroom => ?_
      subst hroom
      exact Meets.bind ((ih _ rfl).indentlessItems ..) fun _ h => h
    · exact List.suffix_cons ..
    · refine (meets_inside _ rfl).bind fun inner hroom => ?_
      subst hroom
      exact Meets.bind (meets_of_opens ((ih _ rfl).flowItems ..) rfl) fun _ h =>
        h.trans (List.suffix_cons ..)
    · refine (meets_inside _ rfl).bind fun inner hroom => ?_
      subst hroom
      exact Meets.bind (meets_of_opens ((ih _ rfl).flowEntries ..) rfl) fun _ h =>
        h.trans (List.suffix_cons ..)
    · refine Meets.ite (fun _ => ?_) fun _ => hnothing _
      refine (meets_inside _ rfl).bind fun inner hroom => ?_
      subst hroom
      exact Meets.bind (meets_of_opens ((ih _ rfl).blockItems ..) rfl) fun _ h =>
        h.trans (List.suffix_cons ..)
    · refine Meets.ite (fun _ => ?_) fun _ => hnothing _
      refine (meets_inside _ rfl).bind fun inner hroom => ?_
      subst hroom
      exact Meets.bind (meets_of_opens ((ih _ rfl).blockEntries ..) rfl) fun _ h =>
        h.trans (List.suffix_cons ..)
    · exact hnothing _

theorem parses_blockItems (room : Nat) (items : List Tree) (ts : List Token) :
    Parses room ts (blockItems handles room fuel items ts) := by
  unfold blockItems
  split
  · exact .inl rfl
  · refine Meets.ite (fun _ => ((ih _ rfl).blockItems ..).behind) fun _ => ?_
    refine Meets.bind ((ih _ rfl).node ..).behind fun p hp => ?_
    exact ((ih _ rfl).blockItems ..).within hp
  · exact List.suffix_cons ..
  · exact faulty_unexpected ..

theorem parses_indentlessItems (room : Nat) (items : List Tree) (ts : List Token) :
    Parses (room + 1) ts (indentlessItems handles room fuel items ts) := by
  unfold indentlessItems
  split
  · exact .inl rfl
  · refine Meets.ite (fun _ => ((ih _ rfl).indentlessItems ..).behind) fun _ => ?_
    refine Meets.bind (meets_of_opens ((ih _ rfl).node ..) rfl) fun p hp => ?_
    exact ((ih _ rfl).indentlessItems ..).within (hp.trans (List.suffix_cons ..))
  · exact List.suffix_rfl

theorem parses_blockEntries (room : Nat) (entries : List (Tree × Tree)) (ts : List Token) :
    Parses room ts (blockEntries handles room fuel entries ts) := by
  unfold blockEntries
  split
  · exact .inl rfl
  · rename_i fuel rest
    refine Parses.behind ?_
    have hpart (ts : List Token) :
        Parses room ts (node handles room true true fuel ts) := (ih _ rfl).node ..
    refine Meets.ite_bind (P := fun p : Tree × List Token => p.2 <:+ rest) List.suffix_rfl
      (hpart rest) ?_
    rintro ⟨k, ts⟩ hts
    dsimp only
    split
    · rename_i rest'
      refine Parses.within (Parses.behind ?_) hts
      refine Meets.ite_bind (P := fun p : Tree × List Token => p.2 <:+ rest') List.suffix_rfl
        (hpart rest') ?_
      rintro ⟨v, ts⟩ hts
      exact ((ih _ rfl).blockEntries ..).within hts
    · exact Meets.ok_bind (((ih _ rfl).blockEntries ..).within hts)
  · exact List.suffix_cons ..
  · exact faulty_unexpected ..

theorem parses_flowValue (room : Nat) (close : Token) (ts : List Token) :
    Parses room ts (flowValue handles room close fuel ts) := by
  unfold flowValue
  split
  · exact .inl rfl
  · exact Meets.ite (fun _ => List.suffix_cons ..) fun _ => ((ih _ rfl).node ..).behind
  · exact List.suffix_rfl

theorem parses_flowItems (room : Nat) (first : Bool) (items : List Tree) (ts : List Token) :
    Parses room ts (flowItems handles room first fuel items ts) := by
  unfold flowItems
  split
  · exact .inl rfl
  · exact List.suffix_cons ..
  · rename_i fuel _
    extract_lets next
    have hnext (ts : List Token) : Parses room ts (next ts) := by
      unfold next
      split
      · exact List.suffix_cons ..
      · rename_i rest
        refine (meets_inside _ rfl).bind fun inner hroom => ?_
        subst hroom
        refine Meets.ite_bind (P := fun p : Tree × List Token => p.2 <:+ rest) List.suffix_rfl
          (meets_of_opens ((ih _ rfl).node ..) rfl) ?_
        rintro ⟨k, ts⟩ hts
        refine Meets.bind (meets_of_opens (((ih _ rfl).flowValue ..).within hts) rfl) ?_
        rintro ⟨v, ts⟩ hts
        exact ((ih _ rfl).flowItems ..).within (hts.trans (List.suffix_cons ..))
      · refine Meets.bind ((ih _ rfl).node ..) ?_
        rintro ⟨item, rest⟩ hrest
        exact ((ih _ rfl).flowItems ..).within hrest
    clear_value next
    split
    · exact hnext _
    · exact (hnext _).behind
    · exact (faulty_unexpected _ _ fun _ => False).bind fun _ => False.elim

theorem parses_flowEntries (room : Nat) (first : Bool) (entries : List (Tree × Tree))
    (ts : List Token) : Parses room ts (flowEntries handles room first fuel entries ts) := by
  unfold flowEntries
  split
  · exact .inl rfl
  · exact List.suffix_cons ..
  · rename_i fuel _
    extract_lets value next
    have hnext (ts : List Token) : Parses room ts (next ts) := by
      unfold next
      split
      · exact List.suffix_cons ..
      · rename_i rest
        refine Parses.behind ?_
        refine Meets.ite_bind (P := fun p : Tree × List Token => p.2 <:+ rest) List.suffix_rfl
          ((ih _ rfl).node ..) ?_
        rintro ⟨k, ts⟩ hts
        refine Meets.bind (((ih _ rfl).flowValue ..).within hts) ?_
        rintro ⟨v, ts⟩ hts
        exact ((ih _ rfl).flowEntries ..).within hts
      · refine Meets.bind ((ih _ rfl).node ..) ?_
        rintro ⟨k, rest⟩ hrest
        exact ((ih _ rfl).flowEntries ..).within hrest
    clear_value next
    split
    · exact hnext _
    · exact (hnext _).behind
    · exact (faulty_unexpected _ _ fun _ => False).bind fun _ => False.elim

end

theorem readsNodes (handles : Handles) (fuel : Nat) : ReadsNodes handles fuel := by
  have hstep (n : Nat) (ih : ∀ less, n = less + 1 → ReadsNodes handles less) :
      ReadsNodes handles n :=
    ⟨parses_node ih, parses_blockItems ih, parses_indentlessItems ih, parses_blockEntries ih,
      parses_flowValue ih, parses_flowItems ih, parses_flowEntries ih⟩
  induction fuel with
  | zero => exact hstep 0 fun _ h => nomatch h
  | succ fuel ih => exact hstep (fuel + 1) fun less h => Nat.succ.inj h ▸ ih

/-! ## Documents -/

theorem parses_directives (room : Nat) (versioned : Bool) (handles : Handles) (ts : List Token) :
    Parses room ts (directives versioned handles ts) := by
  fun_induction directives versioned handles ts with
  | case1 => exact .inl rfl
  | case2 _ _ _ _ _ _ ih => exact ih.behind
  | case3 => exact .inl rfl
  | case4 _ _ _ _ _ _ ih => exact ih.behind
  | case5 _ _ _ _ ih => exact ih.behind
  | case6 => exact List.suffix_rfl

theorem skipEnds_suffix (ts : List Token) : skipEnds ts <:+ ts := by
  fun_induction skipEnds ts with
  | case1 rest ih => exact ih.trans (List.suffix_cons ..)
  | case2 => exact List.suffix_rfl

theorem meets_streamEnds (room : Nat) (ts : List Token) :
    Meets (Faulty room ts) (fun _ => True) (streamEnds ts) := by
  have hrest := skipEnds_suffix ts
  unfold streamEnds
  split
  · trivial
  · rename_i rest _
    have hparse := (parses_directives room false [] (skipEnds ts)).within hrest
    exact hparse.bind fun p hp => (faulty_unexpected room p.2 _).mono
      (fun _ h => h.of_suffix hp) fun _ h => h

/-- The tokens up to some place, behind which they may break off for a fault of syntax or for the
fault that broke them off before. -/
def CutsOff (ts cut : List Token) : Prop :=
  ∃ front last, cut = front ++ last ∧ front <+: ts ∧
    (last = [] ∨ ∃ f, last = [.broken f] ∧ (f = .malformed ∨ .broken f ∈ ts))

theorem CutsOff.cons {cut : List Token} (h : CutsOff ts cut) (t : Token) :
    CutsOff (t :: ts) (t :: cut) := by
  obtain ⟨front, last, rfl, hfront, hlast⟩ := h
  refine ⟨t :: front, last, rfl, (List.prefix_cons_inj t).2 hfront, hlast.imp_right ?_⟩
  exact fun ⟨f, hf, h⟩ => ⟨f, hf, h.imp_right (List.mem_cons_of_mem t)⟩

theorem cutsOff_broken (ts : List Token) : CutsOff ts [.broken .malformed] :=
  ⟨[], _, rfl, List.nil_prefix, .inr ⟨_, rfl, .inl rfl⟩⟩

theorem cutsOff_breakOff (ts : List Token) : CutsOff ts (breakOff ts) := by
  unfold breakOff
  split
  · exact ⟨[], _, rfl, List.nil_prefix, .inr ⟨_, rfl, .inr (List.mem_cons_self ..)⟩⟩
  · exact cutsOff_broken _

theorem cutsOff_checkAnchors (seen : List String) (ts : List Token) :
    CutsOff ts (checkAnchors seen ts) := by
  fun_induction checkAnchors seen ts with
  | case1 => exact ⟨[], [], rfl, List.nil_prefix, .inl rfl⟩
  | case2 seen name rest _ ih => exact ih.cons _
  | case3 => exact cutsOff_broken _
  | case4 seen a h s rest ih =>
    refine ((CutsOff.cons ?_ _).cons _)
    split
    · exact cutsOff_breakOff rest
    · exact ih
  | case5 seen a rest _ ih =>
    refine CutsOff.cons ?_ _
    split
    · exact cutsOff_breakOff rest
    · exact ih
  | case6 seen t rest _ _ _ ih => exact ih.cons t

theorem Faulty.of_cutsOff {cut : List Token} (h : Faulty room cut f) (hcut : CutsOff ts cut) :
    Faulty room ts f := by
  obtain ⟨front, last, rfl, hfront, hlast⟩ := hcut
  obtain h | h | ⟨hf, hroom⟩ := h
  · exact .inl h
  · rw [List.mem_append] at h
    obtain h | h := h
    · exact .inr (.inl (hfront.subset h))
    · obtain rfl | ⟨g, rfl, hg⟩ := hlast
      · cases h
      · obtain rfl := Token.broken.inj (List.mem_singleton.1 h)
        exact hg.imp_right .inl
  · -- the token that breaks the others off opens no collection
    have hlast' : last.countP Token.opens = 0 := by
      obtain rfl | ⟨g, rfl, -⟩ := hlast <;> rfl
    rw [List.countP_append, hlast', Nat.add_zero] at hroom
    exact .inr (.inr ⟨hf, Nat.lt_of_lt_of_le hroom hfront.sublist.countP_le⟩)

theorem meets_ofTokens (room : Nat) (ts : List Token) :
    Meets (Faulty room ts) (fun _ => True) (ofTokens room ts) := by
  refine Meets.mono (E := Faulty room (checkAnchors [] ts)) ?_
    (fun _ h => h.of_cutsOff (cutsOff_checkAnchors [] ts)) fun _ h => h
  unfold ofTokens
  extract_lets bound finish
  generalize checkAnchors [] ts = ts
  have hfinish (p : Tree × List Token) (hp : p.2 <:+ ts) :
      Meets (Faulty room ts) (fun _ => True) (finish p) :=
    ((meets_streamEnds room p.2).mono (fun _ h => h.of_suffix hp) fun _ h => h).bind
      fun _ _ => trivial
  clear_value finish
  split
  · trivial
  · split
    case h_3 => exact Meets.bind ((readsNodes ..).node ..) hfinish
    -- a document with directives and one with a start marker are read alike
    all_goals
      refine Meets.bind (parses_directives ..) ?_
      rintro ⟨own, rest⟩ hrest
      dsimp only
      split
      · rename_i rest
        replace hrest := (List.suffix_cons _ rest).trans hrest
        have hempty : Parses room _ (.ok (empty, rest)) := hrest
        exact Meets.ite_bind hempty (((readsNodes ..).node ..).within hrest) hfinish
      · exact Meets.bind ((faulty_unexpected _ _ fun _ => False).mono
          (fun _ h => h.of_suffix hrest) fun _ h => h) fun _ => False.elim

/-- Where tokens spell no tree, this is a fault of syntax, the fault that breaks them off, or they
open too many collections. -/
theorem faulty_of_ofTokens (h : ofTokens room ts = .error f) : Faulty room ts f :=
  (meets_ofTokens room ts).of_error h

end Tree

end Lineage.Yaml
