import Lineage.Text.Expression
import Mathlib.Data.List.Basic
import Mathlib.Logic.Equiv.Defs

/-!
# Expressions without a choice

Whether an expression leaves a choice is a matter of what its pieces may start with and what may
follow them. `Spells` says of an expression that its readings are the spellings of certain things,
that the first one found is a spelling in full if a code point of the right class follows it, and
that no two things are spelled alike. This carries over from the pieces to a sequence, a repetition,
an option and a part if the classes fit together. Then a whole text has at most one reading
(`Spells.whole?_eq`), and spellings one behind the other are told apart again by a scan
(`Spells.scan_eq`).
-/

namespace Lineage.Text

variable {label ι κ : Type}

/-- The text starts with a code point of the class, unless it is empty. -/
def Next (p : CodePoint → Bool) (cs : List CodePoint) : Prop :=
  ∀ c ∈ cs.head?, p c = true

namespace Next

variable {p q : CodePoint → Bool} {cs ds : List CodePoint}

theorem nil (p : CodePoint → Bool) : Next p [] := by
  simp [Next]

theorem mono (hpq : ∀ c, p c = true → q c = true) (h : Next p cs) : Next q cs :=
  fun c hc => hpq c (h c hc)

/-- An empty text does not stand in the way of what follows it. -/
theorem append (hcs : Next p cs) (hds : cs = [] → Next p ds) : Next p (cs ++ ds) := by
  cases cs with
  | nil => exact hds rfl
  | cons c cs => exact hcs

end Next

/-- A code point of a class. -/
abbrev CharIn (p : CodePoint → Bool) : Type :=
  { c : CodePoint // p c = true }

namespace Expression

/-- The expression reads the spellings of things, and nothing else. A spelling starts with a
character of the class `first`, unless it is empty; if a character of the class `follow` stands
behind it or nothing at all, it is what is read first. -/
structure Spells (e : Expression label) (chars : ι → List CodePoint)
    (parts : ι → List (label × List CodePoint)) (first follow : CodePoint → Bool) : Prop where
  starts : ∀ i, Next first (chars i)
  reads : ∀ i rest, Next follow rest → ∀ {α : Type} (accept : Reading label → Option α) (a : α),
    accept ⟨chars i, parts i, rest⟩ = some a → e.firstSome? accept (chars i ++ rest) = some a
  only : ∀ {α : Type} (accept : Reading label → Option α) (cs : List CodePoint) (a : α),
    e.firstSome? accept cs = some a →
      ∃ i rest, cs = chars i ++ rest ∧ accept ⟨chars i, parts i, rest⟩ = some a
  injective : ∀ i j, chars i = chars j → i = j

namespace Spells

variable {a b e : Expression label} {ca : ι → List CodePoint} {cb : κ → List CodePoint}
  {pa : ι → List (label × List CodePoint)} {pb : κ → List (label × List CodePoint)}
  {fa fb f wa wb w : CodePoint → Bool}

/-! ## What is read -/

/-- A text is split into a spelling and its rest in one way only. -/
theorem unique (h : Spells a ca pa fa wa) {i j : ι} {r s : List CodePoint} (hr : Next wa r)
    (hs : Next wa s) (heq : ca i ++ r = ca j ++ s) : i = j ∧ r = s := by
  have hi := h.reads i r hr some _ rfl
  have hj := h.reads j s hs some _ rfl
  rw [heq, hj, Option.some.injEq, Reading.mk.injEq] at hi
  exact ⟨h.injective i j hi.1.symm, hi.2.2.symm⟩

/-- A text is refused if no spelling starts like it. -/
theorem refuses (h : Spells a ca pa fa wa) (hne : ∀ i, ca i ≠ [])
    (hdisjoint : ∀ c, w c = true → fa c = false) {cs : List CodePoint} (hcs : Next w cs) {α : Type}
    (accept : Reading label → Option α) : a.firstSome? accept cs = none := by
  rw [Option.eq_none_iff_forall_not_mem]
  intro x hx
  obtain ⟨i, rest, rfl, _⟩ := h.only accept cs x hx
  obtain ⟨c, hc⟩ := List.exists_cons_of_ne_nil (hne i)
  obtain ⟨tail, hc⟩ := hc
  have hfirst := h.starts i c (by rw [hc]; rfl)
  have hclash := hdisjoint c (hcs c (by rw [hc]; rfl))
  rw [hfirst] at hclash
  cases hclash

/-! ## Pieces -/

theorem one (p w : CodePoint → Bool) :
    Spells (.one p : Expression label) (fun c : CharIn p => [c.1]) (fun _ => []) p w where
  starts := by
    rintro ⟨c, hc⟩ d hd
    cases hd
    exact hc
  reads := by
    rintro ⟨c, hc⟩ rest _ α accept x h
    show (if p c then _ else _) = _
    rw [if_pos hc]
    exact h
  only := by
    intro α accept cs x h
    cases cs with
    | nil => cases h
    | cons c rest =>
      rw [firstSome?] at h
      split at h
      · rename_i hc
        exact ⟨⟨c, hc⟩, rest, rfl, h⟩
      · cases h
  injective := by
    rintro ⟨c, _⟩ ⟨d, _⟩ h
    cases h
    rfl

/-- A fixed text. -/
theorem literal (t : Text) (w : CodePoint → Bool) :
    Spells (.literal t : Expression label) (fun _ : Unit => t.codePoints) (fun _ => [])
      (fun c => t.codePoints.head? == some c) w where
  starts _ c hc := by simpa using hc
  reads := by
    obtain ⟨cs⟩ := t
    intro _ rest _ α accept x h
    induction cs generalizing accept with
    | nil => exact h
    | cons c cs ih =>
      show (if (c == c) = true then _ else _) = _
      rw [if_pos (beq_self_eq_true c)]
      exact ih _ h
  only := by
    obtain ⟨cs⟩ := t
    intro α accept ds x h
    refine ⟨(), ?_⟩
    induction cs generalizing accept ds with
    | nil => exact ⟨ds, rfl, h⟩
    | cons c cs ih =>
      cases ds with
      | nil => cases h
      | cons d ds =>
        change (if (d == c) = true then _ else _) = _ at h
        split at h
        · rename_i hd
          obtain ⟨rest, rfl, hrest⟩ := ih _ _ h
          obtain rfl := eq_of_beq hd
          exact ⟨rest, rfl, hrest⟩
        · cases h
  injective _ _ _ := rfl

/-! ## Expressions from others -/

/-- Things that correspond to others and are spelled like them may be put in their place. -/
theorem equiv (h : Spells a ca pa fa wa) (g : κ ≃ ι) (hchars : ∀ k, cb k = ca (g k))
    (hparts : ∀ k, pb k = pa (g k)) : Spells a cb pb fa wa where
  starts k := by
    rw [hchars]
    exact h.starts (g k)
  reads k := by
    rw [hchars, hparts]
    exact h.reads (g k)
  only accept cs x hx := by
    obtain ⟨i, rest, hcs, haccept⟩ := h.only accept cs x hx
    refine ⟨g.symm i, rest, ?_, ?_⟩
    · rw [hchars, g.apply_symm_apply, hcs]
    · rw [hchars, hparts, g.apply_symm_apply, haccept]
  injective i j hij := by
    rw [hchars, hchars] at hij
    exact g.injective (h.injective _ _ hij)

theorem mono (h : Spells a ca pa fa wa) (hfirst : ∀ c, fa c = true → f c = true)
    (hfollow : ∀ c, w c = true → wa c = true) : Spells a ca pa f w where
  starts i := (h.starts i).mono hfirst
  reads i rest hrest := h.reads i rest (hrest.mono hfollow)
  only := h.only
  injective := h.injective

theorem part (h : Spells a ca pa fa wa) (l : label) :
    Spells (.part l a) ca (fun i => (l, ca i) :: pa i) fa wa where
  starts := h.starts
  reads i rest hrest _ _ _ haccept := h.reads i rest hrest _ _ haccept
  only _ cs x hx := h.only _ cs x hx
  injective := h.injective

/-- What comes next is the start of a spelling, or what follows it if it is empty. -/
theorem next (h : Spells a ca pa fa wa) (hfirst : ∀ c, fa c = true → w c = true)
    (hfollow : ∀ c, wa c = true → w c = true) (i : ι) (rest : List CodePoint)
    (hrest : Next wa rest) : Next w (ca i ++ rest) :=
  ((h.starts i).mono hfirst).append fun _ => hrest.mono hfollow

theorem next_of_ne_nil (h : Spells a ca pa fa wa) (hne : ∀ i, ca i ≠ [])
    (hfirst : ∀ c, fa c = true → w c = true) (i : ι) (rest : List CodePoint) :
    Next w (ca i ++ rest) :=
  ((h.starts i).mono hfirst).append fun hnil => absurd hnil (hne i)

/-- One spelling behind another, if what may start the second one, or follow it where it is empty,
may follow the first one. -/
theorem seq (ha : Spells a ca pa fa wa) (hb : Spells b cb pb fb wb)
    (hfirst : ∀ i j, Next f (ca i ++ cb j))
    (hnext : ∀ j rest, Next wb rest → Next wa (cb j ++ rest)) :
    Spells (.seq a b) (fun ij : ι × κ => ca ij.1 ++ cb ij.2) (fun ij => pb ij.2 ++ pa ij.1) f
      wb where
  starts ij := hfirst ij.1 ij.2
  reads := by
    rintro ⟨i, j⟩ rest hrest α accept x haccept
    have hinner := hb.reads j rest hrest
      (fun s => accept (Reading.andThen ⟨ca i, pa i, cb j ++ rest⟩ s)) x haccept
    rw [List.append_assoc]
    exact ha.reads i (cb j ++ rest) (hnext j rest hrest) _ x hinner
  only := by
    intro α accept cs x hx
    obtain ⟨i, rest, rfl, hinner⟩ := ha.only _ cs x hx
    obtain ⟨j, rest, rfl, haccept⟩ := hb.only _ rest x hinner
    exact ⟨(i, j), rest, (List.append_assoc _ _ _).symm, haccept⟩
  injective := by
    rintro ⟨i, j⟩ ⟨i', j'⟩ heq
    have hend : ∀ j, Next wa (cb j) := fun j => by
      simpa using hnext j [] (.nil wb)
    obtain ⟨rfl, hrest⟩ := ha.unique (hend j) (hend j') heq
    rw [hb.injective j j' hrest]

theorem seq_of_ne_nil (ha : Spells a ca pa fa wa) (hb : Spells b cb pb fb wb)
    (hne : ∀ i, ca i ≠ []) (hnext : ∀ j rest, Next wb rest → Next wa (cb j ++ rest)) :
    Spells (.seq a b) (fun ij : ι × κ => ca ij.1 ++ cb ij.2) (fun ij => pb ij.2 ++ pa ij.1) fa wb :=
  ha.seq hb (fun i j => ha.next_of_ne_nil hne (fun _ => id) i (cb j)) hnext

theorem seq_nonempty (ha : Spells a ca pa fa wa) (hb : Spells b cb pb fb wb)
    (hnea : ∀ i, ca i ≠ []) (hneb : ∀ j, cb j ≠ []) (hnext : ∀ c, fb c = true → wa c = true) :
    Spells (.seq a b) (fun ij : ι × κ => ca ij.1 ++ cb ij.2) (fun ij => pb ij.2 ++ pa ij.1) fa wb :=
  ha.seq_of_ne_nil hb hnea fun j rest _ => hb.next_of_ne_nil hneb hnext j rest

/-- A spelling or nothing. -/
theorem optional (h : Spells a ca pa fa wa) (hne : ∀ i, ca i ≠ [])
    (hfollow : ∀ c, w c = true → wa c = true) (hdisjoint : ∀ c, w c = true → fa c = false) :
    Spells (.optional a) (fun o : Option ι => o.elim [] ca) (fun o => o.elim [] pa) fa w where
  starts o := by
    cases o with
    | none => exact .nil fa
    | some i => exact h.starts i
  reads := by
    intro o rest hrest α accept x haccept
    cases o with
    | none =>
      show (a.firstSome? accept rest).or _ = _
      rw [h.refuses hne hdisjoint hrest]
      exact haccept
    | some i =>
      show (a.firstSome? accept (ca i ++ rest)).or _ = _
      rw [h.reads i rest (hrest.mono hfollow) accept x haccept]
      rfl
  only := by
    intro α accept cs x hx
    rcases Option.or_eq_some_iff.1 hx with hread | ⟨_, hempty⟩
    · obtain ⟨i, rest, hcs, haccept⟩ := h.only accept cs x hread
      exact ⟨some i, rest, hcs, haccept⟩
    · exact ⟨none, cs, rfl, hempty⟩
  injective := by
    intro o o' heq
    cases o with
    | none =>
      cases o' with
      | none => rfl
      | some j => exact absurd heq.symm (hne j)
    | some i =>
      cases o' with
      | none => exact absurd heq (hne i)
      | some j => exact congrArg some (h.injective i j heq)

section Many

variable (h : Spells a ca pa fa wa) (hne : ∀ i, ca i ≠ [])
  (hagain : ∀ c, fa c = true → wa c = true)

include h hne hagain

/-- What stands behind a spelling is further spellings, or the rest. -/
theorem next_flatMap {rest : List CodePoint} (hrest : Next wa rest) (is : List ι) :
    Next wa (is.flatMap ca ++ rest) := by
  cases is with
  | nil => exact hrest
  | cons i is =>
    rw [List.flatMap_cons, List.append_assoc]
    exact h.next_of_ne_nil hne hagain i _

theorem flatMap_injective {is js : List ι} (heq : is.flatMap ca = js.flatMap ca) : is = js := by
  have hnext : ∀ ks : List ι, Next wa (ks.flatMap ca) := fun ks => by
    simpa using h.next_flatMap hne hagain (.nil wa) ks
  induction is generalizing js with
  | nil =>
    cases js with
    | nil => rfl
    | cons j js => exact absurd (List.append_eq_nil_iff.1 heq.symm).1 (hne j)
  | cons i is ih =>
    cases js with
    | nil => exact absurd (List.append_eq_nil_iff.1 heq).1 (hne i)
    | cons j js =>
      obtain ⟨rfl, hrest⟩ := h.unique (hnext is) (hnext js) heq
      rw [ih hrest]

omit hne hagain in
/-- A repetition reads spellings one behind the other, and nothing else. -/
theorem flatMap_of_repeating {α : Type} (accept : Reading label → Option α) (cs : List CodePoint)
    (x : α) (hx : repeating a.firstSome? accept cs = some x) :
    ∃ (is : List ι) (rest : List CodePoint), cs = is.flatMap ca ++ rest ∧
      accept ⟨is.flatMap ca, is.reverse.flatMap pa, rest⟩ = some x := by
  induction hn : cs.length using Nat.strongRecOn generalizing accept cs with
  | ind n ih =>
    rw [repeating] at hx
    rcases Option.or_eq_some_iff.1 hx with hread | ⟨_, hstop⟩
    · obtain ⟨i, rest, rfl, hmore⟩ := h.only _ cs x hread
      split at hmore
      · rename_i hlt
        obtain ⟨is, left, rfl, haccept⟩ := ih rest.length (hn ▸ hlt) _ rest hmore rfl
        refine ⟨i :: is, left, (List.append_assoc _ _ _).symm, ?_⟩
        rw [List.flatMap_cons, List.reverse_cons, List.flatMap_append, List.flatMap_singleton]
        exact haccept
      · cases hmore
    · exact ⟨[], cs, rfl, hstop⟩

/-- Spellings one behind the other. -/
theorem many (hfollow : ∀ c, w c = true → wa c = true)
    (hdisjoint : ∀ c, w c = true → fa c = false) :
    Spells (.many a) (fun is : List ι => is.flatMap ca) (fun is => is.reverse.flatMap pa) fa w where
  starts is := by
    cases is with
    | nil => exact .nil fa
    | cons i is => exact h.next_of_ne_nil hne (fun _ => id) i (is.flatMap ca)
  reads := by
    intro is rest hrest α accept x haccept
    show repeating a.firstSome? accept _ = _
    induction is generalizing accept with
    | nil =>
      rw [repeating, List.flatMap_nil, List.nil_append, h.refuses hne hdisjoint hrest]
      exact haccept
    | cons i is ih =>
      rw [List.flatMap_cons, List.reverse_cons, List.flatMap_append, List.flatMap_singleton]
        at haccept
      have hmore := ih
        (fun s => accept (Reading.andThen ⟨ca i, pa i, is.flatMap ca ++ rest⟩ s)) haccept
      have hlt : (is.flatMap ca ++ rest).length < (ca i ++ (is.flatMap ca ++ rest)).length := by
        have hpos := List.length_pos_iff.2 (hne i)
        simp only [List.length_append]
        omega
      rw [repeating, List.flatMap_cons, List.append_assoc,
        h.reads i _ (h.next_flatMap hne hagain (hrest.mono hfollow) is) _ x
          (by rw [dif_pos hlt]; exact hmore)]
      rfl
  only accept cs x hx := h.flatMap_of_repeating accept cs x hx
  injective _ _ heq := h.flatMap_injective hne hagain heq

end Many

/-- Spellings in which nothing is remembered. -/
theorem many_plain (h : Spells a ca (fun _ => []) fa wa) (hne : ∀ i, ca i ≠ [])
    (hagain : ∀ c, fa c = true → wa c = true) (hfollow : ∀ c, w c = true → wa c = true)
    (hdisjoint : ∀ c, w c = true → fa c = false) :
    Spells (.many a) (fun is : List ι => is.flatMap ca) (fun _ => []) fa w :=
  (h.many hne hagain hfollow hdisjoint).equiv (.refl _) (fun _ => rfl) fun _ => by simp

/-- Code points of a class. -/
theorem many_one (p : CodePoint → Bool) (hdisjoint : ∀ c, w c = true → p c = false) :
    Spells (.many (.one p) : Expression label) (fun cs : List (CharIn p) => cs.map (·.1))
      (fun _ => []) p w :=
  ((one p fun _ => true).many_plain (fun _ => List.cons_ne_nil _ _) (fun _ _ => rfl)
    (fun _ _ => rfl) hdisjoint).equiv (.refl _) (fun _ => List.map_eq_flatMap) fun _ => rfl

/-- One of several words, no two of which start alike. -/
theorem anyOf_literal {ks : List κ} {word : κ → Text} (hall : ∀ k, k ∈ ks)
    (hne : ∀ k, (word k).codePoints ≠ [])
    (hheads : ∀ k l, (word k).codePoints.head? = (word l).codePoints.head? → k = l)
    (w : CodePoint → Bool) :
    Spells (.anyOf (ks.map fun k => .literal (word k)) : Expression label)
      (fun k => (word k).codePoints) (fun _ => [])
      (fun c => ks.any fun k => (word k).codePoints.head? == some c) w where
  starts k c hc := List.any_eq_true.2 ⟨k, hall k, by simpa using hc⟩
  reads := by
    intro k rest hrest α accept x haccept
    replace hall := hall k
    induction ks with
    | nil => cases hall
    | cons l ks ih =>
      show ((Expression.literal (word l)).firstSome? accept _).or _ = _
      by_cases hkl : k = l
      · rw [← hkl, (literal (word k) w).reads () rest hrest accept x haccept]
        rfl
      · -- the other word would have to start alike
        have hrefused : (Expression.literal (word l)).firstSome? accept
            ((word k).codePoints ++ rest) = none := by
          rw [Option.eq_none_iff_forall_not_mem]
          intro y hy
          obtain ⟨_, left, heq, _⟩ := (literal (word l) w).only accept _ y hy
          have hhead := congrArg List.head? heq
          rw [List.head?_append_of_ne_nil _ (hne k), List.head?_append_of_ne_nil _ (hne l)] at hhead
          exact hkl (hheads k l hhead)
        rw [hrefused]
        exact ih ((List.mem_cons.1 hall).resolve_left hkl)
  only := by
    intro α accept cs x hx
    clear hall
    induction ks with
    | nil =>
      cases cs with
      | nil => cases hx
      | cons c cs => cases hx
    | cons l ks ih =>
      rcases Option.or_eq_some_iff.1 hx with hread | ⟨_, hrest⟩
      · obtain ⟨_, rest, hcs, haccept⟩ := (literal (word l) w).only accept cs x hread
        exact ⟨l, rest, hcs, haccept⟩
      · exact ih hrest
  injective k l heq := hheads k l (congrArg List.head? heq)

/-! ## Whole texts and scans -/

/-- A spelling is read as a whole. -/
theorem whole?_eq (h : Spells a ca pa fa wa) (i : ι) :
    a.whole? (ca i) = some ⟨ca i, pa i, []⟩ := by
  have hread := h.reads i [] (.nil wa) (fun r => if isEnd r.rest then some r else none) _ rfl
  rwa [List.append_nil] at hread

/-- What is read as a whole is a spelling, unless a line end stands behind it. -/
theorem eq_of_whole? (h : Spells a ca pa fa wa) {cs : List CodePoint}
    (hcs : cs.getLast? ≠ some (.char '\n')) {r : Reading label} (hr : a.whole? cs = some r) :
    ∃ i, cs = ca i := by
  obtain ⟨i, rest, rfl, haccept⟩ := h.only _ cs r hr
  have hend : isEnd rest = true := by
    by_contra hno
    rw [if_neg hno] at haccept
    cases haccept
  rcases Bool.or_eq_true_iff.1 hend with hnil | hline
  · exact ⟨i, by rw [eq_of_beq hnil, List.append_nil]⟩
  · rw [eq_of_beq hline, List.getLast?_concat] at hcs
    exact absurd rfl hcs

/-- A scan finds the spellings that stand one behind the other. -/
theorem scan_eq (h : Spells a ca pa fa wa) (hne : ∀ i, ca i ≠ [])
    (hagain : ∀ c, fa c = true → wa c = true) (is : List ι) :
    (a.scan (is.flatMap ca)).map (fun r => (r.text, r.parts)) = is.map fun i => (ca i, pa i) := by
  induction is with
  | nil =>
    have hnone : a.taking? [] = none :=
      h.refuses (w := fun _ => false) hne (fun _ => nofun) (.nil _) _
    rw [List.flatMap_nil, scan.eq_def, hnone]
    rfl
  | cons i is ih =>
    have hnext : Next wa (is.flatMap ca) := by
      simpa using h.next_flatMap hne hagain (.nil wa) is
    have hlt : (is.flatMap ca).length < (ca i ++ is.flatMap ca).length := by
      rw [List.length_append]
      have hpos := List.length_pos_iff.2 (hne i)
      omega
    have hread : a.taking? (ca i ++ is.flatMap ca) =
        some ⟨⟨ca i, pa i, is.flatMap ca⟩, hlt⟩ :=
      h.reads i _ hnext _ _ (dif_pos hlt)
    rw [List.flatMap_cons, scan.eq_def, hread, List.map_cons, List.map_cons, ih]

end Spells

end Expression

end Lineage.Text
