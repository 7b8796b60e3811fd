import Mathlib.Data.List.TakeDrop
import Lineage.Yaml.Document
import Lineage.Proofs.Meets

/-!
# Why nodes make no value

The values of nodes are made from nodes that are changed on the way: the entries that merge keys
bring in are put into mappings, and value keys become texts. The texts of scalars and what kind of
node each is never change (`Evolves`). So where no value can be made for another reason than a
broken rule, some node of the document as it was composed has a tag by which its text, or the text
of its value key, cannot be read; or its value keys lead back to it, for which some node must be
part of one composed later (`Valueless`).
-/

namespace Lineage.Yaml

variable {α : Type}

/-! ## Composition -/

/-- An outcome whose error is a broken rule. -/
abbrev Rules (P : α → Prop) (x : Except Fault α) : Prop :=
  Meets (· = .malformed) P x

namespace Composition

theorem rules_add (c : Composition) (anchor : Option String) (n : Node) :
    Rules (fun _ => True) (c.add anchor n) := by
  unfold add
  cases anchor with
  | none => trivial
  | some a => exact Meets.ite (fun _ => rfl) fun _ => trivial

mutual

theorem rules_compose (c : Composition) : (t : Tree) → Rules (fun _ => True) (compose c t)
  | .alias name => by
    unfold compose
    split
    · trivial
    · rfl
  | .scalar p text plain => rules_add ..
  | .sequence p items => by
    unfold compose
    exact (rules_add ..).bind fun p _ => (rules_composeItems p.1 items).bind fun _ _ => trivial
  | .mapping p entries => by
    unfold compose
    exact (rules_add ..).bind fun p _ => (rules_composeEntries p.1 entries).bind fun _ _ => trivial

theorem rules_composeItems (c : Composition) :
    (ts : List Tree) → Rules (fun _ => True) (composeItems c ts)
  | [] => trivial
  | t :: ts => by
    unfold composeItems
    exact (rules_compose c t).bind fun p _ => (rules_composeItems p.1 ts).bind fun _ _ => trivial

theorem rules_composeEntries (c : Composition) :
    (es : List (Tree × Tree)) → Rules (fun _ => True) (composeEntries c es)
  | [] => trivial
  | (k, v) :: es => by
    unfold composeEntries
    exact (rules_compose c k).bind fun p _ => (rules_compose p.1 v).bind fun q _ =>
      (rules_composeEntries q.1 es).bind fun _ _ => trivial

end

end Composition

/-! ## How nodes change -/

/-- Both hold the same text, the same items, or are mappings. -/
def Content.Like : Content → Content → Prop
  | .scalar t, .scalar u => t = u
  | .sequence is, .sequence js => is = js
  | .mapping _, .mapping _ => True
  | _, _ => False

/-- The number is related to all parts. -/
def Content.Related (R : Nat → Nat → Prop) (i : Nat) : Content → Prop
  | .scalar _ => True
  | .sequence is => ∀ j ∈ is, R i j
  | .mapping es => ∀ p ∈ es, R i p.1 ∧ R i p.2

/-- The node of a number, as making values finds it. -/
abbrev nodeAt (nodes : Array Node) (i : Nat) : Node :=
  nodes.getD i default

/-- All nodes are related to their parts. -/
def Linked (R : Nat → Nat → Prop) (nodes : Array Node) : Prop :=
  ∀ i, (nodeAt nodes i).content.Related R i

/-- What making values leaves of the nodes: texts and items stay as they are and mappings stay
mappings, only the tag of a text is new, and new parts are related as the old ones. -/
structure Evolves (R : Nat → Nat → Prop) (ns ms : Array Node) : Prop where
  size : ms.size = ns.size
  like : ∀ i, (nodeAt ns i).content.Like (nodeAt ms i).content
  tag : ∀ i, (nodeAt ms i).tag = (nodeAt ns i).tag ∨ (nodeAt ms i).tag = Tag.standard "str"
  linked : Linked R ns → Linked R ms

variable {R : Nat → Nat → Prop}

theorem Content.Related.mono {S : Nat → Nat → Prop} {i : Nat} {c : Content}
    (hc : c.Related R i) (h : ∀ j, R i j → S i j) : c.Related S i :=
  match c with
  | .scalar _ => trivial
  | .sequence _ => fun j hj => h j (hc j hj)
  | .mapping _ => fun p hp => ⟨h _ (hc p hp).1, h _ (hc p hp).2⟩

theorem Content.related_of_forall {i : Nat} (c : Content) (h : ∀ j, R i j) : c.Related R i :=
  match c with
  | .scalar _ => trivial
  | .sequence _ => fun j _ => h j
  | .mapping _ => fun p _ => ⟨h p.1, h p.2⟩

theorem Content.Like.refl (c : Content) : c.Like c := by
  cases c <;> trivial

theorem Content.Like.trans {a b c : Content} (hab : a.Like b) (hbc : b.Like c) : a.Like c :=
  match a, b, c with
  | .scalar _, .scalar _, .scalar _ => Eq.trans hab hbc
  | .sequence _, .sequence _, .sequence _ => Eq.trans hab hbc
  | .mapping _, .mapping _, .mapping _ => trivial

namespace Evolves

variable {ns ms os : Array Node}

theorem refl (ns : Array Node) : Evolves R ns ns :=
  ⟨rfl, fun _ => .refl _, fun _ => .inl rfl, id⟩

theorem trans (h₁ : Evolves R ns ms) (h₂ : Evolves R ms os) : Evolves R ns os where
  size := h₂.size.trans h₁.size
  like i := (h₁.like i).trans (h₂.like i)
  tag i := (h₂.tag i).elim (fun h => h ▸ h₁.tag i) .inr
  linked h := h₂.linked (h₁.linked h)

end Evolves

theorem nodeAt_modify (nodes : Array Node) (i j : Nat) (f : Node → Node) :
    nodeAt (nodes.modify i f) j
      = if i = j ∧ j < nodes.size then f (nodeAt nodes j) else nodeAt nodes j := by
  unfold nodeAt
  rw [Array.getD_eq_getD_getElem?, Array.getD_eq_getD_getElem?, Array.getElem?_modify]
  by_cases hj : j < nodes.size
  · by_cases hij : i = j <;> simp [hij, hj]
  · simp [hj]

namespace Making

variable {m : Making} {i : Nat}

theorem evolves_setEntries {old es : List (Nat × Nat)} (hold : (m.node i).content = .mapping old)
    (hes : (Content.mapping es).Related R i) : Evolves R m.nodes (m.setEntries i es).nodes := by
  have hnode (j : Nat) : nodeAt (m.setEntries i es).nodes j
      = if i = j ∧ j < m.nodes.size then { nodeAt m.nodes j with content := .mapping es }
        else nodeAt m.nodes j := nodeAt_modify ..
  refine ⟨Array.size_modify .., fun j => ?_, fun j => ?_, fun h j => ?_⟩
  · rw [hnode]
    split
    · rename_i hj
      obtain ⟨rfl, -⟩ := hj
      show (m.node i).content.Like _
      rw [hold]
      trivial
    · exact .refl _
  · rw [hnode]
    split <;> exact .inl rfl
  · rw [hnode]
    split
    · rename_i hj
      exact hj.1 ▸ hes
    · exact h j

theorem evolves_readTag (m : Making) (i : Nat) : Evolves R m.nodes (m.readTag i).nodes := by
  unfold readTag
  split
  · have hnode (j : Nat) := nodeAt_modify m.nodes i j
      fun n => { n with tag := Tag.standard "str" }
    refine ⟨Array.size_modify .., fun j => ?_, fun j => ?_, fun h j => ?_⟩
    · rw [hnode]
      split <;> exact .refl _
    · rw [hnode]
      split
      · exact .inr rfl
      · exact .inl rfl
    · rw [hnode]
      split <;> exact h j
  · exact .refl _

theorem evolves_readTags (m : Making) (es : List (Nat × Nat)) :
    Evolves R m.nodes (es.foldl (fun m (k, _) => m.readTag k) m).nodes := by
  induction es generalizing m with
  | nil => exact .refl _
  | cons e es ih => exact (evolves_readTag m e.1).trans (ih _)

theorem rules_entries? (m : Making) (i : Nat) :
    Rules (fun es => (m.node i).content = .mapping es) (m.entries? i) := by
  unfold entries?
  split
  · assumption
  · rfl

theorem related_of_linked {c : Content} (hm : Linked R m.nodes) (hc : (m.node i).content = c) :
    c.Related R i :=
  hc ▸ hm i

/-! ## Merge keys -/

/-- The outcome of taking entries out of mappings: the nodes have evolved, and the number is related
to the entries. -/
abbrev Brings (R : Nat → Nat → Prop) (m : Making) (i : Nat)
    (x : Except Fault (Making × List (Nat × Nat))) : Prop :=
  Rules (fun p => Evolves R m.nodes p.1.nodes ∧ (Content.mapping p.2).Related R i) x

theorem related_append {es fs : List (Nat × Nat)} (hes : (Content.mapping es).Related R i)
    (hfs : (Content.mapping fs).Related R i) : (Content.mapping (es ++ fs)).Related R i :=
  fun p hp => (List.mem_append.1 hp).elim (hes p) (hfs p)

/-- The value of the entry that a span of entries ends before, and the entries besides it. -/
theorem related_of_span {es own rest : List (Nat × Nat)} {k v : Nat} {p : Nat × Nat → Bool}
    (hes : (Content.mapping es).Related R i) (hspan : es.span p = (own, (k, v) :: rest)) :
    R i v ∧ (Content.mapping (own ++ rest)).Related R i := by
  rw [List.span_eq_takeWhile_dropWhile, Prod.mk.injEq] at hspan
  obtain rfl : own ++ (k, v) :: rest = es := by
    rw [← hspan.1, ← hspan.2, List.takeWhile_append_dropWhile]
  refine ⟨(hes (k, v) (by simp)).2, fun q hq => hes q ?_⟩
  rw [List.mem_append] at hq ⊢
  exact hq.imp_right (List.mem_cons_of_mem _)

theorem rules_prepend {es : List (Nat × Nat)} (hm : Linked R m.nodes)
    (hes : (Content.mapping es).Related R i) :
    Rules (fun m' => Evolves R m.nodes m'.nodes) (m.prepend i es) := by
  unfold prepend
  refine Meets.ite (fun _ => .refl _) fun _ => (rules_entries? m i).bind fun old hold => ?_
  exact evolves_setEntries hold (related_append hes (related_of_linked hm hold))

/-- Merged entries are related to what they are merged into, as they are reached from there. -/
theorem brings_takeMerges (hR : ∀ i j k, R i j → R j k → R i k) (m : Making) (depth i : Nat)
    (brought : List (Nat × Nat)) (hm : Linked R m.nodes)
    (hbrought : (Content.mapping brought).Related R i) :
    Brings R m i (m.takeMerges depth i brought) := by
  induction depth generalizing m i brought with
  | zero => rfl
  | succ depth ih =>
    unfold takeMerges
    extract_lets merged goOn
    -- merging a mapping takes its own merge entries first, which are reached through it
    have hmerged (m : Making) (j : Nat) (hm : Linked R m.nodes) (hj : R i j) :
        Brings R m i (merged m j) := by
      refine (ih m j [] hm fun _ h => nomatch h).bind ?_
      rintro ⟨m', more⟩ ⟨hm', hmore⟩
      refine (rules_prepend (hm'.linked hm) hmore).bind fun m'' hm'' => ?_
      refine (rules_entries? m'' j).bind fun es hes => ⟨hm'.trans hm'', ?_⟩
      have hbehind := related_of_linked (hm''.linked (hm'.linked hm)) hes
      exact fun p hp => ⟨hR i j _ hj (hbehind p hp).1, hR i j _ hj (hbehind p hp).2⟩
    have hgoOn (p : Making × List (Nat × Nat)) (hp : Evolves R m.nodes p.1.nodes)
        (hmore : (Content.mapping p.2).Related R i) : Brings R m i (goOn p) :=
      (ih p.1 i _ (hp.linked hm) (related_append hbrought hmore)).mono (fun _ h => h)
        fun q hq => ⟨hp.trans hq.1, hq.2⟩
    clear_value merged goOn
    refine (rules_entries? m i).bind fun es hes => ?_
    have hentries := related_of_linked hm hes
    split
    · exact ⟨evolves_readTags .., hbrought⟩
    · rename_i own k v rest hspan
      obtain ⟨hv, hkept⟩ := related_of_span hentries hspan
      have hset := evolves_setEntries hes hkept
      have hm' := hset.linked hm
      extract_lets m'
      split
      · refine Meets.bind (hmerged m' v hm' hv) fun p hp => ?_
        exact hgoOn p (hset.trans hp.1) hp.2
      · rename_i items hitems
        refine Meets.bind (P := fun p : Making × List (Nat × Nat) => Evolves R m'.nodes p.1.nodes ∧
          (Content.mapping p.2).Related R i) ?_ fun p hp => hgoOn p (hset.trans hp.1) hp.2
        refine Meets.foldlM ⟨.refl _, fun _ h => nomatch h⟩ fun j hj p hp => ?_
        have hitem : R i j := hR i v j hv (related_of_linked hm' hitems j hj)
        refine (hmerged p.1 j (hp.1.linked hm') hitem).bind fun q hq => ?_
        exact ⟨hp.1.trans hq.1, related_append hq.2 hp.2⟩
      · exact (rfl : Fault.malformed = .malformed)

theorem rules_flatten (hR : ∀ i j k, R i j → R j k → R i k) (m : Making) (i : Nat)
    (hm : Linked R m.nodes) : Rules (fun m' => Evolves R m.nodes m'.nodes) (m.flatten i) := by
  refine (brings_takeMerges hR m _ i [] hm fun _ h => nomatch h).bind ?_
  rintro ⟨m', brought⟩ ⟨hm', hbrought⟩
  exact (rules_prepend (hm'.linked hm) hbrought).mono (fun _ h => h) fun _ h => hm'.trans h

/-! ## Texts -/

/-- A node that is a mapping is one of the nodes. -/
theorem lt_size_of_mapping {es : List (Nat × Nat)} (h : (m.node i).content = .mapping es) :
    i < m.nodes.size := by
  by_contra hi
  have hnode : m.node i = default := by
    unfold node
    rw [Array.getD_eq_getD_getElem?, Array.getElem?_eq_none (Nat.le_of_not_lt hi)]
    rfl
  rw [hnode] at h
  cases h

theorem exists_of_endless {depth : Nat} (h : m.text (depth + 1) i = .error .endless) :
    ∃ es k v, (m.node i).content = .mapping es ∧ (k, v) ∈ es ∧
      m.text depth v = .error .endless := by
  unfold text at h
  split at h
  · cases h
  · rename_i es hes
    split at h
    · rename_i k v hfind
      exact ⟨es, k, v, hes, List.mem_of_find?_eq_some hfind, h⟩
    · cases h
  · cases h

/-- While parts come behind, the value keys that a text is looked for behind lead on to ever later
nodes, so not too many of them are passed. -/
theorem add_le_size_of_endless {depth : Nat} (hm : Linked (· < ·) m.nodes)
    (h : m.text (depth + 1) i = .error .endless) : i + depth + 1 ≤ m.nodes.size := by
  induction depth generalizing i with
  | zero =>
    obtain ⟨es, -, -, hes, -, -⟩ := exists_of_endless h
    exact lt_size_of_mapping hes
  | succ depth ih =>
    obtain ⟨es, k, v, hes, hv, hrest⟩ := exists_of_endless h
    have hbehind : i < v := (related_of_linked hm hes (k, v) hv).2
    have hle := ih hrest
    omega

/-- The text of a node is that of a scalar. -/
theorem meets_text (m : Making) (depth i : Nat) :
    Meets (fun f => f = .malformed ∨ f = .endless)
      (fun t => ∃ j, (m.node j).content = .scalar t) (m.text depth i) := by
  induction depth generalizing i with
  | zero => exact .inr rfl
  | succ depth ih =>
    unfold text
    split
    · exact ⟨i, ‹_›⟩
    · split
      · exact ih _
      · exact .inl rfl
    · exact .inl rfl

theorem text_of_scalar {depth : Nat} {t : Text} (h : (m.node i).content = .scalar t) :
    m.text (depth + 1) i = .ok t := by
  unfold text
  rw [h]

theorem text_of_sequence {depth : Nat} {is : List Nat}
    (h : (m.node i).content = .sequence is) : m.text (depth + 1) i = .error .malformed := by
  unfold text
  rw [h]

end Making

/-! ## Values -/

/-- Why nodes have no value: one of them has the tag of a scalar type, whose reader refuses its text
or, if it is a mapping, the text behind its value key; or value keys lead back to a mapping, which
takes a node that is part of a later one. -/
inductive Valueless (nodes : Array Node) : Fault → Prop
  | scalar {i : Nat} {name : String} {read : Text → Except Fault Data} {t : Text} {f : Fault}
      (tag : Making.standardName? (nodeAt nodes i).tag = some name)
      (reader : Making.scalarReader? i true name = some read)
      (content : (nodeAt nodes i).content = .scalar t) (refused : read t = .error f) :
      Valueless nodes f
  | mapping {i j : Nat} {es : List (Nat × Nat)} {name : String} {read : Text → Except Fault Data}
      {t : Text} {f : Fault} (tag : Making.standardName? (nodeAt nodes i).tag = some name)
      (reader : Making.scalarReader? i false name = some read)
      (content : (nodeAt nodes i).content = .mapping es)
      (text : (nodeAt nodes j).content = .scalar t) (refused : read t = .error f) :
      Valueless nodes f
  | endless {i : Nat} {es : List (Nat × Nat)} (content : (nodeAt nodes i).content = .mapping es)
      (back : ¬ Linked (· < ·) nodes) : Valueless nodes .endless

/-- The second number comes behind the first, if all parts of nodes come behind these. -/
def Behind (nodes : Array Node) (i j : Nat) : Prop :=
  Linked (· < ·) nodes → i < j

theorem Behind.trans (nodes : Array Node) (i j k : Nat) (h₁ : Behind nodes i j)
    (h₂ : Behind nodes j k) : Behind nodes i k :=
  fun h => Nat.lt_trans (h₁ h) (h₂ h)

theorem linked_behind (nodes : Array Node) : Linked (Behind nodes) nodes := by
  by_cases h : Linked (· < ·) nodes
  · exact fun i => (h i).mono fun _ hj _ => hj
  · exact fun i => Content.related_of_forall _ fun _ hforward => absurd hforward h

namespace Making

variable {nodes : Array Node}

/-- The values are made from these nodes. -/
def IsOf (nodes : Array Node) (m : Making) : Prop :=
  Evolves (Behind nodes) nodes m.nodes

/-- An outcome whose error is a broken rule or lies in the nodes. -/
abbrev Makes (nodes : Array Node) {α : Type} (P : α → Prop) (x : Except Fault α) : Prop :=
  Meets (fun f => f = .malformed ∨ Valueless nodes f) P x

theorem Makes.of_rules {P : α → Prop} {x : Except Fault α} (hx : Rules P x) : Makes nodes P x :=
  hx.mono (fun _ h => .inl h) fun _ h => h

variable {m : Making} {i : Nat}

theorem IsOf.linked (hm : m.IsOf nodes) : Linked (Behind nodes) m.nodes :=
  Evolves.linked hm (linked_behind nodes)

theorem IsOf.linked_lt (hm : m.IsOf nodes) (h : Linked (· < ·) nodes) :
    Linked (· < ·) m.nodes :=
  fun i => (hm.linked i).mono fun _ hj => hj h

theorem IsOf.scalar {t : Text} (hm : m.IsOf nodes) (h : (m.node i).content = .scalar t) :
    (nodeAt nodes i).content = .scalar t := by
  have hlike : (nodeAt nodes i).content.Like (m.node i).content := hm.like i
  rw [h] at hlike
  cases hcontent : (nodeAt nodes i).content with
  | scalar u =>
    rw [hcontent] at hlike
    rw [show u = t from hlike]
  | sequence is =>
    rw [hcontent] at hlike
    exact hlike.elim
  | mapping es =>
    rw [hcontent] at hlike
    exact hlike.elim

theorem IsOf.mapping {es : List (Nat × Nat)} (hm : m.IsOf nodes)
    (h : (m.node i).content = .mapping es) : ∃ es, (nodeAt nodes i).content = .mapping es := by
  have hlike : (nodeAt nodes i).content.Like (m.node i).content := hm.like i
  rw [h] at hlike
  cases hcontent : (nodeAt nodes i).content with
  | scalar u =>
    rw [hcontent] at hlike
    exact hlike.elim
  | sequence is =>
    rw [hcontent] at hlike
    exact hlike.elim
  | mapping es => exact ⟨es, rfl⟩

/-- Where no text is found, a rule is broken or value keys lead back. -/
theorem makes_text (hm : m.IsOf nodes) (i : Nat) :
    Makes nodes (fun t => ∃ j, (nodeAt nodes j).content = .scalar t)
      (m.text (m.nodes.size + 1) i) := by
  cases htext : m.text (m.nodes.size + 1) i with
  | ok t =>
    obtain ⟨j, hj⟩ := (meets_text m _ i).of_ok htext
    exact ⟨j, hm.scalar hj⟩
  | error f =>
    obtain rfl | rfl := (meets_text m _ i).of_error htext
    · exact .inl rfl
    · obtain ⟨es, -, -, hes, -, -⟩ := exists_of_endless htext
      obtain ⟨es', hes'⟩ := hm.mapping hes
      refine .inr (.endless hes' fun hforward => ?_)
      have hle := add_le_size_of_endless (hm.linked_lt hforward) htext
      omega

theorem standardName?_str : standardName? (Tag.standard "str") = some "str" := by
  decide

/-- Whether a node is a scalar itself, as the readers of scalar types are told. -/
def isScalar (n : Node) : Bool :=
  match n.content with
  | .scalar _ => true
  | _ => false

/-- What the reader of a node's tag refuses lies in the nodes. The tag that value keys get refuses
nothing. -/
theorem makes_refused {name : String} {read : Text → Except Fault Data} (hm : m.IsOf nodes)
    (hname : standardName? (m.node i).tag = some name)
    (hread : scalarReader? i (isScalar (m.node i)) name = some read) :
    Makes nodes (fun t => ∀ f, read t = .error f → f = .malformed ∨ Valueless nodes f)
      (m.text (m.nodes.size + 1) i) := by
  cases htext : m.text (m.nodes.size + 1) i with
  | error f => exact (makes_text hm i).of_error htext
  | ok t =>
    intro f hf
    obtain htag | htag : (m.node i).tag = (nodeAt nodes i).tag ∨
        (m.node i).tag = Tag.standard "str" := hm.tag i
    · rw [htag] at hname
      cases hcontent : (m.node i).content with
      | scalar u =>
        rw [text_of_scalar hcontent] at htext
        obtain rfl := Except.ok.inj htext
        rw [show isScalar (m.node i) = true by rw [isScalar, hcontent]] at hread
        exact .inr (.scalar hname hread (hm.scalar hcontent) hf)
      | sequence is =>
        rw [text_of_sequence hcontent] at htext
        cases htext
      | mapping es =>
        obtain ⟨es', hes'⟩ := hm.mapping hcontent
        obtain ⟨j, hj⟩ := (makes_text hm i).of_ok htext
        rw [show isScalar (m.node i) = false by rw [isScalar, hcontent]] at hread
        exact .inr (.mapping hname hread hes' hj hf)
    · rw [htag, standardName?_str] at hname
      obtain rfl := Option.some.inj hname
      obtain rfl := Option.some.inj hread
      cases hf

theorem makes_make (hm : m.IsOf nodes) (i : Nat) :
    Makes nodes (fun p => p.1.IsOf nodes) (m.make i) := by
  unfold make
  split
  · exact hm
  · extract_lets n direct b
    split
    · rename_i name hname
      split
      · rename_i read _ hread
        refine (makes_refused hm hname hread).bind fun t ht => ?_
        exact (Meets.of_forall ht).bind fun _ _ => hm
      · exact hm
      · exact .inl rfl
    · exact .inl rfl

/-! ## Collections -/

theorem makes_makeAll (hm : m.IsOf nodes) (is : List Nat) :
    Makes nodes (fun p => p.1.IsOf nodes) (m.makeAll is) := by
  induction is generalizing m with
  | nil => exact hm
  | cons i is ih =>
    unfold makeAll
    exact (makes_make hm i).bind fun p hp => (ih hp).bind fun q hq => hq

theorem makes_makeEntries (hm : m.IsOf nodes) (done : List (Data × Ref))
    (es : List (Nat × Nat)) : Makes nodes (fun p => p.1.IsOf nodes) (m.makeEntries done es) := by
  induction es generalizing m done with
  | nil => exact hm
  | cons e es ih =>
    unfold makeEntries
    refine (makes_make hm e.1).bind ?_
    rintro ⟨m, key⟩ hm
    cases key with
    | box b => exact .inl rfl
    | value key => exact (makes_make hm e.2).bind fun q hq => ih hq _

theorem makes_makePairs (hm : m.IsOf nodes) (is : List Nat) :
    Makes nodes (fun p => p.1.IsOf nodes) (m.makePairs is) := by
  induction is generalizing m with
  | nil => exact hm
  | cons i is ih =>
    unfold makePairs
    refine (Makes.of_rules (rules_entries? m i)).bind fun es _ => ?_
    split
    · exact (makes_make hm _).bind fun p hp => (makes_make hp _).bind fun q hq =>
        (ih hq).bind fun r hr => hr
    · exact .inl rfl

theorem rules_items? (m : Making) (i : Nat) : Rules (fun _ => True) (m.items? i) := by
  unfold items?
  split
  · trivial
  · rfl

theorem makes_mappingEntries (hm : m.IsOf nodes) (i : Nat) :
    Makes nodes (fun p => p.1.IsOf nodes) (m.mappingEntries i) := by
  refine (Makes.of_rules (rules_flatten (Behind.trans nodes) m i hm.linked)).bind fun m' hm' => ?_
  refine (Makes.of_rules (rules_entries? m' i)).bind fun es _ => ?_
  exact makes_makeEntries (Evolves.trans hm hm') [] es

theorem makes_fill (hm : m.IsOf nodes) (i b : Nat) :
    Makes nodes (fun m' => m'.IsOf nodes) (m.fill i b) := by
  unfold fill
  extract_lets finish
  have hfinish (p : Making × Box) (hp : p.1.IsOf nodes) :
      Makes nodes (fun m' => m'.IsOf nodes) (finish p) := hp
  clear_value finish
  split
  · exact (Makes.of_rules (rules_items? m i)).bind fun is _ =>
      (makes_makeAll hm is).bind fun p hp => Meets.ok_bind (hfinish _ hp)
  · exact (makes_mappingEntries hm i).bind fun p hp => Meets.ok_bind (hfinish _ hp)
  · exact (makes_mappingEntries hm i).bind fun p hp => Meets.ok_bind (hfinish _ hp)
  · exact (Makes.of_rules (rules_items? m i)).bind fun is _ =>
      (makes_makePairs hm is).bind fun p hp => Meets.ok_bind (hfinish _ hp)

theorem makes_fillFrom (hm : m.IsOf nodes) (bound b : Nat) :
    Makes nodes (fun m' => m'.IsOf nodes) (fillFrom bound b m) := by
  induction bound generalizing m b with
  | zero => exact hm
  | succ bound ih =>
    unfold fillFrom
    split
    · exact hm
    · exact (makes_fill hm _ b).bind fun m' hm' => ih hm' _

/-- Making starts from the nodes as they were composed. -/
theorem isOf_start (nodes : Array Node) : ({ nodes } : Making).IsOf nodes :=
  Evolves.refl nodes

end Making

end Lineage.Yaml
