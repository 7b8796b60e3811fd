import Lineage.Proofs.Declaration.WrittenModel
import Lineage.Proofs.Load.Names
import Lineage.Proofs.Yaml.Room

/-!
# Sets in data documents

A set has no order of its own, and two runs may list it differently. Where a set of texts is asked
for, its order is lost again; but a set may also stand for a list, and then the order is seen. So a
document that gives no set for a list is read as the same model by all runs that have room for it
(`Load.modelOfFile_of_listed`).
-/

namespace Lineage

open Yaml (Box Ref SetOrder)

/-! ## Documents that list their sets differently -/

namespace Yaml

variable {boxes boxes' : Array Box} {b : Nat} {es : List (Data × Ref)}

/-- The two collections differ in the order of a set at most. -/
inductive Box.Alike : Box → Box → Prop
  | same (box : Box) : Alike box box
  | set {ds ds' : List Data} (perm : ds.Perm ds') : Alike (.set ds) (.set ds')

/-- Whatever the orders are, a set keeps its members. -/
theorem Box.alike_inOrder (order order' : SetOrder) (box : Box) :
    Alike (box.inOrder order) (box.inOrder order') := by
  cases box with
  | set ds => exact .set ((order.perm ds).trans (order'.perm ds).symm)
  | _ => exact .same _

/-- The collections of two documents differ in the order of sets at most. -/
def Alike (boxes boxes' : Array Box) : Prop :=
  ∀ b, (boxes.getD b default).Alike (boxes'.getD b default)

/-- Ordering the sets of a document orders each of them by itself. -/
theorem getD_inOrder (order : SetOrder) (boxes : Array Box) (b : Nat) :
    (boxes.map (·.inOrder order)).getD b default = (boxes.getD b default).inOrder order := by
  rw [Array.getD_eq_getD_getElem?, Array.getD_eq_getD_getElem?, Array.getElem?_map]
  cases boxes[b]? <;> rfl

theorem alike_inOrder (order order' : SetOrder) (boxes : Array Box) :
    Alike (boxes.map (·.inOrder order)) (boxes.map (·.inOrder order')) := by
  intro b
  rw [getD_inOrder, getD_inOrder]
  exact Box.alike_inOrder order order' _

/-- A mapping of the one document is the same mapping in the other. -/
theorem Alike.map (h : Alike boxes boxes') (hb : boxes.getD b default = .map es) :
    boxes'.getD b default = .map es := by
  have hbox := h b
  rw [hb] at hbox
  generalize boxes'.getD b default = box at hbox
  cases hbox
  rfl

theorem getElem?_of_getD_map (hb : boxes.getD b default = .map es) :
    boxes[b]? = some (.map es) := by
  rw [Array.getD_eq_getD_getElem?] at hb
  cases hbox : boxes[b]? with
  | none =>
    rw [hbox] at hb
    cases hb
  | some box =>
    rw [hbox] at hb
    exact congrArg some hb

/-- A mapping that is replaced by another is the only collection that changes. -/
theorem getD_set (hb : boxes.getD b default = .map es) (box : Box) (c : Nat) :
    (boxes.setIfInBounds b box).getD c default = if b = c then box else boxes.getD c default := by
  have hbound : b < boxes.size := (Array.getElem?_eq_some_iff.1 (getElem?_of_getD_map hb)).1
  rw [Array.getD_eq_getD_getElem?, Array.getElem?_setIfInBounds, if_pos hbound]
  split
  · rfl
  · rw [Array.getD_eq_getD_getElem?]

/-- Putting the same collection in for a mapping keeps two documents alike. -/
theorem Alike.set (h : Alike boxes boxes') (hb : boxes.getD b default = .map es) (box : Box) :
    Alike (boxes.setIfInBounds b box) (boxes'.setIfInBounds b box) := by
  intro c
  rw [getD_set hb, getD_set (h.map hb)]
  split
  · exact .same _
  · exact h c

end Yaml

/-! ## Checks -/

namespace Checked

variable {α : Type} {check : Data → Checked α} {n : Nat} {l l' : List Data} {as : List α}

/-- Items pass exactly if each of them does, and give what each of them gives. -/
theorem items_eq_ok_iff :
    items check n l = .ok as ↔ List.Forall₂ (fun d a => check d = .ok a) l as := by
  induction l generalizing n as with
  | nil =>
    rw [List.forall₂_nil_left_iff]
    exact ⟨fun h => (Except.ok.inj h).symm, fun h => h ▸ rfl⟩
  | cons d l ih =>
    rw [items, map_eq_ok, List.forall₂_cons_left_iff]
    constructor
    · rintro ⟨⟨a, as⟩, hboth, rfl⟩
      obtain ⟨ha, has⟩ := also_eq_ok.1 hboth
      exact ⟨a, as, under_eq_ok.1 ha, ih.1 has, rfl⟩
    · rintro ⟨a, as, ha, has, rfl⟩
      exact ⟨(a, as), also_eq_ok.2 ⟨under_eq_ok.2 ha, ih.2 has⟩, rfl⟩

/-- Items that pass in one order pass in every order. -/
theorem exists_items_of_perm (h : l.Perm l') (hitems : items check n l = .ok as) :
    ∃ as', items check n l' = .ok as' ∧ as.Perm as' := by
  obtain ⟨as', has', hperm⟩ := List.perm_comp_forall₂ h.symm (items_eq_ok_iff.1 hitems)
  exact ⟨as', items_eq_ok_iff.2 has', hperm.symm⟩

/-- Only what the check makes of the items counts. -/
theorem items_map_congr {β : Type} {f g : β → Data} (h : ∀ b, check (f b) = check (g b))
    (bs : List β) : items check n (bs.map f) = items check n (bs.map g) := by
  induction bs generalizing n with
  | nil => rfl
  | cons b bs ih => rw [List.map_cons, List.map_cons, items, items, h, ih]

end Checked

namespace Data

variable {d d' : Data}

/-- No check but the one for lists tells the two values apart. -/
structure Agrees (d d' : Data) : Prop where
  text : d.checkText = d'.checkText
  optionalText : d.checkText? = d'.checkText?
  textMap : d.checkTextMap = d'.checkTextMap
  /-- A set of texts is read in another order at most. -/
  textSet : ∀ ts, d.checkTextSet = .ok ts → ∃ ts', d'.checkTextSet = .ok ts' ∧ ts.Perm ts'

theorem Agrees.refl (d : Data) : Agrees d d :=
  ⟨rfl, rfl, rfl, fun ts h => ⟨ts, h, .refl ts⟩⟩

/-- A name is checked as a text. -/
theorem Agrees.name (h : Agrees d d') : d.checkName = d'.checkName := by
  unfold checkName checkString
  rw [h.text]

theorem Agrees.kind (h : Agrees d d') : Declaration.checkKind d = Declaration.checkKind d' := by
  unfold Declaration.checkKind
  rw [h.text]

/-- A mapping of texts only depends on what its values are as texts. -/
theorem checkEntries_map_congr {β : Type} {f g : β → Data}
    (h : ∀ b, (f b).checkText = (g b).checkText) (es : List (Data × β)) :
    checkEntries (es.map fun e => (e.1, f e.2)) = checkEntries (es.map fun e => (e.1, g e.2)) := by
  induction es with
  | nil => rfl
  | cons e es ih => rw [List.map_cons, List.map_cons, checkEntries, checkEntries, h, ih]

end Data

/-! ## Values of two documents -/

namespace Yaml.Ref

variable {boxes boxes' : Array Box} {b : Nat} {es : List (Data × Ref)}

/-- Whether the value is a set. -/
def isSet (boxes : Array Box) (r : Ref) : Bool :=
  match r.unfold boxes 0 with
  | .set _ => true
  | _ => false

/-- A collection is no text, and everything else is the same in all documents. -/
theorem checkText_unfold (boxes boxes' : Array Box) (n : Nat) (r : Ref) :
    (r.unfold boxes n).checkText = (r.unfold boxes' n).checkText := by
  have hbox (boxes : Array Box) (b : Nat) :
      ((Ref.box b).unfold boxes n).checkText = .fail .notText := by
    cases n <;> unfold Ref.unfold <;> cases boxes.getD b default <;> rfl
  cases r with
  | value d => cases n <;> rfl
  | box b => rw [hbox, hbox]

/-- Items of a list are read as the same texts in all documents. -/
theorem items_unfold (boxes boxes' : Array Box) (rs : List Ref) :
    Checked.items Data.checkText 0 (rs.map (Ref.unfold boxes 0)) =
      Checked.items Data.checkText 0 (rs.map (Ref.unfold boxes' 0)) :=
  Checked.items_map_congr (checkText_unfold boxes boxes' 0) rs

/-- A pair is no text, whatever it holds. -/
theorem items_pairs (boxes boxes' : Array Box) (ps : List (Ref × Ref)) :
    Checked.items Data.checkText 0
        (ps.map fun p => .pair (p.1.unfold boxes 0) (p.2.unfold boxes 0)) =
      Checked.items Data.checkText 0
        (ps.map fun p => .pair (p.1.unfold boxes' 0) (p.2.unfold boxes' 0)) := by
  refine Checked.items_map_congr ?_ ps
  exact fun _ => rfl

/-- Checks of a value see of a set only that its members are listed in some order. -/
theorem agrees_unfold (h : Alike boxes boxes') (r : Ref) :
    (r.unfold boxes 1).Agrees (r.unfold boxes' 1) := by
  cases r with
  | value d => exact .refl d
  | box b =>
    have hbox := h b
    unfold Ref.unfold
    generalize boxes.getD b default = box at hbox
    generalize boxes'.getD b default = box' at hbox
    -- only a set may have come in another order, and it is no text and no mapping of texts
    cases hbox with
    | set perm => exact ⟨rfl, rfl, rfl, fun ts hts => Checked.exists_items_of_perm perm hts⟩
    | same box =>
      cases box with
      | list rs =>
        exact ⟨rfl, rfl, rfl,
          fun ts hts => ⟨ts, (items_unfold boxes' boxes rs).trans hts, .refl ts⟩⟩
      | map es =>
        refine ⟨rfl, rfl, Data.checkEntries_map_congr (checkText_unfold boxes boxes' 0) es, ?_⟩
        intro ts hts
        cases hts
      | set ds => exact .refl _
      | pairs ps =>
        exact ⟨rfl, rfl, rfl, fun ts hts => ⟨ts, (items_pairs boxes' boxes ps).trans hts, .refl ts⟩⟩

/-- What is no set is read as the same list. -/
theorem checkTexts_unfold (h : Alike boxes boxes') {r : Ref} (hr : r.isSet boxes = false) :
    (r.unfold boxes 1).checkTexts = (r.unfold boxes' 1).checkTexts := by
  cases r with
  | value d => rfl
  | box b =>
    have hbox := h b
    unfold isSet Ref.unfold at hr
    unfold Ref.unfold
    generalize boxes.getD b default = box at hbox hr
    generalize boxes'.getD b default = box' at hbox
    cases hbox with
    | set perm => cases hr
    | same box =>
      cases box with
      | list rs => exact items_unfold boxes boxes' rs
      | map es => rfl
      | set ds => rfl
      | pairs ps => exact items_pairs boxes boxes' ps

/-- What counts as a list has the same items. -/
theorem items?_of_alike (h : Alike boxes boxes') {r : Ref} (hr : r.isSet boxes = false) :
    r.items? boxes = r.items? boxes' := by
  cases r with
  | value d => cases d <;> rfl
  | box b =>
    have hbox := h b
    unfold isSet Ref.unfold at hr
    simp only [items?]
    generalize boxes.getD b default = box at hbox hr
    generalize boxes'.getD b default = box' at hbox
    cases hbox with
    | set perm => cases hr
    | same box => rfl

theorem entries?_of_map (hb : boxes.getD b default = .map es) :
    (Ref.box b).entries? boxes = some es := by
  simp only [entries?, hb]

/-- What has entries is a mapping of the document. -/
theorem exists_of_entries? {r : Ref} (h : r.entries? boxes = some es) :
    ∃ b, r = .box b ∧ boxes.getD b default = .map es := by
  cases r with
  | value d => cases h
  | box b =>
    refine ⟨b, rfl, ?_⟩
    simp only [entries?] at h
    split at h
    · cases h
      assumption
    · cases h

/-- A mapping that is replaced by another does not become a set. -/
theorem isSet_set (hb : boxes.getD b default = .map es) {es' : List (Data × Ref)} {r : Ref} :
    r.isSet (boxes.setIfInBounds b (.map es')) = r.isSet boxes := by
  cases r with
  | value d => rfl
  | box c =>
    simp only [isSet, Ref.unfold, Yaml.getD_set hb]
    by_cases hbc : b = c
    · simp [hbc ▸ hb, hbc]
    · rw [if_neg hbc]

end Yaml.Ref

/-! ## Declarations -/

/-- The keys under which a list is asked for. -/
def orderedKeys : List Text :=
  ["declarations", "is", "super_names", "does", "role_names"]

namespace Yaml

/-- The entries of a collection, if it is a mapping. -/
def Box.entries : Box → List (Data × Ref)
  | .map es => es
  | _ => []

/-- Under none of the keys for lists does a mapping of the document hold a set. -/
def Listed (boxes : Array Box) : Prop :=
  ∀ box ∈ boxes.toList, ∀ e ∈ box.entries, ∀ key ∈ orderedKeys,
    Declaration.isEntryOf key e = true → e.2.isSet boxes = false

instance : DecidablePred Listed :=
  fun boxes => inferInstanceAs (Decidable (∀ box ∈ boxes.toList, ∀ e ∈ box.entries,
    ∀ key ∈ orderedKeys, Declaration.isEntryOf key e = true → e.2.isSet boxes = false))

/-- What a mapping holds under a key for a list is no set. -/
theorem Listed.isSet {boxes : Array Box} {b : Nat} {es : List (Data × Ref)} {r : Ref} {key : Text}
    (h : Listed boxes) (hb : boxes.getD b default = .map es) (hkey : key ∈ orderedKeys)
    (hr : (Data.text key, r) ∈ es) : r.isSet boxes = false := by
  have hbox : Box.map es ∈ boxes.toList :=
    Array.mem_toList_iff.2 (Array.mem_of_getElem? (getElem?_of_getD_map hb))
  exact h _ hbox _ hr key hkey (beq_self_eq_true key)

end Yaml

namespace Declaration

variable {boxes boxes' : Array Box} {b : Nat} {es : List (Data × Ref)} {d : Declaration} {r : Ref}

/-- What is found under a key stands there with the key. -/
theorem mem_of_entry_eq_some {α : Type} {key : Text} {es : List (Data × α)} {a : α}
    (h : Data.entry? key es = some a) : (Data.text key, a) ∈ es := by
  rw [Data.entry?_eq_find?] at h
  obtain ⟨e, he, rfl⟩ := Option.map_eq_some_iff.1 h
  have hkey := Data.fst_of_isEntryOf (List.find?_some he)
  rw [← hkey]
  exact List.mem_of_find?_eq_some he

/-- A field passes with other values if its check does. -/
theorem exists_of_field {α : Type} {S : α → α → Prop} {f f' : Ref → Data} {names : List String}
    {default : Checked α} {check : Data → Checked α} (hrefl : ∀ a, S a a)
    (hcheck : ∀ (key : String), key ∈ names → ∀ r, (Data.text key, r) ∈ es →
      ∀ a, check (f r) = .ok a → ∃ a', check (f' r) = .ok a' ∧ S a a')
    {a : α} (h : field (es.map (Prod.map id f)) names default check = .ok a) :
    ∃ a', field (es.map (Prod.map id f')) names default check = .ok a' ∧ S a a' := by
  -- the keys are the same, so both fields are found under the same name
  have hfind (f : Ref → Data) :
      (names.findSome? fun n : String => (Data.entry? n (es.map (Prod.map id f))).map (n, ·)) =
        (names.findSome? fun n : String => (Data.entry? n es).map (n, ·)).map (Prod.map id f) := by
    rw [List.map_findSome?]
    congr 1
    funext n
    rw [entry?_map, Function.comp_apply, Option.map_map, Option.map_map]
    rfl
  unfold field at h ⊢
  rw [hfind] at h ⊢
  cases hfound : names.findSome? fun n : String => (Data.entry? n es).map (n, ·) with
  | none =>
    rw [hfound] at h
    exact ⟨a, h, hrefl a⟩
  | some found =>
    obtain ⟨n, r⟩ := found
    rw [hfound] at h
    obtain ⟨key, hkey, hentry⟩ := List.exists_of_findSome?_eq_some hfound
    obtain ⟨r', hr', heq⟩ := Option.map_eq_some_iff.1 hentry
    cases heq
    obtain ⟨a', ha', hS⟩ := hcheck n hkey r (mem_of_entry_eq_some hr') a (Checked.under_eq_ok.1 h)
    exact ⟨a', Checked.under_eq_ok.2 ha', hS⟩

/-- A field passes alike with other values if its check tells no difference. -/
theorem field_eq_ok {α : Type} {f f' : Ref → Data} {names : List String} {default : Checked α}
    {check : Data → Checked α}
    (hcheck : ∀ (key : String), key ∈ names → ∀ r, (Data.text key, r) ∈ es →
      check (f r) = check (f' r))
    {a : α} (h : field (es.map (Prod.map id f)) names default check = .ok a) :
    field (es.map (Prod.map id f')) names default check = .ok a := by
  obtain ⟨_, ha', rfl⟩ := exists_of_field (S := Eq) (fun _ => rfl)
    (fun key hkey r hr a ha => ⟨a, hcheck key hkey r hr ▸ ha, rfl⟩) h
  exact ha'

/-- A set of names depends on its members alone. -/
theorem nameSet_congr {ts ts' : List Text} (h : ∀ t, t ∈ ts ↔ t ∈ ts') : nameSet ts = nameSet ts' :=
  (pairwise_nameSet ts).eq_of_mem_iff (pairwise_nameSet ts') fun t => by
    rw [mem_nameSet, mem_nameSet, h]

/-- Entries are read as the same declaration if nothing tells their values apart. -/
theorem ofEntries_of_agrees {f f' : Ref → Data} (hagrees : ∀ r, (f r).Agrees (f' r))
    (hlists : ∀ key ∈ orderedKeys, ∀ r, (Data.text key, r) ∈ es →
      (f r).checkTexts = (f' r).checkTexts)
    (h : ofEntries (es.map (Prod.map id f)) = .ok d) :
    ofEntries (es.map (Prod.map id f')) = .ok d := by
  unfold ofEntries at h ⊢
  simp only [Checked.map_eq_ok, Prod.exists, Checked.also_eq_ok] at h ⊢
  obtain ⟨name, kind, categories, parents, roles, signature, roleSignatures,
    ⟨hname, hkind, hcategories, hparents, hroles, hsignature, hroleSignatures⟩, rfl⟩ := h
  have hlist (names : List String) (hnames : ∀ n ∈ names, (n : Text) ∈ orderedKeys) {ts : List Text}
      (hts : field (es.map (Prod.map id f)) names (.ok []) Data.checkTexts = .ok ts) :
      field (es.map (Prod.map id f')) names (.ok []) Data.checkTexts = .ok ts :=
    field_eq_ok (fun key hkey r hr => hlists key (hnames key hkey) r hr) hts
  obtain ⟨categories', hcategories', hperm⟩ := exists_of_field (S := List.Perm) .refl
    (fun _ _ r _ => (hagrees r).textSet) hcategories
  refine ⟨name, kind, categories', parents, roles, signature, roleSignatures,
    ⟨field_eq_ok (fun _ _ r _ => (hagrees r).name) hname,
      field_eq_ok (fun _ _ r _ => (hagrees r).kind) hkind, hcategories',
      hlist _ (by decide) hparents, hlist _ (by decide) hroles,
      field_eq_ok (fun _ _ r _ => (hagrees r).optionalText) hsignature,
      field_eq_ok (fun _ _ r _ => (hagrees r).textMap) hroleSignatures⟩, ?_⟩
  rw [nameSet_congr fun t => (hperm.map Text.caseFold).mem_iff]

/-- Expanding shorthands adds entries under other keys and lists. -/
theorem mem_expand {key : Text} (hkey : key ∈ orderedKeys) {r : Ref}
    (h : (Data.text key, r) ∈ expand es) :
    (Data.text key, r) ∈ es ∨ ∃ t, r = .value (.list [.text t]) := by
  obtain ⟨⟨k, r'⟩, hmem, heq⟩ := List.mem_map.1 h
  -- expanding a kind brings in the two keys of a head, and no list is asked for under these
  have hkind : (k, r') ∈ es ∨ k = .text "name" ∨ k = .text "type" := by
    unfold expandKind at hmem
    split at hmem
    · exact .inl hmem
    · split at hmem
      · exact .inl hmem
      · simp only at hmem
        split at hmem <;> simp only [List.mem_append, List.mem_filter, List.mem_singleton] at hmem
        · exact hmem.imp And.left fun h => .inl (congrArg Prod.fst h)
        · rcases hmem with (hmem | hname) | htype
          · exact .inl hmem.1
          · exact .inr (.inl (congrArg Prod.fst hname))
          · exact .inr (.inr (congrArg Prod.fst htype))
  have hold (heq : (k, r') = (Data.text key, r)) : (Data.text key, r) ∈ es := by
    cases heq
    rcases hkind with hes | hname | htype
    · exact hes
    · cases hname
      exact absurd hkey (by decide)
    · cases htype
      exact absurd hkey (by decide)
  unfold expandText at heq
  split at heq
  · rename_i t _ _
    split at heq
    · exact .inr ⟨t, (congrArg Prod.snd heq).symm⟩
    · exact .inl (hold heq)
  · exact .inl (hold heq)

/-! ## One declaration after the other -/

/-- Expanding the shorthands of a mapping leaves no set for a list. -/
theorem listed_set (h : Yaml.Listed boxes) (hb : boxes.getD b default = .map es) :
    Yaml.Listed (boxes.setIfInBounds b (.map (expand es))) := by
  rintro box hbox ⟨k, r⟩ he key hkey hentry
  rw [Yaml.Ref.isSet_set hb]
  rw [Array.toList_setIfInBounds] at hbox
  rcases List.mem_or_eq_of_mem_set hbox with hold | rfl
  · exact h box hold (k, r) he key hkey hentry
  · obtain rfl : k = .text key := Data.fst_of_isEntryOf hentry
    rcases mem_expand hkey he with hold | ⟨t, rfl⟩
    · exact h.isSet hb hkey hold
    · rfl

/-- A declaration that is read from the one document is read from the other, and the two documents
still agree afterwards. -/
theorem ofRef_of_alike (halike : Yaml.Alike boxes boxes') (hlisted : Yaml.Listed boxes)
    (h : (ofRef boxes r).2 = .ok d) :
    (ofRef boxes' r).2 = .ok d ∧ Yaml.Alike (ofRef boxes r).1 (ofRef boxes' r).1 ∧
      Yaml.Listed (ofRef boxes r).1 := by
  cases r with
  | value data => exact ⟨h, halike, hlisted⟩
  | box b =>
    unfold ofRef at h ⊢
    simp only at h ⊢
    cases hb : boxes.getD b default with
    | map es =>
      rw [hb] at h
      rw [halike.map hb]
      have halike' := halike.set hb (.map (expand es))
      have hlisted' := listed_set hlisted hb
      refine ⟨?_, halike', hlisted'⟩
      refine ofEntries_of_agrees (Ref.agrees_unfold halike') (fun key hkey r hr => ?_) h
      have hset := Yaml.getD_set hb (.map (expand es)) b
      rw [if_pos rfl] at hset
      exact Ref.checkTexts_unfold halike' (hlisted'.isSet hset hkey hr)
    | _ =>
      rw [hb] at h
      cases h

/-- Declarations are read one after the other, each from the document as the ones before left it. -/
theorem ofRefs_of_alike {n : Nat} {rs : List Ref} {ds : List Declaration}
    (halike : Yaml.Alike boxes boxes') (hlisted : Yaml.Listed boxes)
    (h : ofRefs boxes n rs = .ok ds) : ofRefs boxes' n rs = .ok ds := by
  induction rs generalizing boxes boxes' n ds with
  | nil => exact h
  | cons r rs ih =>
    unfold ofRefs at h ⊢
    obtain ⟨⟨d, ds⟩, hboth, rfl⟩ := Checked.map_eq_ok.1 h
    obtain ⟨hd, hds⟩ := Checked.also_eq_ok.1 hboth
    -- the first declaration may have changed both documents, and the others are read from these
    obtain ⟨hd', halike', hlisted'⟩ := ofRef_of_alike halike hlisted (Checked.under_eq_ok.1 hd)
    refine Checked.map_eq_ok.2 ⟨(d, ds), Checked.also_eq_ok.2 ⟨Checked.under_eq_ok.2 hd', ?_⟩, rfl⟩
    exact ih halike' hlisted' hds

end Declaration

/-! ## Models -/

/-- A model that is read from the one document is read from the other, if no set stands for a list.
-/
theorem Model.ofEntries_of_alike {boxes boxes' : Array Box} {es : List (Data × Ref)} {m : Model}
    (halike : Yaml.Alike boxes boxes') (hlisted : Yaml.Listed boxes)
    (hes : es = [] ∨ ∃ b, boxes.getD b default = .map es) (h : ofEntries boxes es = .ok m) :
    ofEntries boxes' es = .ok m := by
  unfold ofEntries at h ⊢
  cases hentry : Data.entry? "declarations" es with
  | none =>
    rw [hentry] at h
    exact h
  | some r =>
    rw [hentry] at h
    have hr : r.isSet boxes = false := by
      obtain rfl | ⟨b, hb⟩ := hes
      · cases hentry
      · exact hlisted.isSet hb List.mem_cons_self (Declaration.mem_of_entry_eq_some hentry)
    simp only [Checked.under_eq_ok] at h ⊢
    rw [← Ref.items?_of_alike halike hr]
    split at h
    · obtain ⟨ds, hds, rfl⟩ := Checked.map_eq_ok.1 h
      exact Checked.map_eq_ok.2 ⟨ds, Declaration.ofRefs_of_alike halike hlisted hds, rfl⟩
    · cases h

namespace Load

variable {r r' : Reader} {boxes : Array Box} {es : List (Data × Ref)}

/-- Runs with room for a document find the same mapping in it, with sets in orders of their own. -/
theorem exists_mapping_of_le (hroom : r.room ≤ r'.room) {source : Yaml.Source}
    {file : Option String} (h : mapping source file r = .ok (boxes, es)) :
    ∃ boxes', mapping source file r' = .ok (boxes', es) ∧ Yaml.Alike boxes boxes' ∧
      (es = [] ∨ ∃ b, boxes.getD b default = .map es) := by
  unfold mapping document at h ⊢
  obtain ⟨doc, hdoc, h⟩ := bind_eq_ok.1 h
  split at hdoc
  · cases hdoc
  · cases hdoc
  · cases hdoc
  · rename_i doc' hsource
    cases hdoc
    rw [Yaml.Document.ofSource_of_le hroom hsource]
    cases doc' with
    | none =>
      cases h
      exact ⟨#[], rfl, fun _ => .same _, .inl rfl⟩
    | some doc =>
      have halike := Yaml.alike_inOrder r.sets r'.sets doc.boxes
      simp only [Option.map_some, Yaml.Document.inOrder, bind, Except.bind] at h ⊢
      split at h
      · cases h
        exact ⟨_, rfl, halike, .inl rfl⟩
      · split at h
        · rename_i hentries
          cases h
          obtain ⟨b, hroot, hb⟩ := Ref.exists_of_entries? hentries
          refine ⟨_, ?_, halike, .inr ⟨b, hb⟩⟩
          rw [hroot, Ref.entries?_of_map (halike.map hb)]
        · cases h

/-- A file that gives no set for a list is read as the same model by all runs with room for it. -/
theorem modelOfFile_of_listed {path : Path} {state : FileState} (hroom : r.room ≤ r'.room)
    (hlisted : path.isData = true → ∀ boxes es, mappingOfFile path state r = .ok (boxes, es) →
      Yaml.Listed boxes)
    {m : Model} (h : modelOfFile path state r = .ok m) : modelOfFile path state r' = .ok m := by
  unfold modelOfFile at h ⊢
  split
  · rename_i hdata
    rw [if_pos hdata] at h
    unfold modelOfDataFile modelOfYaml at h ⊢
    obtain ⟨bytes, hbytes, h⟩ := bind_eq_ok.1 h
    obtain ⟨⟨boxes, es⟩, hmapping, h⟩ := bind_eq_ok.1 h
    obtain ⟨boxes', hmapping', halike, hes⟩ := exists_mapping_of_le hroom hmapping
    have hfile : mappingOfFile path state r = .ok (boxes, es) :=
      bind_eq_ok.2 ⟨bytes, hbytes, hmapping⟩
    refine bind_eq_ok.2 ⟨bytes, hbytes, bind_eq_ok.2 ⟨(boxes', es), hmapping', ?_⟩⟩
    refine orInvalid_eq_ok.2 (Model.ofEntries_of_alike halike ?_ hes (orInvalid_eq_ok.1 h))
    exact hlisted hdata boxes es hfile
  · rename_i htext
    rwa [if_neg htext] at h

end Load

end Lineage
