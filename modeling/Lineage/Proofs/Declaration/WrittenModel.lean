import Lineage.Proofs.Declaration.Written

/-!
# Models written as data

A model that has been read can be written as data, each declaration as a mapping, and it is read as
the same model from there (`Model.ofData_of_writes`). In a data document the shorthands of a
declaration are expanded in place. As long as the mappings of the declarations are apart from each
other this changes nothing that is still to be read, so that a document is read as the data that it
stands for (`Declaration.ofRefs_eq_items`, `Model.ofEntries_of_writtenIn`).
-/

namespace Lineage

namespace Declaration

open Data (entry?_eq_find?)
open Yaml (Box Ref)

/-! ## Expanding shorthands in place -/

section

variable {α β : Type} [EntryValue α] [EntryValue β] {f : α → β}

omit [EntryValue α] [EntryValue β] in
theorem isEntryOf_map (f : α → β) (key : Text) (e : Data × α) :
    isEntryOf key (Prod.map id f e) = isEntryOf key e := by
  obtain ⟨k, v⟩ := e
  cases k <;> rfl

omit [EntryValue α] [EntryValue β] in
theorem entry?_map (f : α → β) (key : Text) (es : List (Data × α)) :
    Data.entry? key (es.map (Prod.map id f)) = (Data.entry? key es).map f := by
  have hsame : isEntryOf key ∘ Prod.map id f = isEntryOf key := funext (isEntryOf_map f key)
  rw [entry?_eq_find?, entry?_eq_find?, List.find?_map, hsame, Option.map_map, Option.map_map]
  rfl

theorem expandKind_map (hdata : ∀ d, f (EntryValue.ofData d) = EntryValue.ofData d)
    (es : List (Data × α)) :
    expandKind (es.map (Prod.map id f)) = (expandKind es).map (Prod.map id f) := by
  have hfind :
      (Kind.all.findSome? fun k => (Data.entry? k.keyword (es.map (Prod.map id f))).map (k, ·)) =
        (Kind.all.findSome? fun k => (Data.entry? k.keyword es).map (k, ·)).map
          (Prod.map id f) := by
    rw [List.map_findSome?]
    congr 1
    funext k
    rw [entry?_map, Function.comp_apply, Option.map_map, Option.map_map]
    rfl
  unfold expandKind
  rw [entry?_map, Option.isSome_map, hfind]
  split
  · rfl
  · cases Kind.all.findSome? fun k => (Data.entry? k.keyword es).map (k, ·) with
    | none => rfl
    | some found =>
      obtain ⟨k, name⟩ := found
      have hrest : (es.map (Prod.map id f)).filter (!isEntryOf k.keyword ·) ++
            [(Data.text "name", f name)] =
          (es.filter (!isEntryOf k.keyword ·) ++ [(Data.text "name", name)]).map
            (Prod.map id f) := by
        rw [List.map_append, List.filter_map]
        congr 2
        exact List.filter_congr fun e _ => by rw [Function.comp_apply, isEntryOf_map]
      simp only [Option.map_some, Prod.map, id]
      simp only [hrest]
      rw [entry?_map, Option.isSome_map]
      split
      · rfl
      · simp only [List.map_append, List.map_cons, List.map_nil, Prod.map_apply, hdata, id]

theorem expandText_map (hdata : ∀ d, f (EntryValue.ofData d) = EntryValue.ofData d)
    (htext : ∀ a, EntryValue.text? (f a) = EntryValue.text? a) (e : Data × α) :
    expandText (Prod.map id f e) = Prod.map id f (expandText e) := by
  obtain ⟨k, v⟩ := e
  unfold expandText
  simp only [Prod.map, id, htext]
  split
  · split
    · exact congrArg _ (hdata _).symm
    · rfl
  · rfl

/-- Shorthands are expanded alike whatever stands for the values, as long as texts can be told. -/
theorem expand_map (hdata : ∀ d, f (EntryValue.ofData d) = EntryValue.ofData d)
    (htext : ∀ a, EntryValue.text? (f a) = EntryValue.text? a) (es : List (Data × α)) :
    expand (es.map (Prod.map id f)) = (expand es).map (Prod.map id f) := by
  unfold expand
  rw [expandKind_map hdata, List.map_map, List.map_map]
  exact List.map_congr_left fun e _ => expandText_map hdata htext e

end

/-! ## Mappings in a document -/

section

variable {boxes : Array Box} {b : Nat} {es es' : List (Data × Ref)}

theorem getD_eq_of_getElem? {box : Box} (h : boxes[b]? = some box) :
    boxes.getD b default = box := by
  rw [Array.getD_eq_getD_getElem?, h, Option.getD_some]

theorem text?_unfold (boxes : Array Box) (n : Nat) (r : Ref) :
    EntryValue.text? (r.unfold boxes n) = EntryValue.text? r := by
  cases r with
  | value d => cases n <;> cases d <;> rfl
  | box b =>
    cases n <;> unfold Ref.unfold <;> cases boxes.getD b default <;> rfl

/-- A mapping that is replaced by another is seen one level further out only if it is the value
itself. -/
theorem unfold_one_set (hb : boxes[b]? = some (.map es)) {r : Ref} (hr : r ≠ .box b) :
    r.unfold (boxes.setIfInBounds b (.map es')) 1 = r.unfold boxes 1 := by
  have hbound : b < boxes.size := (Array.getElem?_eq_some_iff.1 hb).1
  have hzero : Ref.unfold (boxes.setIfInBounds b (.map es')) 0 = Ref.unfold boxes 0 := by
    funext r
    cases r with
    | value d => rfl
    | box c =>
      by_cases hc : b = c
      · subst hc
        rw [Ref.unfold, Ref.unfold, getD_eq_of_getElem? hb,
          getD_eq_of_getElem? (Array.getElem?_setIfInBounds_self_of_lt hbound)]
      · simp only [Ref.unfold, Array.getD_eq_getD_getElem?, Array.getElem?_setIfInBounds_ne hc]
  cases r with
  | value d => rfl
  | box c =>
    have hc : b ≠ c := fun h => hr (congrArg Ref.box h.symm)
    have hsame : (boxes.setIfInBounds b (.map es')).getD c default = boxes.getD c default := by
      rw [Array.getD_eq_getD_getElem?, Array.getD_eq_getD_getElem?,
        Array.getElem?_setIfInBounds_ne hc]
    simp only [Ref.unfold, hsame, hzero]

theorem unfold_two_of_mapping (hb : boxes[b]? = some (.map es)) :
    (Ref.box b).unfold boxes 2 = .map (es.map (Prod.map id (Ref.unfold boxes 1))) := by
  rw [Ref.unfold, getD_eq_of_getElem? hb]
  rfl

/-- A mapping that is no part of itself is read as the data that it stands for. -/
theorem ofRef_box (hb : boxes[b]? = some (.map es)) (hself : ∀ e ∈ es, e.2 ≠ .box b) :
    ofRef boxes (.box b) =
      (boxes.setIfInBounds b (.map (expand es)), ofData ((Ref.box b).unfold boxes 2)) := by
  have hfields :
      (expand es).map (Prod.map id (Ref.unfold (boxes.setIfInBounds b (.map (expand es))) 1)) =
        expand (es.map (Prod.map id (Ref.unfold boxes 1))) := by
    rw [← expand_map (fun _ => rfl) (text?_unfold _ 1)]
    congr 1
    exact List.map_congr_left fun e he => Prod.ext rfl (unfold_one_set hb (hself e he))
  rw [ofRef, getD_eq_of_getElem? hb, unfold_two_of_mapping hb]
  show (_, ofEntries _) = (_, ofEntries _)
  rw [← hfields]
  rfl

/-- The values are different mappings, and none of them is a part of another or of itself. -/
structure Apart (boxes : Array Box) (bs : List Nat) : Prop where
  nodup : bs.Nodup
  mapping : ∀ b ∈ bs, ∃ es, boxes[b]? = some (.map es) ∧ ∀ e ∈ es, ∀ c ∈ bs, e.2 ≠ .box c

/-- Mappings that stand apart are read one by one as the data that they stand for. -/
theorem ofRefs_eq_items {bs : List Nat} (h : Apart boxes bs) (n : Nat) :
    ofRefs boxes n (bs.map .box) =
      Checked.items ofData n (bs.map fun b => (Ref.box b).unfold boxes 2) := by
  induction bs generalizing boxes n with
  | nil => rfl
  | cons b bs ih =>
    obtain ⟨hnew, hnodup⟩ := List.nodup_cons.1 h.nodup
    obtain ⟨es, hb, hes⟩ := h.mapping b List.mem_cons_self
    -- what is left of the first mapping makes no difference to the others
    have hrest : ∀ c ∈ bs, ∃ es', (boxes.setIfInBounds b (.map (expand es)))[c]? = some (.map es') ∧
        boxes[c]? = some (.map es') ∧ ∀ e ∈ es', ∀ c' ∈ b :: bs, e.2 ≠ .box c' := by
      intro c hc
      obtain ⟨es', hes', hparts⟩ := h.mapping c (List.mem_cons_of_mem b hc)
      refine ⟨es', ?_, hes', hparts⟩
      rw [Array.getElem?_setIfInBounds_ne (ne_of_mem_of_not_mem hc hnew).symm, hes']
    have hapart : Apart (boxes.setIfInBounds b (.map (expand es))) bs := by
      refine ⟨hnodup, fun c hc => ?_⟩
      obtain ⟨es', hes', _, hparts⟩ := hrest c hc
      exact ⟨es', hes', fun e he c' hc' => hparts e he c' (List.mem_cons_of_mem b hc')⟩
    have hunfold :
        (bs.map fun c => (Ref.box c).unfold (boxes.setIfInBounds b (.map (expand es))) 2) =
          bs.map fun c => (Ref.box c).unfold boxes 2 := by
      refine List.map_congr_left fun c hc => ?_
      obtain ⟨es', hset, hes', hparts⟩ := hrest c hc
      rw [unfold_two_of_mapping hset, unfold_two_of_mapping hes']
      congr 1
      exact List.map_congr_left fun e he =>
        Prod.ext rfl (unfold_one_set hb (hparts e he b List.mem_cons_self))
    rw [List.map_cons, List.map_cons, ofRefs, Checked.items,
      ofRef_box hb fun e he => hes e he b List.mem_cons_self]
    simp only [ih hapart, hunfold]

end

/-! ## Models -/

section

variable {d : Declaration} {ds : List Declaration} {datas : List Data}

theorem exists_writes (d : Declaration) : ∃ data, Writes d data :=
  ⟨_, .mapping .shorthand (fun _ => .rfl) (.list _) List.mem_cons_self (.list _)
    List.mem_cons_self (.list _) (.refl _)⟩

theorem exists_forall₂_writes (ds : List Declaration) : ∃ datas, List.Forall₂ Writes ds datas := by
  induction ds with
  | nil => exact ⟨[], .nil⟩
  | cons d ds ih =>
    obtain ⟨data, hdata⟩ := exists_writes d
    obtain ⟨datas, hdatas⟩ := ih
    exact ⟨data :: datas, .cons hdata hdatas⟩

/-- Declarations are read one by one as they were. -/
theorem items_ofData (hwrites : List.Forall₂ Writes ds datas) (hds : ∀ d ∈ ds, d.Normal) (n : Nat) :
    Checked.items ofData n datas = .ok ds := by
  induction hwrites generalizing n with
  | nil => rfl
  | cons hdata _ ih =>
    obtain ⟨hd, hds⟩ := List.forall_mem_cons.1 hds
    rw [Checked.items, hd.ofData_of_writes hdata, ih hds]
    rfl

end

end Declaration

/-- The declarations of a model are written in a list, each as a mapping of its own. -/
inductive Model.WrittenIn (m : Model) (boxes : Array Yaml.Box) (es : List (Data × Yaml.Ref)) : Prop
  | list {r : Yaml.Ref} {bs : List Nat} (entry : Data.entry? "declarations" es = some r)
      (items : r.items? boxes = some (bs.map .box)) (apart : Declaration.Apart boxes bs)
      (written : List.Forall₂ Declaration.Writes m.declarations
        (bs.map fun b => (Yaml.Ref.box b).unfold boxes 2))

theorem Model.normal_of_ofText {text : Text} {m : Model} (h : ofText text = .ok m) :
    ∀ d ∈ m.declarations, d.Normal :=
  forall_of_ofText (fun _ _ _ _ => Declaration.normal_of_ofLine) h

/-- Data with the given declarations. -/
def Model.dataOf (items : List Data) : Data :=
  .map [(.text "declarations", .list items)]

theorem Model.ofData_of_writes {m : Model} (hm : ∀ d ∈ m.declarations, d.Normal) {items : List Data}
    (hwrites : List.Forall₂ Declaration.Writes m.declarations items) :
    ofData (dataOf items) = .ok m := by
  show Checked.under _ ((Checked.items Declaration.ofData 0 items).map _) = _
  rw [Declaration.items_ofData hwrites hm]
  rfl

theorem Model.ofEntries_of_writtenIn {m : Model} (hm : ∀ d ∈ m.declarations, d.Normal)
    {boxes : Array Yaml.Box} {es : List (Data × Yaml.Ref)} (h : m.WrittenIn boxes es) :
    ofEntries boxes es = .ok m := by
  obtain ⟨hentry, hitems, hapart, hwrites⟩ := h
  unfold ofEntries
  simp only [hentry, hitems]
  rw [Declaration.ofRefs_eq_items hapart, Declaration.items_ofData hwrites hm]
  rfl

end Lineage
