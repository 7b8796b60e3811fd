import Lineage.Proofs.Declaration.WrittenModel
import Lineage.Proofs.Yaml.InlineValues

/-!
# Models written as documents

The data that a model is written as are made of texts, lists and mappings, no more than four of them
inside each other. So they can be written in brackets, as a document. There every mapping is a
collection of its own, and the model is read from it (`Model.exists_document`). With this, text
documents and data documents say the same: whatever is read from a text can be read from data
(`Load.modelOfData_of_writes`).
-/

namespace Lineage

open Yaml (Box Inline Making Ref)

/-! ## Mappings in brackets -/

namespace Yaml.Making

open Inline (Spells Fits itemNumbers pairwise_itemNumbers bounds_of_mem_entryNumbers)

variable {ns : Array Node} {m : Making} {i : Nat} {r : Ref} {ess : List (List (Text × Inline))}

theorem exists_of_mem_right {α β : Type} {R : α → β → Prop} {l : List α} {u : List β}
    (h : List.Forall₂ R l u) {b : β} (hb : b ∈ u) : ∃ a ∈ l, R a b := by
  induction h with
  | nil => cases hb
  | cons hab _ ih =>
    rcases List.mem_cons.1 hb with rfl | hb
    · exact ⟨_, List.mem_cons_self, hab⟩
    · obtain ⟨a, ha, hab⟩ := ih hb
      exact ⟨a, List.mem_cons_of_mem _ ha, hab⟩

/-- The values of mappings are collections of their own. -/
theorem Keeps.exists_boxes {is : List Nat} {rs : List Ref} (hm : Keeps ns m m.boxes.size)
    (hes : List.Forall₂ (fun i es => Spells ns i (.map es)) is ess)
    (hrs : List.Forall₂ m.Has is rs) :
    ∃ bs : List Nat, rs = bs.map .box ∧ bs.map (m.sources[·]?) = is.map some := by
  induction hes generalizing rs with
  | nil =>
    cases hrs
    exact ⟨[], rfl, rfl⟩
  | cons hv _ ih =>
    cases hrs with
    | cons hr hrs =>
      obtain ⟨b, -, rfl, hb, -⟩ := hm.exists_map hv hr
      obtain ⟨bs, rfl, hbs⟩ := ih hrs
      exact ⟨b :: bs, rfl, congrArg₂ List.cons hb hbs⟩

/-- Mappings in a list are apart from each other. -/
theorem Keeps.exists_apart (hm : Keeps ns m m.boxes.size)
    (hv : Spells ns i (.list (ess.map .map))) (hr : m.Has i r) :
    ∃ b bs, r = .box b ∧ m.boxes[b]? = some (.list (bs.map .box)) ∧
      Declaration.Apart m.boxes bs ∧ ∀ n, (∀ es ∈ ess, (Inline.map es).Fits n) →
        (bs.map fun b => (Ref.box b).unfold m.boxes n) = Inline.itemData (ess.map .map) := by
  obtain ⟨b, rs, rfl, -, hbox, hrs⟩ := hm.exists_list hv hr
  have happart := hv.list.2.mp (fun j v hj hv => And.intro hj hv)
    (Inline.itemNumbers_apart (i + 1) (ess.map .map))
  rw [List.forall₂_map_right_iff] at happart
  obtain ⟨bs, rfl, hbs⟩ := hm.exists_boxes (happart.imp fun _ _ h => h.1) hrs
  refine ⟨b, bs, rfl, hbox, ⟨?_, ?_⟩, fun n hfits => ?_⟩
  · have hnodup := (pairwise_itemNumbers (i + 1) (ess.map .map)).imp Nat.ne_of_lt
    have hsome : ((itemNumbers (i + 1) (ess.map .map)).map some).Nodup :=
      List.Nodup.map (Option.some_injective _) hnodup
    exact (hbs ▸ hsome).of_map
  · have hnumber : ∀ c ∈ bs, ∃ j ∈ itemNumbers (i + 1) (ess.map .map), m.sources[c]? = some j := by
      intro c hc
      have hmem : m.sources[c]? ∈ (itemNumbers (i + 1) (ess.map .map)).map some :=
        hbs ▸ List.mem_map_of_mem hc
      obtain ⟨j, hj, hcj⟩ := List.mem_map.1 hmem
      exact ⟨j, hj, hcj.symm⟩
    intro c hc
    obtain ⟨j, hj, hcj⟩ := hnumber c hc
    obtain ⟨es, -, hes, hbetween⟩ := exists_of_mem_right happart.flip hj
    obtain ⟨c₁, xs, hc₁, -, hxs, hentries⟩ := hm.exists_map hes (hm.source c j hcj).1
    obtain rfl := Ref.box.inj hc₁
    refine ⟨xs, hxs, fun x hx c' hc' heq => ?_⟩
    -- a part of the mapping would be one of the items, but its number is between two of these
    obtain ⟨p, hp, hpx⟩ := exists_of_mem_right hentries hx
    obtain ⟨j', hj', hcj'⟩ := hnumber c' hc'
    have hvalue : m.sources[c']? = some p.2 := hm.box _ _ (heq ▸ hpx.value)
    obtain rfl := Option.some.inj (hvalue.symm.trans hcj')
    have hbounds := bounds_of_mem_entryNumbers hp
    refine hbetween _ hj' ⟨by omega, ?_⟩
    rw [Inline.size]
    omega
  · rw [← map_unfold_items hv.list.2 hrs, List.map_map]
    · rfl
    · intro v hmem i r hv hr
      obtain ⟨es, hes, rfl⟩ := List.mem_map.1 hmem
      exact hm.unfold (hfits es hes) hv hr

end Yaml.Making

/-! ## Declarations in brackets -/

namespace Declaration

variable {d : Declaration} {data : Data}

/-- The data can be written in brackets, with at most so many collections inside each other. -/
def Bracketed (room : Nat) (data : Data) : Prop :=
  ∃ v : Inline, v.data = data ∧ v.Fits room

theorem bracketed_text (room : Nat) (t : Text) : Bracketed room (.text t) :=
  ⟨.text t, rfl, .text t⟩

theorem bracketed_optionalText (room : Nat) (t : Option Text) :
    Bracketed room (optionalText t) := by
  cases t with
  | none => exact ⟨.null, rfl, .null⟩
  | some t => exact bracketed_text room t

theorem exists_itemData {room : Nat} {items : List Data} (h : ∀ d ∈ items, Bracketed room d) :
    ∃ vs, Inline.itemData vs = items ∧ ∀ v ∈ vs, v.Fits room := by
  induction items with
  | nil => exact ⟨[], rfl, nofun⟩
  | cons d items ih =>
    obtain ⟨⟨v, rfl, hv⟩, hitems⟩ := List.forall_mem_cons.1 h
    obtain ⟨vs, rfl, hvs⟩ := ih hitems
    exact ⟨v :: vs, rfl, List.forall_mem_cons.2 ⟨hv, hvs⟩⟩

theorem bracketed_list {room : Nat} {items : List Data} (h : ∀ d ∈ items, Bracketed room d) :
    Bracketed (room + 1) (.list items) := by
  obtain ⟨vs, rfl, hvs⟩ := exists_itemData h
  exact ⟨.list vs, rfl, .list hvs⟩

theorem exists_entryData {room : Nat} {es : Entries}
    (h : ∀ e ∈ es, (∃ k, e.1 = .text k) ∧ Bracketed room e.2) :
    ∃ ves, Inline.entryData ves = es ∧ (ves.map (·.1)).map Data.text = es.map (·.1) ∧
      ∀ e ∈ ves, e.2.Fits room := by
  induction es with
  | nil => exact ⟨[], rfl, rfl, nofun⟩
  | cons e es ih =>
    obtain ⟨⟨⟨k, hk⟩, v, hv, hfits⟩, hes⟩ := List.forall_mem_cons.1 h
    obtain ⟨ves, rfl, hkeys, hves⟩ := ih hes
    refine ⟨(k, v) :: ves, ?_, ?_, List.forall_mem_cons.2 ⟨hfits, hves⟩⟩
    · rw [Inline.entryData, hv, ← hk]
    · rw [List.map_cons, List.map_cons, List.map_cons, hkeys, hk]

theorem bracketed_map {room : Nat} {es : Entries} (hkeys : (es.map (·.1)).Nodup)
    (h : ∀ e ∈ es, (∃ k, e.1 = .text k) ∧ Bracketed room e.2) :
    ∃ ves, (Inline.map ves).data = .map es ∧ (Inline.map ves).Fits (room + 1) := by
  obtain ⟨ves, rfl, hsame, hves⟩ := exists_entryData h
  exact ⟨ves, rfl, .map (hsame ▸ hkeys).of_map hves⟩

theorem bracketed_textMap {pairs : List (Text × Text)} (h : (pairs.map (·.1)).Nodup) :
    Bracketed 1 (textMap pairs) := by
  have hkeys : ((pairs.map fun p => (Data.text p.1, Data.text p.2)).map (·.1)).Nodup := by
    have hmap := List.Nodup.map (fun _ _ => Data.text.inj) h
    rwa [List.map_map] at hmap ⊢
  have hentries : ∀ e ∈ pairs.map fun p => (Data.text p.1, Data.text p.2),
      (∃ k, e.1 = .text k) ∧ Bracketed 0 e.2 := by
    intro e he
    obtain ⟨p, -, rfl⟩ := List.mem_map.1 he
    exact ⟨⟨p.1, rfl⟩, bracketed_text 0 p.2⟩
  obtain ⟨ves, hdata, hfits⟩ := bracketed_map hkeys hentries
  exact ⟨.map ves, hdata, hfits⟩

theorem WritesTexts.bracketed {ts : List Text} (h : WritesTexts ts data) : Bracketed 1 data := by
  cases h with
  | list =>
    refine bracketed_list fun d hd => ?_
    obtain ⟨t, -, rfl⟩ := List.mem_map.1 hd
    exact bracketed_text 0 t
  | bare t => exact bracketed_text 1 t

theorem WritesHead.bracketed {head : Entries} (h : WritesHead d head) :
    ∀ e ∈ head, (∃ k, e.1 = .text k) ∧ Bracketed 1 e.2 := by
  cases h with
  | apart key =>
    simp only [List.forall_mem_cons]
    exact ⟨⟨⟨_, rfl⟩, bracketed_text 1 _⟩, ⟨⟨_, rfl⟩, bracketed_text 1 _⟩, nofun⟩
  | shorthand =>
    simp only [List.forall_mem_cons]
    exact ⟨⟨⟨_, rfl⟩, bracketed_text 1 _⟩, nofun⟩

/-- A declaration that is written as data can be written in brackets. -/
theorem Normal.exists_entries (hd : d.Normal) (h : Writes d data) :
    ∃ ves, (Inline.map ves).data = data ∧ (Inline.map ves).Fits 2 := by
  cases h with
  | @mapping head entries names categories parents roles parentsKey rolesKey hhead hnames
      hcategories hparentsKey hparents hrolesKey hroles hperm =>
    refine bracketed_map ?_ fun e he => ?_
    · have hrest : Data.Keyed [(.text "signature", optionalText d.signature),
          (.text "role_signatures", textMap d.roleSignatures), (.text "categories", categories),
          (.text parentsKey, parents), (.text rolesKey, roles)] (fieldKeys parentsKey rolesKey) :=
        rfl
      obtain ⟨keys, hkeys, hkeyed⟩ := hhead.exists_keyed
      have hnodup := (hkeyed.append hrest).nodup
        (nodup_headForm_append keys hkeys parentsKey hparentsKey rolesKey hrolesKey)
      exact (hperm.map _).nodup_iff.2 hnodup
    · rw [hperm.mem_iff, List.mem_append] at he
      rcases he with he | he
      · exact hhead.bracketed e he
      · simp only [List.mem_cons, List.not_mem_nil, or_false] at he
        rcases he with rfl | rfl | rfl | rfl | rfl
        · exact ⟨⟨_, rfl⟩, bracketed_optionalText 1 d.signature⟩
        · exact ⟨⟨_, rfl⟩, bracketed_textMap hd.roleSignatures⟩
        · exact ⟨⟨_, rfl⟩, hcategories.bracketed⟩
        · exact ⟨⟨_, rfl⟩, hparents.bracketed⟩
        · exact ⟨⟨_, rfl⟩, hroles.bracketed⟩

theorem exists_entriesList {ds : List Declaration} {items : List Data}
    (hwrites : List.Forall₂ Writes ds items) (hds : ∀ d ∈ ds, d.Normal) :
    ∃ ess : List (List (Text × Inline)), Inline.itemData (ess.map .map) = items ∧
      ∀ es ∈ ess, (Inline.map es).Fits 2 := by
  induction hwrites with
  | nil => exact ⟨[], rfl, nofun⟩
  | cons hdata _ ih =>
    obtain ⟨hd, hds⟩ := List.forall_mem_cons.1 hds
    obtain ⟨es, rfl, hes⟩ := hd.exists_entries hdata
    obtain ⟨ess, rfl, hess⟩ := ih hds
    exact ⟨es :: ess, rfl, List.forall_mem_cons.2 ⟨hes, hess⟩⟩

end Declaration

/-! ## Models as documents -/

open Declaration (Writes)

theorem Load.mapping_of_document {source : Yaml.Source} {doc : Yaml.Document} {reader : Reader}
    {es : List (Data × Ref)} (hdoc : Yaml.Document.ofSource reader.room source = .ok (some doc))
    (horder : doc.inOrder reader.sets = doc) (hes : doc.root.entries? doc.boxes = some es)
    (path : Option String) : mapping source path reader = .ok (doc.boxes, es) := by
  have hdocument : document source path reader = .ok (some doc) := by
    unfold document
    rw [hdoc]
    show Except.ok (some (doc.inOrder reader.sets)) = _
    rw [horder]
  unfold mapping
  cases hroot : doc.root with
  | value d =>
    rw [hroot] at hes
    cases hes
  | box b =>
    rw [hroot] at hes
    simp only [hdocument, bind, Except.bind, hroot, hes]

/-- A list of mappings under the one key of a document are the declarations of a model. -/
theorem Model.writtenIn_of_holds {m : Model} {ess : List (List (Text × Inline))}
    {doc : Yaml.Document} {ns : Array Yaml.Node} {making : Making}
    (hwrites : List.Forall₂ Writes m.declarations (Inline.itemData (ess.map .map)))
    (hess : ∀ es ∈ ess, (Inline.map es).Fits 2)
    (hspells : Inline.Spells ns 0 (.map [("declarations", .list (ess.map .map))]))
    (hholds : Inline.Holds doc ns making) :
    ∃ es, doc.root.entries? doc.boxes = some es ∧ m.WrittenIn doc.boxes es := by
  obtain ⟨b, xs, hroot, -, hxs, hentries⟩ := hholds.keeps.exists_map hspells hholds.root
  -- the list is the only entry
  have hentry := (List.forall₂_cons.1 hspells.map.2.1).1
  obtain ⟨⟨key, r⟩, rest, hkey, hrest, rfl⟩ := List.forall₂_cons_left_iff.1 hentries
  obtain rfl := List.forall₂_nil_left_iff.1 hrest
  obtain ⟨n, hn, hmeans⟩ := hkey.key
  obtain rfl := Option.some.inj ((Inline.At.head hentry.key.at_number).1.symm.trans hn)
  obtain rfl : key = .text "declarations" := hmeans.unique (.text _)
  obtain ⟨c, bs, rfl, hbs, hapart, hunfold⟩ :=
    hholds.keeps.exists_apart hentry.value hkey.value
  have hroot : doc.root.entries? making.boxes = some [(.text "declarations", .box c)] := by
    rw [hroot, Ref.entries?, Declaration.getD_eq_of_getElem? hxs]
  have hlist : (Ref.box c).items? making.boxes = some (bs.map .box) := by
    rw [Ref.items?, Declaration.getD_eq_of_getElem? hbs]
  rw [hholds.boxes]
  exact ⟨_, hroot, .list rfl hlist hapart (by rwa [hunfold 2 hess])⟩

/-- Data that say a model can be written as a document, and are read as the model from there by
everyone who has room for four collections inside each other. -/
theorem Model.exists_document {m : Model} (hm : ∀ d ∈ m.declarations, d.Normal) {items : List Data}
    (hwrites : List.Forall₂ Writes m.declarations items) :
    ∃ text doc,
      (∀ room, 4 ≤ room → Yaml.Document.ofSource room (.ofString text) = .ok (some doc)) ∧
        doc.root.unfold doc.boxes 4 = dataOf items ∧
        ∀ path (reader : Load.Reader), 4 ≤ reader.room →
          Load.modelOfYaml (.ofString text) path reader = .ok m := by
  obtain ⟨ess, rfl, hess⟩ := Declaration.exists_entriesList hwrites hm
  have hlist : (Inline.list (ess.map .map)).Fits 3 := by
    refine .list fun v hv => ?_
    obtain ⟨es, hes, rfl⟩ := List.mem_map.1 hv
    exact hess es hes
  have hfits : (Inline.map [("declarations", .list (ess.map .map))]).Fits 4 :=
    .map (List.nodup_singleton _) (List.forall_mem_singleton.2 hlist)
  obtain ⟨doc, ns, making, hdoc, hspells, hholds⟩ := Inline.exists_holds hfits
  refine ⟨_, doc, hdoc, ?_, fun path reader hroom => ?_⟩
  · rw [hholds.boxes, hholds.keeps.unfold hfits hspells hholds.root]
    rfl
  · obtain ⟨es, hes, hwritten⟩ := Model.writtenIn_of_holds hwrites hess hspells hholds
    rw [Load.modelOfYaml,
      Load.mapping_of_document (hdoc reader.room hroom) (hholds.inOrder reader.sets) hes]
    show Load.orInvalid (Model.ofEntries doc.boxes es) = _
    rw [Model.ofEntries_of_writtenIn hm hwritten]
    rfl

namespace Load

/-- However a declaration that has been read is written as data, it is read as it was. So a model
that has been read from a text can be written as data. All such data are read as the same model, and
so is a document that holds them, of which there is always one, by every reader with room for four
collections inside each other; and it is the same for every other document that the declarations are
written in. -/
theorem modelOfData_of_writes :
    (∀ d : Declaration,
      ((∃ line categories number, Declaration.ofLine line categories number = .ok d) ∨
        ∃ data, Declaration.ofData data = .ok d) →
      ∀ data, Writes d data → Declaration.ofData data = .ok d) ∧
    ∀ text m, Model.ofText text = .ok m →
      (∃ items, List.Forall₂ Writes m.declarations items) ∧
      (∀ items, List.Forall₂ Writes m.declarations items →
        modelOfData (Model.dataOf items) = .ok m ∧
        ∃ written doc,
          (∀ room, 4 ≤ room →
            Yaml.Document.ofSource room (.ofString written) = .ok (some doc)) ∧
            doc.root.unfold doc.boxes 4 = Model.dataOf items ∧
            ∀ path (reader : Reader), 4 ≤ reader.room →
              modelOfYaml (.ofString written) path reader = .ok m) ∧
      ∀ source path reader boxes es, mapping source path reader = .ok (boxes, es) →
        m.WrittenIn boxes es → modelOfYaml source path reader = .ok m := by
  refine ⟨?_, fun text m hm => ⟨Declaration.exists_forall₂_writes _, ?_, ?_⟩⟩
  · rintro d (⟨line, categories, number, hd⟩ | ⟨data, hd⟩) _ hwrites
    · exact (Declaration.normal_of_ofLine hd).ofData_of_writes hwrites
    · exact (Declaration.normal_of_ofData hd).ofData_of_writes hwrites
  · intro items hwrites
    refine ⟨?_, Model.exists_document (Model.normal_of_ofText hm) hwrites⟩
    rw [modelOfData, Model.ofData_of_writes (Model.normal_of_ofText hm) hwrites]
    rfl
  · intro source path reader boxes es hmapping hwritten
    rw [modelOfYaml, hmapping]
    show orInvalid (Model.ofEntries boxes es) = _
    rw [Model.ofEntries_of_writtenIn (Model.normal_of_ofText hm) hwritten]
    rfl

/-- A role with categories and clauses of its own, told by its word, its fields from the last to the
first, one of them a single text. -/
theorem modelOfData_of_writes_role :
    ∃ m d data, Model.ofText "[ B A ]\nrole Pet is Named does Tame[x]" = .ok m ∧
      m.declarations = [d] ∧ Declaration.ofData data = .ok d ∧
      modelOfData (Model.dataOf [data]) = .ok m := by
  let d : Declaration :=
    { name := "Pet", kind := .ofRole, categories := ["a", "b"], parents := ["Named"]
      roles := ["Tame"], roleSignatures := [("Tame", "[x]")] }
  have hread : Model.ofText "[ B A ]\nrole Pet is Named does Tame[x]" = .ok ⟨[d]⟩ := by
    decide +kernel
  have hline : Declaration.ofLine "role Pet is Named does Tame[x]" ["b", "a"] (some 2) = .ok d := by
    decide +kernel
  have hnames : ∀ t, t ∈ (["b", "a", "b"] : List Text) ↔ t ∈ d.categories := by
    intro t
    simp only [d, List.mem_cons, List.not_mem_nil, or_false]
    tauto
  have hparents : "super_names" ∈ Declaration.parentsKeys := by decide
  have hroles : "does" ∈ Declaration.rolesKeys := by decide
  have hwrites : Writes d (.map [(.text "does", .list [.text "Tame"]),
      (.text "super_names", .text "Named"),
      (.text "categories", .list [.text "b", .text "a", .text "b"]),
      (.text "role_signatures", .map [(.text "Tame", .text "[x]")]), (.text "signature", .null),
      (.text "role", .text "Pet")]) :=
    .mapping .shorthand hnames (.list _) hparents (.bare _) hroles (.list _)
      (List.reverse_perm _).symm
  exact ⟨_, d, _, hread, rfl, modelOfData_of_writes.1 d (.inl ⟨_, _, _, hline⟩) _ hwrites,
    ((modelOfData_of_writes.2 _ _ hread).2.1 _ (.cons hwrites .nil)).1⟩

end Load

end Lineage
