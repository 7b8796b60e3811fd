import Lineage.Proofs.Yaml.InlineTokens
import Lineage.Proofs.Yaml.InlineTree
import Lineage.Proofs.Yaml.Values

/-!
# The data of values in brackets

Values are made from nodes one after the other, and the collections among them are filled later.
`Making.Keeps` says how far this has come: what has been made belongs to its nodes, and so many
collections hold their items. Every step keeps it (`Making.Keeps.make`, `Making.Keeps.fill`), and
once all collections are filled the nodes of a value are unfolded to its data
(`Making.Keeps.unfold`). So the text of a mapping is read as a document that holds the mapping
(`Inline.exists_holds`).
-/

namespace Lineage.Yaml

namespace Inline

variable {ns : Array Node} {i : Nat} {v : Inline} {vs : List Inline} {k : Text}
  {es : List (Text × Inline)}

/-! ## Nodes by number -/

/-- The nodes of a value are found from the number on. -/
def At (ns : Array Node) (i : Nat) (own : List Node) : Prop :=
  own <+: ns.toList.drop i

theorem At.head {n : Node} {own : List Node} (h : At ns i (n :: own)) :
    ns[i]? = some n ∧ At ns (i + 1) own := by
  obtain ⟨rest, hrest⟩ := h
  have hdrop : ns.toList.drop i = n :: (own ++ rest) := hrest.symm
  refine ⟨?_, rest, ?_⟩
  · rw [← Array.getElem?_toList, ← List.head?_drop, hdrop, List.head?_cons]
  · rw [← List.drop_drop, hdrop]
    rfl

theorem At.append {ns₁ ns₂ : List Node} (h : At ns i (ns₁ ++ ns₂)) :
    At ns i ns₁ ∧ At ns (i + ns₁.length) ns₂ := by
  obtain ⟨rest, hrest⟩ := h
  rw [List.append_assoc] at hrest
  refine ⟨⟨_, hrest⟩, rest, ?_⟩
  rw [← List.drop_drop, ← hrest, List.drop_left]

/-- The nodes spell the value from the number on, and no mapping in it has a key twice. -/
structure Spells (ns : Array Node) (i : Nat) (v : Inline) : Prop where
  at_number : At ns i (v.nodes i)
  fits : ∃ room, Fits room v

theorem spells_items {vs : List Inline} (hat : At ns i (itemNodes i vs))
    (hfits : ∀ v ∈ vs, ∃ room, Fits room v) :
    List.Forall₂ (Spells ns) (itemNumbers i vs) vs := by
  induction vs generalizing i with
  | nil => exact .nil
  | cons v vs ih =>
    obtain ⟨hv, hvs⟩ := At.append hat
    obtain ⟨hfit, hfits⟩ := List.forall_mem_cons.1 hfits
    rw [length_nodes] at hvs
    exact .cons ⟨hv, hfit⟩ (ih hvs hfits)

theorem Spells.list (h : Spells ns i (.list vs)) :
    ns[i]? = some ⟨Tag.standard "seq", .sequence (itemNumbers (i + 1) vs)⟩ ∧
      List.Forall₂ (Spells ns) (itemNumbers (i + 1) vs) vs := by
  obtain ⟨hat, room, hfits⟩ := h
  obtain ⟨hnode, hitems⟩ := At.head hat
  cases hfits with
  | list fits => exact ⟨hnode, spells_items hitems fun v hv => ⟨_, fits v hv⟩⟩

/-- The nodes spell an entry from the numbers of its key and its value on. -/
structure SpellsEntry (ns : Array Node) (p : Nat × Nat) (e : Text × Inline) : Prop where
  key : Spells ns p.1 (.text e.1)
  value : Spells ns p.2 e.2

theorem spells_entries {es : List (Text × Inline)} (hat : At ns i (entryNodes i es))
    (hfits : ∀ e ∈ es, ∃ room, Fits room e.2) :
    List.Forall₂ (SpellsEntry ns) (entryNumbers i es) es := by
  induction es generalizing i with
  | nil => exact .nil
  | cons e es ih =>
    have hkey : At ns i (nodes i (.text e.1)) := List.IsPrefix.trans (List.prefix_append [_] _) hat
    obtain ⟨hv, hes⟩ := At.append (At.head hat).2
    obtain ⟨hfit, hfits⟩ := List.forall_mem_cons.1 hfits
    rw [length_nodes, Nat.add_assoc] at hes
    exact .cons ⟨⟨hkey, 0, .text e.1⟩, hv, hfit⟩ (ih hes hfits)

theorem Spells.map (h : Spells ns i (.map es)) :
    ns[i]? = some ⟨Tag.standard "map", .mapping (entryNumbers (i + 1) es)⟩ ∧
      List.Forall₂ (SpellsEntry ns) (entryNumbers (i + 1) es) es ∧ (es.map (·.1)).Nodup := by
  obtain ⟨hat, room, hfits⟩ := h
  obtain ⟨hnode, hentries⟩ := At.head hat
  cases hfits with
  | map nodup fits => exact ⟨hnode, spells_entries hentries fun e he => ⟨_, fits e he⟩, nodup⟩

end Inline

/-! ## Making values -/

namespace Making

open Inline (Spells)

variable {ns : Array Node} {m m' m'' : Making} {i : Nat} {v : Inline} {r : Ref}
  {filled : Nat}

/-- The node is a scalar with this value. -/
inductive Means : Node → Data → Prop
  | null : Means ⟨Tag.standard "null", .scalar (.ofChars ['~'])⟩ .null
  | text (t : Text) : Means ⟨Tag.standard "str", .scalar t⟩ (.text t)

/-- The node is an empty collection at first. -/
inductive Starts : Node → Box → Prop
  | list {is : List Nat} : Starts ⟨Tag.standard "seq", .sequence is⟩ (.list [])
  | map {ps : List (Nat × Nat)} : Starts ⟨Tag.standard "map", .mapping ps⟩ (.map [])

theorem Means.content {n : Node} {d : Data} (h : Means n d) : ∃ t, n.content = .scalar t := by
  cases h with
  | null => exact ⟨_, rfl⟩
  | text t => exact ⟨t, rfl⟩

theorem Means.unique {n : Node} {d d' : Data} (h : Means n d) (h' : Means n d') : d = d' := by
  have hne : Tag.standard "null" ≠ Tag.standard "str" := by decide
  generalize hn : n = n' at h'
  cases h <;> cases h' <;> simp_all [Node.mk.injEq]

theorem Starts.content {n : Node} {box : Box} (h : Starts n box) (t : Text) :
    n.content ≠ .scalar t := by
  cases h <;> exact nofun

theorem Starts.eq_list {n : Node} {box : Box} {is : List Nat} (h : Starts n box)
    (hn : n.content = .sequence is) : box = .list [] := by
  cases h with
  | list => rfl
  | map => cases hn

theorem Starts.eq_map {n : Node} {box : Box} {ps : List (Nat × Nat)} (h : Starts n box)
    (hn : n.content = .mapping ps) : box = .map [] := by
  cases h with
  | list => cases hn
  | map => rfl

/-- The value of a node has been made. -/
def Has (m : Making) (i : Nat) (r : Ref) : Prop :=
  m.made[i]? = some (some r)

/-- An entry stands for the key and the value of its nodes. -/
structure HasEntry (ns : Array Node) (m : Making) (p : Nat × Nat) (x : Data × Ref) : Prop where
  key : ∃ n, ns[p.1]? = some n ∧ Means n x.1
  value : m.Has p.2 x.2

/-- A collection is filled with the values of the parts of its node. -/
inductive Fills (ns : Array Node) (m : Making) : Node → Box → Prop
  | list {is : List Nat} {rs : List Ref} (items : List.Forall₂ m.Has is rs) :
      Fills ns m ⟨Tag.standard "seq", .sequence is⟩ (.list rs)
  | map {ps : List (Nat × Nat)} {xs : List (Data × Ref)}
      (entries : List.Forall₂ (HasEntry ns m) ps xs) :
      Fills ns m ⟨Tag.standard "map", .mapping ps⟩ (.map xs)

theorem Fills.content {n : Node} {box : Box} (h : Fills ns m n box) (t : Text) :
    n.content ≠ .scalar t := by
  cases h <;> exact nofun

/-- Values are made from nodes that spell values in brackets, and the first collections are
filled. -/
structure Keeps (ns : Array Node) (m : Making) (filled : Nat) : Prop where
  nodes : m.nodes = ns
  size : m.made.size = ns.size
  sources : m.sources.size = m.boxes.size
  filled_le : filled ≤ m.boxes.size
  value : ∀ i d, m.Has i (.value d) → ∃ n, ns[i]? = some n ∧ Means n d
  box : ∀ i b, m.Has i (.box b) → m.sources[b]? = some i
  source : ∀ b i, m.sources[b]? = some i → m.Has i (.box b) ∧ (∃ v, Spells ns i v) ∧
    ∃ n box, ns[i]? = some n ∧ m.boxes[b]? = some box ∧
      if b < filled then Fills ns m n box else Starts n box

/-- Nothing that has been made is lost. -/
structure Grows (m m' : Making) : Prop where
  made : ∀ i r, m.Has i r → m'.Has i r
  sources : ∀ (b i : Nat), m.sources[b]? = some i → m'.sources[b]? = some i
  boxes : ∀ (b : Nat) box, m.boxes[b]? = some box → m'.boxes[b]? = some box

namespace Grows

theorem refl (m : Making) : m.Grows m :=
  ⟨fun _ _ h => h, fun _ _ h => h, fun _ _ h => h⟩

theorem trans (h₁ : m.Grows m') (h₂ : m'.Grows m'') : m.Grows m'' where
  made i r h := h₂.made i r (h₁.made i r h)
  sources b i h := h₂.sources b i (h₁.sources b i h)
  boxes b box h := h₂.boxes b box (h₁.boxes b box h)

end Grows

theorem Fills.mono {n : Node} {box : Box} (h : Fills ns m n box)
    (hm : ∀ i r, m.Has i r → m'.Has i r) : Fills ns m' n box := by
  cases h with
  | list items => exact .list (items.imp fun _ _ h => hm _ _ h)
  | map entries => exact .map (entries.imp fun _ _ h => ⟨h.key, hm _ _ h.value⟩)

theorem node_eq (hm : m.nodes = ns) {n : Node} (hn : ns[i]? = some n) : m.node i = n := by
  rw [node, hm, Array.getD_eq_getD_getElem?, hn, Option.getD_some]

theorem make_of_has (h : m.Has i r) : m.make i = .ok (m, r) := by
  have hmade : m.made.getD i none = some r := by
    rw [Array.getD_eq_getD_getElem?, h, Option.getD_some]
  rw [make, hmade]

theorem getD_made_of_lacks (h : ∀ r, ¬ m.Has i r) : m.made.getD i none = none := by
  rw [Array.getD_eq_getD_getElem?]
  cases hmade : m.made[i]? with
  | none => rfl
  | some r =>
    cases r with
    | none => rfl
    | some r => exact absurd hmade (h r)

theorem make_of_means {n : Node} {d : Data} (hnode : m.node i = n) (hn : Means n d)
    (hlacks : ∀ r, ¬ m.Has i r) :
    m.make i =
      .ok ({ m with made := m.made.setIfInBounds i (some (.value d)) }, .value d) := by
  have hnull : standardName? (Tag.standard "null") = some "null" := by decide
  unfold make
  rw [getD_made_of_lacks hlacks]
  cases hn with
  | null =>
    simp only [hnode, hnull, text, scalarReader?]
    rfl
  | text t =>
    simp only [hnode, standardName?_str, text, scalarReader?]
    rfl

theorem make_of_starts {n : Node} {box : Box} (hnode : m.node i = n) (hn : Starts n box)
    (hlacks : ∀ r, ¬ m.Has i r) :
    m.make i = .ok ({ m with
      made := m.made.setIfInBounds i (some (.box m.boxes.size))
      boxes := m.boxes.push box
      sources := m.sources.push i }, .box m.boxes.size) := by
  have hseq : standardName? (Tag.standard "seq") = some "seq" := by decide
  have hmap : standardName? (Tag.standard "map") = some "map" := by decide
  unfold make
  rw [getD_made_of_lacks hlacks]
  cases hn with
  | list =>
    simp only [hnode, hseq, scalarReader?]
    rfl
  | map =>
    simp only [hnode, hmap, scalarReader?]
    rfl

/-- What has been made once the value of one more node is made. -/
theorem getElem?_made_set {made : Array (Option Ref)} (hi : i < made.size) (j : Nat) (s : Ref) :
    (made.setIfInBounds i (some r))[j]? = some (some s) ↔
      (j = i ∧ s = r) ∨ (j ≠ i ∧ made[j]? = some (some s)) := by
  by_cases hj : i = j
  · subst hj
    rw [Array.getElem?_setIfInBounds_self_of_lt hi]
    simp [eq_comm]
  · rw [Array.getElem?_setIfInBounds_ne hj]
    simp [Ne.symm hj]

theorem lt_size_of_getElem? {n : Node} (hm : Keeps ns m filled) (hn : ns[i]? = some n) :
    i < m.made.size :=
  hm.size ▸ (Array.getElem?_eq_some_iff.1 hn).1

theorem Keeps.of_grows {b : Nat} (hm : Keeps ns m filled) (hgrows : m.Grows m')
    (hb : m.sources[b]? = some i) :
    m'.Has i (.box b) ∧ (∃ v, Spells ns i v) ∧ ∃ n box, ns[i]? = some n ∧
      m'.boxes[b]? = some box ∧ if b < filled then Fills ns m' n box else Starts n box := by
  obtain ⟨hhas, hspells, n, box, hn, hbox, hheld⟩ := hm.source b i hb
  refine ⟨hgrows.made _ _ hhas, hspells, n, box, hn, hgrows.boxes _ _ hbox, ?_⟩
  split
  · rw [if_pos ‹_›] at hheld
    exact hheld.mono hgrows.made
  · rwa [if_neg ‹_›] at hheld

theorem Keeps.make_value {n : Node} {d : Data} (hm : Keeps ns m filled) (hn : ns[i]? = some n)
    (hd : Means n d) (hlacks : ∀ r, ¬ m.Has i r) :
    ∃ m', m.make i = .ok (m', .value d) ∧ Keeps ns m' filled ∧ m.Grows m' ∧
      m'.Has i (.value d) := by
  let m' : Making := { m with made := m.made.setIfInBounds i (some (.value d)) }
  have hset (j : Nat) (s : Ref) : m'.Has j s ↔ (j = i ∧ s = .value d) ∨ (j ≠ i ∧ m.Has j s) :=
    getElem?_made_set (lt_size_of_getElem? hm hn) j s
  have hgrows : m.Grows m' := by
    refine ⟨fun j s hj => (hset j s).2 (.inr ⟨?_, hj⟩), fun _ _ h => h, fun _ _ h => h⟩
    rintro rfl
    exact hlacks s hj
  refine ⟨m', make_of_means (node_eq hm.nodes hn) hd hlacks, ?_, hgrows,
    (hset i _).2 (.inl ⟨rfl, rfl⟩)⟩
  exact {
    nodes := hm.nodes
    size := (Array.size_setIfInBounds ..).trans hm.size
    sources := hm.sources
    filled_le := hm.filled_le
    value := by
      intro j d' hj
      obtain ⟨rfl, hvalue⟩ | ⟨-, hj⟩ := (hset j _).1 hj
      · cases hvalue
        exact ⟨n, hn, hd⟩
      · exact hm.value j d' hj
    box := by
      intro j b hj
      obtain ⟨-, hvalue⟩ | ⟨-, hj⟩ := (hset j _).1 hj
      · cases hvalue
      · exact hm.box j b hj
    source := fun b j hj => hm.of_grows hgrows hj }

theorem getElem?_push_of_some {α : Type} {xs : Array α} {x y : α} {b : Nat} (h : xs[b]? = some y) :
    (xs.push x)[b]? = some y := by
  rw [Array.getElem?_push, if_neg (Nat.ne_of_lt (Array.getElem?_eq_some_iff.1 h).1), h]

theorem Keeps.make_box {n : Node} {box : Box} (hm : Keeps ns m filled) (hv : Spells ns i v)
    (hn : ns[i]? = some n) (hbox : Starts n box) (hlacks : ∀ r, ¬ m.Has i r) :
    ∃ m' r, m.make i = .ok (m', r) ∧ Keeps ns m' filled ∧ m.Grows m' ∧ m'.Has i r := by
  let m' : Making := { m with
    made := m.made.setIfInBounds i (some (.box m.boxes.size))
    boxes := m.boxes.push box
    sources := m.sources.push i }
  have hset (j : Nat) (s : Ref) :
      m'.Has j s ↔ (j = i ∧ s = .box m.boxes.size) ∨ (j ≠ i ∧ m.Has j s) :=
    getElem?_made_set (lt_size_of_getElem? hm hn) j s
  have hgrows : m.Grows m' := by
    refine ⟨fun j s hj => (hset j s).2 (.inr ⟨?_, hj⟩), fun b j h => ?_, fun b _ h => ?_⟩
    · rintro rfl
      exact hlacks s hj
    · exact getElem?_push_of_some h
    · exact getElem?_push_of_some h
  refine ⟨m', _, make_of_starts (node_eq hm.nodes hn) hbox hlacks, ?_, hgrows,
    (hset i _).2 (.inl ⟨rfl, rfl⟩)⟩
  have hlast : m'.sources[m.boxes.size]? = some i := by
    rw [← hm.sources]
    exact Array.getElem?_push_size
  exact {
    nodes := hm.nodes
    size := (Array.size_setIfInBounds ..).trans hm.size
    sources := by
      show (m.sources.push i).size = (m.boxes.push box).size
      rw [Array.size_push, Array.size_push, hm.sources]
    filled_le := by
      show filled ≤ (m.boxes.push box).size
      rw [Array.size_push]
      exact Nat.le_succ_of_le hm.filled_le
    value := by
      intro j d' hj
      obtain ⟨-, hvalue⟩ | ⟨-, hj⟩ := (hset j _).1 hj
      · cases hvalue
      · exact hm.value j d' hj
    box := by
      intro j b hj
      obtain ⟨rfl, hvalue⟩ | ⟨-, hj⟩ := (hset j _).1 hj
      · cases hvalue
        exact hlast
      · exact hgrows.sources b j (hm.box j b hj)
    source := by
      intro b j hj
      by_cases hb : b = m.boxes.size
      · subst hb
        obtain rfl := Option.some.inj (hlast.symm.trans hj)
        refine ⟨(hset i _).2 (.inl ⟨rfl, rfl⟩), ⟨v, hv⟩, n, box, hn, Array.getElem?_push_size, ?_⟩
        rw [if_neg (Nat.not_lt.2 hm.filled_le)]
        exact hbox
      · refine hm.of_grows hgrows ?_
        rw [← hm.sources] at hb
        rwa [Array.getElem?_push, if_neg hb] at hj }

/-- The value of a node is made. -/
theorem Keeps.make (hm : Keeps ns m filled) (hv : Spells ns i v) :
    ∃ m' r, m.make i = .ok (m', r) ∧ Keeps ns m' filled ∧ m.Grows m' ∧ m'.Has i r := by
  by_cases hhas : ∃ r, m.Has i r
  · obtain ⟨r, hr⟩ := hhas
    exact ⟨m, r, make_of_has hr, hm, .refl m, hr⟩
  have hlacks (r : Ref) : ¬ m.Has i r := fun hr => hhas ⟨r, hr⟩
  cases v with
  | null =>
    obtain ⟨m', h⟩ := hm.make_value (Inline.At.head hv.at_number).1 .null hlacks
    exact ⟨m', _, h⟩
  | text t =>
    obtain ⟨m', h⟩ := hm.make_value (Inline.At.head hv.at_number).1 (.text t) hlacks
    exact ⟨m', _, h⟩
  | list vs => exact hm.make_box hv hv.list.1 .list hlacks
  | map es => exact hm.make_box hv hv.map.1 .map hlacks

theorem Keeps.makeAll {is : List Nat} {vs : List Inline} (hm : Keeps ns m filled)
    (his : List.Forall₂ (Spells ns) is vs) :
    ∃ m' rs, m.makeAll is = .ok (m', rs) ∧ Keeps ns m' filled ∧ m.Grows m' ∧
      List.Forall₂ m'.Has is rs := by
  induction his generalizing m with
  | nil => exact ⟨m, [], rfl, hm, .refl m, .nil⟩
  | @cons i v is vs hv _ ih =>
    obtain ⟨m₁, r, hr, hm₁, hgrows₁, hhas⟩ := hm.make hv
    obtain ⟨m₂, rs, hrs, hm₂, hgrows₂, hall⟩ := ih hm₁
    refine ⟨m₂, r :: rs, ?_, hm₂, hgrows₁.trans hgrows₂, .cons (hgrows₂.made _ _ hhas) hall⟩
    rw [Making.makeAll, hr]
    show m₁.makeAll is >>= _ = _
    rw [hrs]
    rfl

theorem Keeps.eq_value {n : Node} {d : Data} (hm : Keeps ns m filled) (hn : ns[i]? = some n)
    (hd : Means n d) (hr : m.Has i r) : r = .value d := by
  cases r with
  | value d' =>
    obtain ⟨n', hn', hd'⟩ := hm.value i d' hr
    obtain rfl := Option.some.inj (hn.symm.trans hn')
    rw [hd.unique hd']
  | box b =>
    -- a node of which a collection was made is no scalar
    obtain ⟨-, -, n', box, hn', -, hheld⟩ := hm.source b i (hm.box i b hr)
    obtain rfl := Option.some.inj (hn.symm.trans hn')
    obtain ⟨t, ht⟩ := hd.content
    split at hheld
    · exact absurd ht (hheld.content t)
    · exact absurd ht (hheld.content t)

theorem sameKey_text (s t : Text) : Data.sameKey (.text s) (.text t) = (s == t) :=
  rfl

theorem putRef_text {k : Text} {done : List (Data × Ref)}
    (h : ∀ x ∈ done, ∃ t, x.1 = .text t ∧ t ≠ k) :
    putRef (.text k) r done = done ++ [(.text k, r)] := by
  induction done with
  | nil => rfl
  | cons x done ih =>
    obtain ⟨⟨t, ht, hne⟩, hdone⟩ := List.forall_mem_cons.1 h
    obtain ⟨key, value⟩ := x
    obtain rfl : key = .text t := ht
    rw [putRef, sameKey_text, if_neg (by simpa using hne), ih hdone]
    rfl

theorem Keeps.makeEntries {ps : List (Nat × Nat)} {es : List (Text × Inline)}
    {done : List (Data × Ref)} (hm : Keeps ns m filled)
    (hps : List.Forall₂ (Inline.SpellsEntry ns) ps es) (hes : (es.map (·.1)).Nodup)
    (hdone : ∀ x ∈ done, ∃ t, x.1 = .text t ∧ t ∉ es.map (·.1)) :
    ∃ m' xs, m.makeEntries done ps = .ok (m', done ++ xs) ∧ Keeps ns m' filled ∧ m.Grows m' ∧
      List.Forall₂ (HasEntry ns m') ps xs := by
  induction hps generalizing m done with
  | nil => exact ⟨m, [], by rw [List.append_nil]; rfl, hm, .refl m, .nil⟩
  | @cons p e ps es hp hps ih =>
    obtain ⟨hnew, hes⟩ := List.nodup_cons.1 hes
    have hnode := (Inline.At.head hp.key.at_number).1
    obtain ⟨m₁, key, hkey, hm₁, hgrows₁, hhas₁⟩ := hm.make hp.key
    obtain rfl := hm₁.eq_value hnode (.text e.1) hhas₁
    obtain ⟨m₂, r, hr, hm₂, hgrows₂, hhas₂⟩ := hm₁.make hp.value
    have hput : putRef (.text e.1) r done = done ++ [(.text e.1, r)] := by
      refine putRef_text fun x hx => ?_
      obtain ⟨t, ht, hfresh⟩ := hdone x hx
      exact ⟨t, ht, fun heq => hfresh (heq ▸ List.mem_cons_self)⟩
    have hdone' : ∀ x ∈ done ++ [(.text e.1, r)], ∃ t, x.1 = .text t ∧ t ∉ es.map (·.1) := by
      intro x hx
      rcases List.mem_append.1 hx with hx | hx
      · obtain ⟨t, ht, hfresh⟩ := hdone x hx
        exact ⟨t, ht, fun hmem => hfresh (List.mem_cons_of_mem _ hmem)⟩
      · rw [List.mem_singleton.1 hx]
        exact ⟨e.1, rfl, hnew⟩
    obtain ⟨m₃, xs, hxs, hm₃, hgrows₃, hall⟩ := ih hm₂ hes hdone'
    refine ⟨m₃, (.text e.1, r) :: xs, ?_, hm₃, hgrows₁.trans (hgrows₂.trans hgrows₃),
      .cons ⟨⟨_, hnode, .text e.1⟩, hgrows₃.made _ _ hhas₂⟩ hall⟩
    rw [Making.makeEntries, hkey]
    show m₁.make p.2 >>= _ = _
    rw [hr]
    show m₂.makeEntries (putRef _ _ _) ps = _
    rw [hput, hxs, List.append_assoc]
    rfl

/-! ## Filling collections -/

/-- There are no merge keys and no value keys among texts. -/
theorem flatten_of_texts {ps : List (Nat × Nat)} {es : List (Text × Inline)} (hm : m.nodes = ns)
    (hn : ns[i]? = some ⟨Tag.standard "map", .mapping ps⟩)
    (hps : List.Forall₂ (Inline.SpellsEntry ns) ps es) : m.flatten i = .ok m := by
  have hentries : m.entries? i = .ok ps := by
    rw [entries?, node_eq hm hn]
  have hkeys : ∀ p ∈ ps, (m.node p.1).tag = Tag.standard "str" := by
    have hall : List.Forall₂ (fun p e => (m.node p.1).tag = Tag.standard "str" ∧
        Inline.SpellsEntry ns p e) ps es := by
      refine hps.imp fun p e hp => ⟨?_, hp⟩
      rw [node_eq hm (Inline.At.head hp.key.at_number).1]
    exact ((List.forall₂_and_left ..).1 hall).1
  have htag {name : String} (hname : Tag.standard "str" ≠ Tag.standard name) :
      ∀ p ∈ ps, m.hasTag p.1 name = false := by
    intro p hp
    rw [hasTag, Node.hasTag, hkeys p hp]
    exact beq_false_of_ne hname
  have hspan : (ps.span fun p => !m.hasTag p.1 "merge") = (ps, []) := by
    have hall : ∀ p ∈ ps, (!m.hasTag p.1 "merge") = true := fun p hp => by
      rw [htag (by decide) p hp]
      rfl
    rw [List.span_eq_takeWhile_dropWhile, List.takeWhile_eq_self_iff.2 hall,
      List.dropWhile_eq_nil_iff.2 hall]
  have hread : ps.foldl (fun m p => m.readTag p.1) m = m := by
    have hsame : ∀ p ∈ ps, m.readTag p.1 = m := fun p hp => by
      rw [readTag, htag (by decide) p hp]
      rfl
    exact List.foldlRecOn ps _ (motive := (· = m)) rfl fun _ hm p hp => hm ▸ hsame p hp
  have htake : m.takeMerges (m.merges + 1) i [] = .ok (m, []) := by
    rw [takeMerges, hentries]
    simp only [bind, Except.bind]
    rw [hspan]
    exact congrArg (fun m => Except.ok (m, [])) hread
  rw [flatten, htake]
  rfl

theorem Keeps.set_box {n : Node} {b : Nat} {box : Box} (hm : Keeps ns m b)
    (hb : m.sources[b]? = some i) (hn : ns[i]? = some n) (hbox : Fills ns m n box) :
    Keeps ns { m with boxes := m.boxes.setIfInBounds b box } (b + 1) := by
  have hlt : b < m.boxes.size := hm.sources ▸ (Array.getElem?_eq_some_iff.1 hb).1
  exact {
    nodes := hm.nodes
    size := hm.size
    sources := hm.sources.trans (Array.size_setIfInBounds ..).symm
    filled_le := by
      rw [Array.size_setIfInBounds]
      exact hlt
    value := hm.value
    box := hm.box
    source := by
      intro c j hc
      obtain ⟨hhas, hv, n', box', hn', hbox', hheld⟩ := hm.source c j hc
      refine ⟨hhas, hv, n', ?_⟩
      by_cases hcb : b = c
      · subst hcb
        obtain rfl := Option.some.inj (hb.symm.trans hc)
        obtain rfl := Option.some.inj (hn.symm.trans hn')
        refine ⟨box, hn, Array.getElem?_setIfInBounds_self_of_lt hlt, ?_⟩
        rw [if_pos (Nat.lt_succ_self _)]
        exact hbox.mono fun _ _ h => h
      · refine ⟨box', hn', (Array.getElem?_setIfInBounds_ne hcb).trans hbox', ?_⟩
        by_cases hlt : c < b
        · rw [if_pos hlt] at hheld
          rw [if_pos (Nat.lt_succ_of_lt hlt)]
          exact hheld.mono fun _ _ h => h
        · rw [if_neg hlt] at hheld
          rwa [if_neg (by omega)] }

/-- The first collection that is still empty is filled. -/
theorem Keeps.fill {b : Nat} (hm : Keeps ns m b) (hb : m.sources[b]? = some i) :
    ∃ m', m.fill i b = .ok m' ∧ Keeps ns m' (b + 1) ∧ ∀ j r, m.Has j r → m'.Has j r := by
  obtain ⟨-, ⟨v, hv⟩, n, box, hn, hbox, hheld⟩ := hm.source b i hb
  rw [if_neg (Nat.lt_irrefl b)] at hheld
  have hgetD : m.boxes.getD b default = box := by
    rw [Array.getD_eq_getD_getElem?, hbox, Option.getD_some]
  cases v with
  | null =>
    obtain rfl := Option.some.inj (hn.symm.trans (Inline.At.head hv.at_number).1)
    exact absurd rfl (hheld.content _)
  | text t =>
    obtain rfl := Option.some.inj (hn.symm.trans (Inline.At.head hv.at_number).1)
    exact absurd rfl (hheld.content _)
  | list vs =>
    obtain ⟨hnode, hitems⟩ := hv.list
    obtain rfl := Option.some.inj (hn.symm.trans hnode)
    obtain rfl := hheld.eq_list rfl
    obtain ⟨m₁, rs, hrs, hm₁, hgrows, hall⟩ := hm.makeAll hitems
    have hown : m.items? i = .ok (Inline.itemNumbers (i + 1) vs) := by
      rw [items?, node_eq hm.nodes hn]
    refine ⟨_, ?_, hm₁.set_box (hgrows.sources b i hb) hn (.list hall), hgrows.made⟩
    rw [Making.fill, hgetD]
    show m.items? i >>= _ = _
    rw [hown]
    show m.makeAll _ >>= _ = _
    rw [hrs]
    rfl
  | map es =>
    obtain ⟨hnode, hentries, hnodup⟩ := hv.map
    obtain rfl := Option.some.inj (hn.symm.trans hnode)
    obtain rfl := hheld.eq_map rfl
    obtain ⟨m₁, xs, hxs, hm₁, hgrows, hall⟩ :=
      hm.makeEntries hentries hnodup (List.forall_mem_nil _)
    have hflatten := flatten_of_texts hm.nodes hn hentries
    have hown : m.entries? i = .ok (Inline.entryNumbers (i + 1) es) := by
      rw [entries?, node_eq hm.nodes hn]
    have hread : m.mappingEntries i = .ok (m₁, xs) := by
      rw [mappingEntries, hflatten]
      show m.entries? i >>= _ = _
      rw [hown]
      exact hxs
    refine ⟨_, ?_, hm₁.set_box (hgrows.sources b i hb) hn (.map hall), hgrows.made⟩
    rw [Making.fill, hgetD]
    show m.mappingEntries i >>= _ = _
    rw [hread]
    rfl

/-- No node has two collections. -/
theorem Keeps.sources_le (hm : Keeps ns m filled) : m.sources.size ≤ ns.size := by
  have hnodup : m.sources.toList.Nodup := by
    refine List.nodup_iff_getElem?_ne_getElem?.2 fun b c hbc hc heq => ?_
    rw [Array.getElem?_toList, Array.getElem?_toList] at heq
    have hlast : m.sources[c]? = some m.sources[c] := Array.getElem?_eq_getElem hc
    have hb := (hm.source b _ (heq.trans hlast)).1
    have hc := (hm.source c _ hlast).1
    have hsame := Option.some.inj (Option.some.inj (hb.symm.trans hc))
    exact Nat.ne_of_lt hbc (Ref.box.inj hsame)
  have hsubset : m.sources.toList ⊆ List.range ns.size := by
    intro i hi
    obtain ⟨b, hb⟩ := List.mem_iff_getElem?.1 hi
    rw [Array.getElem?_toList] at hb
    obtain ⟨-, -, n, -, hn, -⟩ := hm.source b i hb
    exact List.mem_range.2 (Array.getElem?_eq_some_iff.1 hn).1
  have hle := (hnodup.subperm hsubset).length_le
  rwa [List.length_range, Array.length_toList] at hle

/-- All collections are filled. -/
theorem Keeps.fillFrom {bound b : Nat} (hm : Keeps ns m b) (hbound : ns.size ≤ b + bound) :
    ∃ m', m.fillFrom bound b = .ok m' ∧ Keeps ns m' m'.boxes.size ∧
      ∀ j r, m.Has j r → m'.Has j r := by
  induction bound generalizing m b with
  | zero =>
    have hle := hm.sources_le
    have hsize : b = m.boxes.size :=
      Nat.le_antisymm hm.filled_le (hm.sources ▸ hle.trans hbound)
    exact ⟨m, rfl, hsize ▸ hm, fun _ _ h => h⟩
  | succ bound ih =>
    cases hb : m.sources[b]? with
    | none =>
      have hsize : b = m.boxes.size :=
        Nat.le_antisymm hm.filled_le (hm.sources ▸ Array.getElem?_eq_none_iff.1 hb)
      exact ⟨m, by rw [Making.fillFrom, hb], hsize ▸ hm, fun _ _ h => h⟩
    | some i =>
      obtain ⟨m₁, hfill, hm₁, hkept₁⟩ := hm.fill hb
      obtain ⟨m₂, hrest, hm₂, hkept₂⟩ := ih hm₁ (by omega)
      refine ⟨m₂, ?_, hm₂, fun j r h => hkept₂ j r (hkept₁ j r h)⟩
      rw [Making.fillFrom, hb]
      show m.fill i b >>= _ = _
      rw [hfill]
      exact hrest

/-! ## The values -/

theorem unfold_value (boxes : Array Box) (n : Nat) (d : Data) :
    (Ref.value d).unfold boxes n = d := by
  cases n <;> rfl

/-- The value of a collection is a filled one. -/
theorem Keeps.exists_box {n : Node} (hm : Keeps ns m m.boxes.size) (hn : ns[i]? = some n)
    (hcontent : ∀ t, n.content ≠ .scalar t) (hr : m.Has i r) :
    ∃ b box, r = .box b ∧ m.sources[b]? = some i ∧ m.boxes[b]? = some box ∧ Fills ns m n box := by
  cases r with
  | value d =>
    obtain ⟨n', hn', hd⟩ := hm.value i d hr
    obtain rfl := Option.some.inj (hn.symm.trans hn')
    obtain ⟨t, ht⟩ := hd.content
    exact absurd ht (hcontent t)
  | box b =>
    have hb := hm.box i b hr
    obtain ⟨-, -, n', box, hn', hbox, hheld⟩ := hm.source b i hb
    obtain rfl := Option.some.inj (hn.symm.trans hn')
    rw [if_pos (Array.getElem?_eq_some_iff.1 hbox).1] at hheld
    exact ⟨b, box, rfl, hb, hbox, hheld⟩

theorem Fills.exists_list {n : Node} {box : Box} {is : List Nat} (h : Fills ns m n box)
    (hn : n.content = .sequence is) : ∃ rs, box = .list rs ∧ List.Forall₂ m.Has is rs := by
  cases h with
  | list items =>
    obtain rfl := Content.sequence.inj hn
    exact ⟨_, rfl, items⟩
  | map => cases hn

theorem Fills.exists_map {n : Node} {box : Box} {ps : List (Nat × Nat)} (h : Fills ns m n box)
    (hn : n.content = .mapping ps) : ∃ xs, box = .map xs ∧ List.Forall₂ (HasEntry ns m) ps xs := by
  cases h with
  | list => cases hn
  | map entries =>
    obtain rfl := Content.mapping.inj hn
    exact ⟨_, rfl, entries⟩

theorem Keeps.exists_list {vs : List Inline} (hm : Keeps ns m m.boxes.size)
    (hv : Spells ns i (.list vs)) (hr : m.Has i r) :
    ∃ b rs, r = .box b ∧ m.sources[b]? = some i ∧ m.boxes[b]? = some (.list rs) ∧
      List.Forall₂ m.Has (Inline.itemNumbers (i + 1) vs) rs := by
  obtain ⟨b, box, hb, hsource, hbox, hfills⟩ := hm.exists_box hv.list.1 nofun hr
  obtain ⟨rs, rfl, hrs⟩ := hfills.exists_list rfl
  exact ⟨b, rs, hb, hsource, hbox, hrs⟩

theorem Keeps.exists_map {es : List (Text × Inline)} (hm : Keeps ns m m.boxes.size)
    (hv : Spells ns i (.map es)) (hr : m.Has i r) :
    ∃ b xs, r = .box b ∧ m.sources[b]? = some i ∧ m.boxes[b]? = some (.map xs) ∧
      List.Forall₂ (HasEntry ns m) (Inline.entryNumbers (i + 1) es) xs := by
  obtain ⟨b, box, hb, hsource, hbox, hfills⟩ := hm.exists_box hv.map.1 nofun hr
  obtain ⟨xs, rfl, hxs⟩ := hfills.exists_map rfl
  exact ⟨b, xs, hb, hsource, hbox, hxs⟩

theorem map_unfold_items {is : List Nat} {rs : List Ref} {vs : List Inline} {n : Nat}
    (hvs : List.Forall₂ (Spells ns) is vs) (hrs : List.Forall₂ m.Has is rs)
    (h : ∀ v ∈ vs, ∀ i r, Spells ns i v → m.Has i r → r.unfold m.boxes n = v.data) :
    rs.map (Ref.unfold m.boxes n) = Inline.itemData vs := by
  induction hvs generalizing rs with
  | nil =>
    cases hrs
    rfl
  | cons hv _ ih =>
    obtain ⟨hv', hvs'⟩ := List.forall_mem_cons.1 h
    cases hrs with
    | cons hr hrs => rw [List.map_cons, Inline.itemData, hv' _ _ hv hr, ih hrs hvs']

theorem map_unfold_entries {ps : List (Nat × Nat)} {xs : List (Data × Ref)}
    {es : List (Text × Inline)} {n : Nat} (hes : List.Forall₂ (Inline.SpellsEntry ns) ps es)
    (hxs : List.Forall₂ (HasEntry ns m) ps xs)
    (h : ∀ e ∈ es, ∀ i r, Spells ns i e.2 → m.Has i r → r.unfold m.boxes n = e.2.data) :
    xs.map (Prod.map id (Ref.unfold m.boxes n)) = Inline.entryData es := by
  induction hes generalizing xs with
  | nil =>
    cases hxs
    rfl
  | @cons p e ps es he _ ih =>
    obtain ⟨he', hes'⟩ := List.forall_mem_cons.1 h
    cases hxs with
    | @cons _ x _ xs hx hxs =>
      obtain ⟨n', hn', hkey⟩ := hx.key
      obtain rfl := Option.some.inj ((Inline.At.head he.key.at_number).1.symm.trans hn')
      have hx' : Prod.map id (Ref.unfold m.boxes n) x = (.text e.1, e.2.data) :=
        Prod.ext (hkey.unique (.text e.1)) (he' _ _ he.value hx.value)
      rw [List.map_cons, Inline.entryData, hx', ih hxs hes']

/-- The value of a node is the one that it spells. -/
theorem Keeps.unfold {n : Nat} (hm : Keeps ns m m.boxes.size) (hfits : Inline.Fits n v)
    (hv : Spells ns i v) (hr : m.Has i r) : r.unfold m.boxes n = v.data := by
  induction hfits generalizing i r with
  | null =>
    rw [hm.eq_value (Inline.At.head hv.at_number).1 .null hr, unfold_value]
    rfl
  | text t =>
    rw [hm.eq_value (Inline.At.head hv.at_number).1 (.text t) hr, unfold_value]
    rfl
  | list fits ih =>
    obtain ⟨b, rs, rfl, -, hbox, hrs⟩ := hm.exists_list hv hr
    have hitems := map_unfold_items hv.list.2 hrs fun v hv' i r => ih v hv'
    rw [Ref.unfold, Array.getD_eq_getD_getElem?, hbox]
    exact congrArg Data.list hitems
  | map nodup fits ih =>
    obtain ⟨b, xs, rfl, -, hbox, hxs⟩ := hm.exists_map hv hr
    have hentries := map_unfold_entries hv.map.2.1 hxs fun e he i r => ih e he
    rw [Ref.unfold, Array.getD_eq_getD_getElem?, hbox]
    exact congrArg Data.map hentries

end Making

/-! ## Documents -/

namespace Inline

open Making (Keeps)

theorem Fits.mono {room room' : Nat} {v : Inline} (h : Fits room v) (hle : room ≤ room') :
    Fits room' v := by
  induction h generalizing room' with
  | null => exact .null
  | text t => exact .text t
  | @list room items _ ih =>
    obtain ⟨room', rfl⟩ := Nat.exists_eq_add_one_of_ne_zero (show room' ≠ 0 by omega)
    exact .list fun v hv => ih v hv (Nat.le_of_succ_le_succ hle)
  | @map room entries nodup _ ih =>
    obtain ⟨room', rfl⟩ := Nat.exists_eq_add_one_of_ne_zero (show room' ≠ 0 by omega)
    exact .map nodup fun e he => ih e he (Nat.le_of_succ_le_succ hle)

/-- The document holds the values of these nodes, the root that of the first one. -/
structure Holds (doc : Document) (ns : Array Node) (m : Making) : Prop where
  boxes : doc.boxes = m.boxes
  keeps : Keeps ns m m.boxes.size
  root : m.Has 0 doc.root

/-- No value in brackets is a set, so no order is left open. -/
theorem Holds.inOrder {doc : Document} {m : Making} (h : Holds doc ns m) (order : SetOrder) :
    doc.inOrder order = doc := by
  have hboxes : m.boxes.map (·.inOrder order) = m.boxes := by
    refine Array.ext (Array.size_map ..) fun b hb hb' => ?_
    have hsource : b < m.sources.size := by rw [h.keeps.sources]; exact hb'
    obtain ⟨-, -, n, box, -, hbox, hfills⟩ :=
      h.keeps.source b _ (Array.getElem?_eq_getElem hsource)
    rw [if_pos hb'] at hfills
    obtain ⟨_, hget⟩ := Array.getElem?_eq_some_iff.1 hbox
    rw [Array.getElem_map, hget]
    cases hfills <;> rfl
  unfold Document.inOrder
  rw [h.boxes, hboxes, ← h.boxes]

/-- A mapping in brackets is a document wherever there is room for it, and the value of every node
is found in it. -/
theorem exists_holds {n : Nat} {es : List (Text × Inline)} (h : Fits n (map es)) :
    ∃ doc ns m,
      (∀ room, n ≤ room → Document.ofSource room (.ofString (map es).written) = .ok (some doc)) ∧
        Spells ns 0 (map es) ∧ Holds doc ns m := by
  let ns : Array Node := ((map es).nodes 0).toArray
  have hspells : Spells ns 0 (map es) := ⟨List.prefix_rfl, _, h⟩
  have hcompose : ({} : Composition).compose (map es).tree = .ok ({ nodes := ns }, 0) := by
    rw [Composition.compose_tree]
    simp [Composition.after, ns]
  have hstart : Keeps ns { nodes := ns } 0 := {
    nodes := rfl
    size := Array.size_replicate
    sources := rfl
    filled_le := Nat.le_refl 0
    value := fun i d hi => by simp [Making.Has, Array.getElem?_replicate] at hi
    box := fun i b hi => by simp [Making.Has, Array.getElem?_replicate] at hi
    source := fun b i hb => by cases hb }
  obtain ⟨m₁, r, hroot, hm₁, -, hhas⟩ := hstart.make hspells
  obtain ⟨m₂, hfill, hm₂, hkept⟩ := hm₁.fillFrom (show ns.size ≤ 0 + ns.size by omega)
  refine ⟨⟨m₂.boxes, r⟩, ns, m₂, fun room hroom => ?_, hspells, ⟨rfl, hm₂, hkept 0 r hhas⟩⟩
  unfold Document.ofSource
  rw [tokens_written, ofTokens_tokens (h.mono hroom)]
  show Composition.compose _ _ >>= _ = _
  rw [hcompose]
  show Making.make _ 0 >>= _ = _
  rw [hroot]
  show m₁.fillFrom ns.size 0 >>= _ = _
  rw [hfill]
  rfl

end Inline

end Lineage.Yaml
