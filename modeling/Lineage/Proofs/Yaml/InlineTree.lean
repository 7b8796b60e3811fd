import Lineage.Proofs.Yaml.Inline
import Lineage.Yaml.Tree
import Lineage.Yaml.Node

/-!
# The trees of values in brackets

The tokens of a value are parsed to the tree that it is meant to be read as (`Inline.node_tokens`),
as long as no more collections enclose each other than a document may have. The nodes that the tree
is composed of are numbered in the order in which they are written (`Composition.compose_tree`), so
the parts of an item have their numbers between that of the item and that of the next one
(`Inline.itemNumbers_apart`).
-/

namespace Lineage.Yaml

namespace Inline

open Yaml.Tree

variable {handles : Handles} {room fuel : Nat} {block indentless : Bool} {rest : List Token}

/-! ## Fitting -/

theorem Fits.exists_inside_list {items : List Inline} (h : Fits room (.list items)) :
    ∃ room', Tree.inside room = .ok room' ∧ ∀ v ∈ items, Fits room' v := by
  cases h with
  | list fits => exact ⟨_, rfl, fits⟩

theorem Fits.exists_inside_map {entries : List (Text × Inline)} (h : Fits room (.map entries)) :
    ∃ room', Tree.inside room = .ok room' ∧ ∀ e ∈ entries, Fits room' e.2 := by
  cases h with
  | map _ fits => exact ⟨_, rfl, fits⟩

/-! ## Parsing -/

/-- The comma that stands before all items but the first. -/
def comma : (first : Bool) → List Token
  | true => []
  | false => [.flowEntry]

theorem flowItems_cons (v : Inline) (first : Bool) (acc : List Tree) (ts : List Token) :
    flowItems handles room first (fuel + 1) acc (comma first ++ (v.tokens ++ ts)) = (do
      let (item, ts) ← node handles room false false fuel (v.tokens ++ ts)
      flowItems handles room false fuel (item :: acc) ts) := by
  cases v <;> cases first <;> rfl

theorem flowItems_nil (first : Bool) (acc : List Tree) :
    flowItems handles room first (fuel + 1) acc (comma first ++ .flowSequenceEnd :: rest) =
      .ok (acc.reverse, rest) := by
  cases first <;> rfl

theorem flowEntries_nil (first : Bool) (acc : List (Tree × Tree)) :
    flowEntries handles room first (fuel + 1) acc (comma first ++ .flowMappingEnd :: rest) =
      .ok (acc.reverse, rest) := by
  cases first <;> rfl

theorem flowEntries_cons (k : Text) (v : Inline) (first : Bool) (acc : List (Tree × Tree))
    (ts : List Token) :
    flowEntries handles room first (fuel + 2) acc
        (comma first ++ .key :: .scalar k false :: .value :: (v.tokens ++ ts)) = (do
      let (v, ts) ← node handles room false false fuel (v.tokens ++ ts)
      flowEntries handles room false (fuel + 1) ((.scalar {} k false, v) :: acc) ts) := by
  cases v <;> cases first <;> rfl

theorem node_list {room' : Nat} (h : inside room = .ok room') (ts : List Token) :
    node handles room block indentless (fuel + 1) (.flowSequenceStart :: ts) = (do
      let (items, ts) ← flowItems handles room' true fuel [] ts
      .ok (.sequence {} items, ts)) := by
  show (inside room >>= _) = _
  rw [h]
  rfl

theorem node_map {room' : Nat} (h : inside room = .ok room') (ts : List Token) :
    node handles room block indentless (fuel + 1) (.flowMappingStart :: ts) = (do
      let (entries, ts) ← flowEntries handles room' true fuel [] ts
      .ok (.mapping {} entries, ts)) := by
  show (inside room >>= _) = _
  rw [h]
  rfl

mutual

/-- The tree of a value is read. -/
theorem node_tokens {room fuel : Nat} {block indentless : Bool} {rest : List Token} (v : Inline)
    (hv : Fits room v) (hfuel : v.tokens.length < fuel) :
    node handles room block indentless fuel (v.tokens ++ rest) = .ok (v.tree, rest) := by
  obtain ⟨fuel, rfl⟩ := Nat.exists_eq_add_one_of_ne_zero (Nat.ne_zero_of_lt hfuel)
  cases v with
  | null => rfl
  | text t => rfl
  | list items =>
    obtain ⟨room', hinside, hitems⟩ := hv.exists_inside_list
    rw [tokens, List.length_append, List.length_cons] at hfuel
    have hread : flowItems handles room' true fuel []
        (itemTokens items ++ .flowSequenceEnd :: rest) = .ok (itemTrees items, rest) :=
      flowItems_tokens items true [] hitems (by omega)
    simp only [tokens, List.cons_append, List.append_assoc, List.nil_append]
    rw [node_list hinside, hread]
    rfl
  | map entries =>
    obtain ⟨room', hinside, hentries⟩ := hv.exists_inside_map
    rw [tokens, List.length_append, List.length_cons] at hfuel
    have hread : flowEntries handles room' true fuel []
        (entryTokens entries ++ .flowMappingEnd :: rest) = .ok (entryTrees entries, rest) :=
      flowEntries_tokens entries true [] hentries (by omega)
    simp only [tokens, List.cons_append, List.append_assoc, List.nil_append]
    rw [node_map hinside, hread]
    rfl

theorem flowItems_tokens {room fuel : Nat} {rest : List Token} (vs : List Inline) (first : Bool)
    (acc : List Tree) (hvs : ∀ v ∈ vs, Fits room v) (hfuel : (itemTokens vs).length < fuel) :
    flowItems handles room first fuel acc
        (comma first ++ (itemTokens vs ++ .flowSequenceEnd :: rest)) =
      .ok (acc.reverse ++ itemTrees vs, rest) := by
  obtain ⟨fuel, rfl⟩ := Nat.exists_eq_add_one_of_ne_zero (Nat.ne_zero_of_lt hfuel)
  cases vs with
  | nil =>
    rw [itemTokens, itemTrees, List.append_nil]
    exact flowItems_nil first acc
  | cons v vs =>
    obtain ⟨hv, hvs⟩ := List.forall_mem_cons.1 hvs
    rw [itemTokens, List.length_append, List.length_cons] at hfuel
    have hacc : acc.reverse ++ itemTrees (v :: vs) = (v.tree :: acc).reverse ++ itemTrees vs := by
      rw [itemTrees, List.reverse_cons, List.append_assoc]
      rfl
    rw [itemTokens, List.append_assoc, flowItems_cons, node_tokens v hv (by omega), hacc]
    exact flowItems_tokens vs false _ hvs (by omega)

theorem flowEntries_tokens {room fuel : Nat} {rest : List Token} (es : List (Text × Inline))
    (first : Bool) (acc : List (Tree × Tree)) (hes : ∀ e ∈ es, Fits room e.2)
    (hfuel : (entryTokens es).length < fuel) :
    flowEntries handles room first fuel acc
        (comma first ++ (entryTokens es ++ .flowMappingEnd :: rest)) =
      .ok (acc.reverse ++ entryTrees es, rest) := by
  obtain ⟨fuel, rfl⟩ := Nat.exists_eq_add_one_of_ne_zero (Nat.ne_zero_of_lt hfuel)
  cases es with
  | nil =>
    rw [entryTokens, entryTrees, List.append_nil]
    exact flowEntries_nil first acc
  | cons e es =>
    obtain ⟨k, v⟩ := e
    obtain ⟨hv, hes⟩ := List.forall_mem_cons.1 hes
    rw [entryTokens, List.length_append, List.length_cons, List.length_cons, List.length_cons,
      List.length_cons] at hfuel
    obtain ⟨fuel, rfl⟩ := Nat.exists_eq_add_one_of_ne_zero (show fuel ≠ 0 by omega)
    have hacc : acc.reverse ++ entryTrees ((k, v) :: es) =
        ((.scalar {} k false, v.tree) :: acc).reverse ++ entryTrees es := by
      rw [entryTrees, List.reverse_cons, List.append_assoc]
      rfl
    simp only [entryTokens, List.append_assoc, List.cons_append]
    rw [flowEntries_cons, node_tokens v hv (by omega), hacc]
    exact flowEntries_tokens es false _ hes (by omega)

end

mutual

/-- There is no anchor in a value, and no alias. -/
theorem checkAnchors_tokens {seen : List String} {rest : List Token} (v : Inline) :
    checkAnchors seen (v.tokens ++ rest) = v.tokens ++ checkAnchors seen rest := by
  cases v with
  | null => rfl
  | text t => rfl
  | list items => simp [tokens, checkAnchors, checkAnchors_itemTokens items]
  | map entries => simp [tokens, checkAnchors, checkAnchors_entryTokens entries]

theorem checkAnchors_itemTokens {seen : List String} {rest : List Token} (vs : List Inline) :
    checkAnchors seen (itemTokens vs ++ rest) = itemTokens vs ++ checkAnchors seen rest := by
  cases vs with
  | nil => rfl
  | cons v vs => simp [itemTokens, checkAnchors, checkAnchors_tokens v, checkAnchors_itemTokens vs]

theorem checkAnchors_entryTokens {seen : List String} {rest : List Token}
    (es : List (Text × Inline)) :
    checkAnchors seen (entryTokens es ++ rest) = entryTokens es ++ checkAnchors seen rest := by
  cases es with
  | nil => rfl
  | cons e es =>
    simp [entryTokens, checkAnchors, checkAnchors_tokens e.2, checkAnchors_entryTokens es]

end

/-- The tokens of a mapping spell its tree. -/
theorem ofTokens_tokens {room : Nat} {es : List (Text × Inline)} (h : Fits room (map es)) :
    ofTokens room ((map es).tokens ++ [.streamEnd]) = .ok (some (map es).tree) := by
  have hnode (ts : List Token) (bound : Nat) (hbound : (map es).tokens.length < bound) :
      node defaultHandles room true false bound ((map es).tokens ++ ts) =
        .ok ((map es).tree, ts) := node_tokens _ h hbound
  unfold ofTokens
  rw [checkAnchors_tokens]
  have hbound : (map es).tokens.length <
      4 * ((map es).tokens ++ [Token.streamEnd]).length + 16 := by
    rw [List.length_append]
    omega
  show (node _ _ _ _ _ ((map es).tokens ++ [.streamEnd]) >>= _) = _
  rw [hnode _ _ hbound]
  rfl

/-! ## Composing -/

mutual

/-- The number of nodes of a value. -/
def size : Inline → Nat
  | null | text _ => 1
  | list items => 1 + itemSizes items
  | map entries => 1 + entrySizes entries

/-- The number of nodes of the items of a list. -/
def itemSizes : List Inline → Nat
  | [] => 0
  | v :: vs => size v + itemSizes vs

/-- The number of nodes of the entries of a mapping. -/
def entrySizes : List (Text × Inline) → Nat
  | [] => 0
  | (_, v) :: es => 1 + size v + entrySizes es

end

/-- The numbers of the items of a list, the first of which has the given number. -/
def itemNumbers (i : Nat) : List Inline → List Nat
  | [] => []
  | v :: vs => i :: itemNumbers (i + size v) vs

/-- The numbers of the entries of a mapping, the first key of which has the given number. -/
def entryNumbers (i : Nat) : List (Text × Inline) → List (Nat × Nat)
  | [] => []
  | (_, v) :: es => (i, i + 1) :: entryNumbers (i + (1 + size v)) es

mutual

/-- The nodes of a value, the first of which has the given number. -/
def nodes (i : Nat) : Inline → List Node
  | null => [⟨Tag.standard "null", .scalar (.ofChars ['~'])⟩]
  | text t => [⟨Tag.standard "str", .scalar t⟩]
  | list items =>
    ⟨Tag.standard "seq", .sequence (itemNumbers (i + 1) items)⟩ :: itemNodes (i + 1) items
  | map entries =>
    ⟨Tag.standard "map", .mapping (entryNumbers (i + 1) entries)⟩ :: entryNodes (i + 1) entries

/-- The nodes of the items of a list. -/
def itemNodes (i : Nat) : List Inline → List Node
  | [] => []
  | v :: vs => nodes i v ++ itemNodes (i + size v) vs

/-- The nodes of the entries of a mapping. -/
def entryNodes (i : Nat) : List (Text × Inline) → List Node
  | [] => []
  | (k, v) :: es =>
    ⟨Tag.standard "str", .scalar k⟩ :: nodes (i + 1) v ++ entryNodes (i + (1 + size v)) es

end

mutual

theorem length_nodes (i : Nat) (v : Inline) : (nodes i v).length = size v := by
  cases v with
  | null => rfl
  | text t => rfl
  | list items => rw [nodes, size, List.length_cons, length_itemNodes, Nat.add_comm]
  | map entries => rw [nodes, size, List.length_cons, length_entryNodes, Nat.add_comm]

theorem length_itemNodes (i : Nat) (vs : List Inline) : (itemNodes i vs).length = itemSizes vs := by
  cases vs with
  | nil => rfl
  | cons v vs => rw [itemNodes, itemSizes, List.length_append, length_nodes, length_itemNodes]

theorem length_entryNodes (i : Nat) (es : List (Text × Inline)) :
    (entryNodes i es).length = entrySizes es := by
  cases es with
  | nil => rfl
  | cons e es =>
    rw [entryNodes, entrySizes, List.length_append, List.length_cons, length_nodes,
      length_entryNodes, Nat.add_comm 1]

end

theorem size_pos (v : Inline) : 0 < v.size := by
  cases v with
  | null | text => exact Nat.one_pos
  | list | map => exact Nat.add_pos_left Nat.one_pos _

theorem le_of_mem_itemNumbers {i j : Nat} {vs : List Inline} (h : j ∈ itemNumbers i vs) :
    i ≤ j := by
  induction vs generalizing i with
  | nil => cases h
  | cons v vs ih =>
    rcases List.mem_cons.1 h with rfl | h
    · exact le_rfl
    · exact (Nat.le_add_right ..).trans (ih h)

theorem pairwise_itemNumbers (i : Nat) (vs : List Inline) :
    (itemNumbers i vs).Pairwise (· < ·) := by
  induction vs generalizing i with
  | nil => exact .nil
  | cons v vs ih =>
    refine .cons (fun j hj => ?_) (ih _)
    have hle := le_of_mem_itemNumbers hj
    have hpos := v.size_pos
    omega

/-- Between the numbers of two items there are only those of parts of the first one. -/
theorem itemNumbers_apart (i : Nat) (vs : List Inline) :
    List.Forall₂ (fun j (v : Inline) => ∀ c ∈ itemNumbers i vs, ¬ (j < c ∧ c < j + v.size))
      (itemNumbers i vs) vs := by
  induction vs generalizing i with
  | nil => exact .nil
  | cons v vs ih =>
    have htail : List.Forall₂ (fun j (w : Inline) => i < j ∧
        ∀ c ∈ itemNumbers (i + v.size) vs, ¬ (j < c ∧ c < j + w.size))
          (itemNumbers (i + v.size) vs) vs := by
      refine (List.forall₂_and_left ..).2 ⟨fun j hj => ?_, ih (i + v.size)⟩
      have hle := le_of_mem_itemNumbers hj
      have hpos := v.size_pos
      omega
    refine .cons (fun c hc => ?_) (htail.imp fun j w hj c hc => ?_)
    · rcases List.mem_cons.1 hc with rfl | hc
      · omega
      · have hle := le_of_mem_itemNumbers hc
        omega
    · rcases List.mem_cons.1 hc with rfl | hc
      · omega
      · exact hj.2 c hc

theorem bounds_of_mem_entryNumbers {i : Nat} {p : Nat × Nat} {es : List (Text × Inline)}
    (h : p ∈ entryNumbers i es) : i < p.2 ∧ p.2 < i + entrySizes es := by
  induction es generalizing i with
  | nil => cases h
  | cons e es ih =>
    have hpos := e.2.size_pos
    rcases List.mem_cons.1 h with rfl | h
    · rw [entrySizes]
      omega
    · have hbounds := ih h
      rw [entrySizes]
      omega

theorem push_append_modify {α : Type} (xs : Array α) (x : α) (l : List α) (f : α → α) :
    (xs.push x ++ l.toArray).modify xs.size f = xs ++ (f x :: l).toArray := by
  apply Array.toList_inj.1
  rw [Array.toList_modify, Array.toList_append, Array.toList_push, List.append_assoc,
    Array.toList_append]
  exact List.modifyTailIdx_add (List.modifyHead f) 0 xs.toList (x :: l)

end Inline

namespace Composition

open Inline

/-- Several nodes are added. -/
def after (c : Composition) (ns : List Node) : Composition :=
  { c with nodes := c.nodes ++ ns.toArray }

variable (c : Composition)

theorem after_nil : c.after [] = c := by
  simp [after]

theorem after_append (ns ms : List Node) : c.after (ns ++ ms) = (c.after ns).after ms := by
  simp [after]

theorem size_after (ns : List Node) : (c.after ns).nodes.size = c.nodes.size + ns.length := by
  simp [after]

theorem add_none (n : Node) : c.add none n = .ok (c.after [n], c.nodes.size) := by
  simp [add, after]

theorem fill_after (tag : String) (content content' : Content) (ns : List Node) :
    ((c.after [⟨tag, content⟩]).after ns).fill c.nodes.size content' =
      c.after (⟨tag, content'⟩ :: ns) := by
  have hnodes := push_append_modify c.nodes ⟨tag, content⟩ ns
    fun n => { n with content := content' }
  simp only [after, fill, ← hnodes]
  simp

theorem compose_text (t : Text) :
    compose c (.scalar {} t false) =
      .ok (c.after [⟨Tag.standard "str", .scalar t⟩], c.nodes.size) := by
  rw [compose]
  exact add_none ..

theorem compose_null :
    compose c null.tree =
      .ok (c.after [⟨Tag.standard "null", .scalar (.ofChars ['~'])⟩], c.nodes.size) := by
  have htag : Tag.ofPlain (.ofChars ['~']) = Tag.standard "null" := by decide +kernel
  rw [tree, compose, ← htag]
  exact add_none ..

mutual

/-- The nodes of a value are added. -/
theorem compose_tree (c : Composition) (v : Inline) :
    compose c v.tree = .ok (c.after (v.nodes c.nodes.size), c.nodes.size) := by
  cases v with
  | null => exact compose_null c
  | text t => exact compose_text c t
  | list items =>
    rw [tree, compose, add_none]
    show composeItems (c.after _) (itemTrees items) >>= _ = _
    rw [composeItems_itemTrees, size_after]
    show Except.ok (_, _) = _
    rw [fill_after]
    rfl
  | map entries =>
    rw [tree, compose, add_none]
    show composeEntries (c.after _) (entryTrees entries) >>= _ = _
    rw [composeEntries_entryTrees, size_after]
    show Except.ok (_, _) = _
    rw [fill_after]
    rfl

theorem composeItems_itemTrees (c : Composition) (vs : List Inline) :
    composeItems c (itemTrees vs) =
      .ok (c.after (itemNodes c.nodes.size vs), itemNumbers c.nodes.size vs) := by
  cases vs with
  | nil => rw [itemTrees, composeItems, itemNodes, after_nil, itemNumbers]
  | cons v vs =>
    rw [itemTrees, composeItems, compose_tree]
    show composeItems (c.after _) (itemTrees vs) >>= _ = _
    rw [composeItems_itemTrees, size_after, length_nodes, ← after_append]
    rfl

theorem composeEntries_entryTrees (c : Composition) (es : List (Text × Inline)) :
    composeEntries c (entryTrees es) =
      .ok (c.after (entryNodes c.nodes.size es), entryNumbers c.nodes.size es) := by
  cases es with
  | nil => rw [entryTrees, composeEntries, entryNodes, after_nil, entryNumbers]
  | cons e es =>
    obtain ⟨k, v⟩ := e
    rw [entryTrees, composeEntries, compose_text]
    show compose (c.after _) v.tree >>= _ = _
    rw [compose_tree, size_after]
    show composeEntries ((c.after _).after _) (entryTrees es) >>= _ = _
    rw [composeEntries_entryTrees, size_after, size_after, length_nodes, ← after_append,
      ← after_append, Nat.add_assoc]
    rfl

end

end Composition

end Lineage.Yaml
