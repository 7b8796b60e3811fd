import Lineage.Declaration.OfData
import Lineage.Proofs.Declaration.References
import Mathlib.Data.List.Basic
import Mathlib.Data.List.Nodup

/-!
# Entries of mappings

What a key leads to in a mapping. If all keys are different, then the order of the entries makes no
difference (`entry?_of_perm`). Texts that are checked as what they are pass unchanged. Entries that
are set one after the other keep the place of the first and the value of the last (`foldl_put`).
-/

namespace Lineage

theorem Text.ofString_inj {s t : String} : Text.ofString s = Text.ofString t ↔ s = t := by
  constructor
  · intro h
    have hsome := congrArg Text.toString? h
    rw [toString?_ofString, toString?_ofString] at hsome
    exact Option.some.inj hsome
  · exact fun h => congrArg Text.ofString h

/-! ## Looking up entries -/

namespace Data

open Declaration (isEntryOf)

variable {α β : Type} {key : Text} {es es' : List (Data × α)}

theorem fst_of_isEntryOf {e : Data × α} (h : isEntryOf key e = true) : e.1 = .text key := by
  obtain ⟨k, v⟩ := e
  cases k with
  | text t => exact congrArg Data.text (eq_of_beq h)
  | _ => cases h

/-- The first entry that goes by the key counts. -/
theorem entry?_eq_find? (key : Text) (es : List (Data × α)) :
    entry? key es = (es.find? (isEntryOf key)).map (·.2) := by
  induction es with
  | nil => rfl
  | cons e es ih =>
    obtain ⟨k, v⟩ := e
    cases k with
    | text t =>
      rw [Data.entry?, List.find?_cons, ih]
      by_cases ht : (t == key) = true
      · rw [if_pos ht, show isEntryOf key (text t, v) = true from ht]
        rfl
      · rw [if_neg ht, show isEntryOf key (text t, v) = false from Bool.eq_false_iff.2 ht]
    | _ => exact ih

/-- If all keys are different, then the order of the entries makes no difference. -/
theorem entry?_of_perm (h : es.Perm es') (hnodup : (es'.map (·.1)).Nodup) (key : Text) :
    entry? key es = entry? key es' := by
  rw [entry?_eq_find?, entry?_eq_find?]
  congr 1
  replace hnodup := (h.map (·.1)).nodup_iff.2 hnodup
  induction h with
  | nil => rfl
  | cons e _ ih => rw [List.find?_cons, List.find?_cons, ih (List.nodup_cons.1 hnodup).2]
  | swap a b l =>
    rw [List.find?_cons, List.find?_cons, List.find?_cons, List.find?_cons]
    cases ha : isEntryOf key a with
    | false => rfl
    | true =>
      cases hb : isEntryOf key b with
      | false => rfl
      | true =>
        -- the two have the same key
        have hsame : b.1 = a.1 := (fst_of_isEntryOf hb).trans (fst_of_isEntryOf ha).symm
        exact absurd (List.mem_map.2 ⟨a, List.mem_cons_self, hsame.symm⟩)
          (List.nodup_cons.1 hnodup).1
  | trans h _ ih ih' => exact (ih hnodup).trans (ih' ((h.map _).nodup_iff.1 hnodup))

theorem entry?_eq_none_iff : entry? key es = none ↔ ∀ e ∈ es, isEntryOf key e = false := by
  rw [entry?_eq_find?, Option.map_eq_none_iff, List.find?_eq_none]
  simp only [Bool.not_eq_true]

/-- The entries have these texts as their keys. -/
def Keyed (es : List (Data × α)) (keys : List String) : Prop :=
  es.map (·.1) = keys.map fun k : String => text k

namespace Keyed

variable {keys keys' : List String}

theorem append (h : Keyed es keys) (h' : Keyed es' keys') : Keyed (es ++ es') (keys ++ keys') := by
  unfold Keyed at *
  rw [List.map_append, List.map_append, h, h']

theorem nodup (h : Keyed es keys) (hkeys : keys.Nodup) : (es.map (·.1)).Nodup := by
  rw [h]
  exact hkeys.map fun _ _ heq => Text.ofString_inj.1 (Data.text.inj heq)

theorem entry?_eq_none (h : Keyed es keys) {key : String} (hkey : key ∉ keys) :
    entry? (key : Text) es = none := by
  rw [entry?_eq_none_iff]
  intro e he
  rw [← Bool.not_eq_true]
  intro hentry
  have hmem : text key ∈ keys.map fun k : String => text k :=
    h ▸ fst_of_isEntryOf hentry ▸ List.mem_map_of_mem he
  obtain ⟨k, hk, heq⟩ := List.mem_map.1 hmem
  rw [← Text.ofString_inj.1 (Data.text.inj heq)] at hkey
  exact hkey hk

end Keyed

/-! ## Checked values -/

theorem checkName_ofString {s : String} (h : s ≠ "") : (text s).checkName = .ok s := by
  have htext : (text s).checkText = .ok (s : Text) := rfl
  have hstring : (text s).checkString = .ok s := by
    unfold checkString
    rw [htext]
    simp only [bind, Except.bind, Text.toString?_ofString]
  have hempty : s.isEmpty = false := by simpa using h
  unfold checkName
  rw [hstring]
  show (if s.isEmpty then _ else _) = _
  rw [hempty]
  rfl

theorem items_checkText (n : Nat) (ts : List Text) :
    Checked.items checkText n (ts.map text) = .ok ts := by
  induction ts generalizing n with
  | nil => rfl
  | cons t ts ih =>
    rw [List.map_cons, Checked.items, ih]
    rfl

theorem checkTexts_list (ts : List Text) : (list (ts.map text)).checkTexts = .ok ts :=
  items_checkText 0 ts

theorem checkTextSet_list (ts : List Text) : (list (ts.map text)).checkTextSet = .ok ts :=
  items_checkText 0 ts

theorem checkEntries_map (pairs : List (Text × Text)) :
    checkEntries (pairs.map fun p => (text p.1, text p.2)) = .ok pairs := by
  induction pairs with
  | nil => rfl
  | cons p pairs ih =>
    rw [List.map_cons, checkEntries, ih]
    rfl

end Data

/-! ## Setting entries -/

namespace Json

variable {α : Type} {key : Text} {value : α} {pairs : List (Text × α)}

theorem nodup_addNew {ks : List Text} (h : ks.Nodup) (t : Text) : (addNew ks t).Nodup := by
  rw [← eraseDups_of_nodup h, addNew_eraseDups]
  exact nodup_eraseDups _

theorem addNew_cons {k t : Text} (h : k ≠ t) (ks : List Text) :
    addNew (k :: ks) t = k :: addNew ks t := by
  unfold addNew
  rw [List.contains_cons, beq_eq_false_iff_ne.2 (Ne.symm h), Bool.false_or, List.cons_append]
  split <;> rfl

theorem addNew_of_mem {t : Text} {ks : List Text} (h : t ∈ ks) : addNew ks t = ks :=
  if_pos (List.contains_iff_mem.2 h)

theorem keys_put (key : Text) (value : α) (pairs : List (Text × α)) :
    (put key value pairs).map (·.1) = addNew (pairs.map (·.1)) key := by
  induction pairs with
  | nil => rfl
  | cons p pairs ih =>
    obtain ⟨k, v⟩ := p
    by_cases hk : k = key
    · rw [put, if_pos (beq_iff_eq.2 hk), List.map_cons, List.map_cons,
        addNew_of_mem (List.mem_cons.2 (.inl hk.symm))]
    · rw [put, if_neg (mt beq_iff_eq.1 hk), List.map_cons, List.map_cons, ih, addNew_cons hk]

/-- An entry that is set goes last, or keeps its place. -/
theorem put_map {ks : List Text} (h : ks.Nodup) (f : Text → α) (t : Text) (value : α) :
    put t value (ks.map fun k => (k, f k)) =
      (addNew ks t).map fun k => (k, if k = t then value else f k) := by
  induction ks with
  | nil =>
    show [(t, value)] = [(t, if t = t then value else f t)]
    rw [if_pos rfl]
  | cons k ks ih =>
    obtain ⟨hk, hks⟩ := List.nodup_cons.1 h
    by_cases hkt : k = t
    · subst hkt
      have hrest : (ks.map fun u => (u, if u = k then value else f u)) =
          ks.map fun u => (u, f u) :=
        List.map_congr_left fun u hu => by rw [if_neg (ne_of_mem_of_not_mem hu hk)]
      rw [addNew_of_mem List.mem_cons_self, List.map_cons, List.map_cons, hrest, put,
        if_pos (beq_self_eq_true k), if_pos rfl]
    · rw [addNew_cons hkt, List.map_cons, List.map_cons, put, if_neg (mt beq_iff_eq.1 hkt),
        if_neg hkt, ih hks]

/-- Entries that are set one after the other keep the place of the first and get the new value. -/
theorem foldl_put (ts : List Text) {ks : List Text} (h : ks.Nodup) (f : Text → α) (value : α) :
    ts.foldl (fun pairs t => put t value pairs) (ks.map fun k => (k, f k)) =
      (ts.foldl addNew ks).map fun k => (k, if k ∈ ts then value else f k) := by
  induction ts generalizing ks f with
  | nil => simp
  | cons t ts ih =>
    rw [List.foldl_cons, List.foldl_cons, put_map h, ih (nodup_addNew h t)]
    refine List.map_congr_left fun k _ => ?_
    congr 1
    by_cases hk : k ∈ ts
    · rw [if_pos hk, if_pos (List.mem_cons_of_mem t hk)]
    · rw [if_neg hk]
      simp only [List.mem_cons, hk, or_false]

theorem put_of_not_mem (h : key ∉ pairs.map (·.1)) :
    put key value pairs = pairs ++ [(key, value)] := by
  induction pairs with
  | nil => rfl
  | cons p pairs ih =>
    rw [List.map_cons, List.mem_cons, not_or] at h
    rw [put, beq_eq_false_iff_ne.2 (Ne.symm h.1), ih h.2]
    rfl

theorem fields_concat (pairs : List (Text × α)) (key : Text) (value : α) :
    fields (pairs ++ [(key, value)]) = put key value (fields pairs) := by
  rw [fields, List.foldl_append]
  rfl

/-- Fields with different keys are kept as they are. -/
theorem fields_of_nodup (h : (pairs.map (·.1)).Nodup) : fields pairs = pairs := by
  induction pairs using List.reverseRecOn with
  | nil => rfl
  | append_singleton pairs p ih =>
    rw [List.map_append, List.nodup_append] at h
    obtain ⟨hpairs, _, hdisjoint⟩ := h
    rw [fields_concat, ih hpairs]
    exact put_of_not_mem fun hmem => hdisjoint _ hmem _ List.mem_cons_self rfl

theorem nodup_keys_fields (pairs : List (Text × α)) : ((fields pairs).map (·.1)).Nodup := by
  induction pairs using List.reverseRecOn with
  | nil => exact List.nodup_nil
  | append_singleton pairs p ih =>
    rw [fields_concat, keys_put]
    exact nodup_addNew ih _

end Json

end Lineage
