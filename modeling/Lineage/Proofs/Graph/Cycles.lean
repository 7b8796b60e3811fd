import Lineage.Graph.Cycles
import Lineage.Proofs.Declaration.References
import Lineage.Proofs.Successors
import Mathlib.Data.List.Chain
import Mathlib.Data.List.Nodup
import Mathlib.Data.Nat.Find

/-!
# The elementary cycles that are listed

An elementary cycle is listed from its smallest vertex on. This is a closed walk that meets its
first vertex again only in the end and all others once, each of them greater than the first. The
enumeration lists all of these and nothing else (`mem_elementary`): a walk is not cut off as long
as it can be closed, because the sweep from its end then marks the start (`returns_of_isChain`).

A graph has a cycle exactly if one is listed (`exists_mem_elementary`, `cycle_of_mem_elementary`),
and the same holds for a graph on names (`ofNames_eq_nil_iff`).
-/

open Relation (TransGen ReflTransGen)

namespace Lineage.Cycles

variable {next : Nat → List Nat} {size start : Nat}

/-! ## The sweep -/

section Sweep

variable {marked : Array Bool} {work : List Nat} {u v : Nat}

/-- What is marked stays marked. -/
theorem sweep_mono (h : marked[u]? = some true) : (sweep next marked work)[u]? = some true := by
  fun_induction sweep next marked work with
  | case1 marked => exact h
  | case2 marked v rest hv ih =>
    apply ih
    rw [Array.getElem?_setIfInBounds]
    split
    · rename_i heq
      rw [heq, h] at hv
      cases hv
    · exact h
  | case3 marked v rest hv ih => exact ih h

/-- The worklist gets marked. -/
theorem sweep_work (hu : u ∈ work) (hsize : u < marked.size) :
    (sweep next marked work)[u]? = some true := by
  fun_induction sweep next marked work with
  | case1 marked => cases hu
  | case2 marked v rest hv ih =>
    rcases List.mem_cons.1 hu with rfl | hu
    · apply sweep_mono
      rw [Array.getElem?_setIfInBounds_self_of_lt hsize]
    · apply ih (List.mem_append_right _ hu)
      rwa [Array.size_setIfInBounds]
  | case3 marked v rest hv ih =>
    rcases List.mem_cons.1 hu with rfl | hu
    · apply sweep_mono
      rw [Array.getElem?_eq_getElem hsize] at hv ⊢
      simpa using hv
    · exact ih hu hsize

/-- What the sweep marks, it leaves for all of its successors. -/
theorem sweep_closed (hold : marked[u]? = some false)
    (hu : (sweep next marked work)[u]? = some true) (hv : v ∈ next u) (hsize : v < marked.size) :
    (sweep next marked work)[v]? = some true := by
  fun_induction sweep next marked work with
  | case1 marked =>
    rw [hold] at hu
    cases hu
  | case2 marked w rest hw ih =>
    have hsize' : v < (marked.setIfInBounds w true).size := by rwa [Array.size_setIfInBounds]
    by_cases heq : w = u
    · subst heq
      exact sweep_work (List.mem_append_left _ hv) hsize'
    · refine ih ?_ hu hsize'
      rwa [Array.getElem?_setIfInBounds_ne heq]
  | case3 marked w rest hw ih => exact ih hold hu hsize

/-- A sweep follows every path through unmarked vertices to its end. -/
theorem sweep_of_isChain {path : List Nat} (hpath : (v :: path).IsChain (Step next))
    (hopen : ∀ u ∈ v :: path, marked[u]? = some false)
    (hv : (sweep next marked work)[v]? = some true) :
    ∀ u ∈ v :: path, (sweep next marked work)[u]? = some true := by
  induction path generalizing v with
  | nil =>
    intro u hu
    rwa [List.mem_singleton.1 hu]
  | cons w path ih =>
    obtain ⟨hvw, hrest⟩ := List.isChain_cons_cons.1 hpath
    have hw : w < marked.size := by
      have hget := hopen w (List.mem_cons_of_mem _ List.mem_cons_self)
      exact (Array.getElem?_eq_some_iff.1 hget).1
    have hmarked := sweep_closed (hopen v List.mem_cons_self) hv hvw hw
    intro u hu
    rcases List.mem_cons.1 hu with rfl | hu
    · exact hv
    · exact ih hrest (fun u hu => hopen u (List.mem_cons_of_mem _ hu)) hmarked u hu

end Sweep

/-- A vertex from which the start is reached around the path is one to go on with. -/
theorem returns_of_isChain {path rest : List Nat} {w : Nat}
    (hchain : (w :: (rest ++ [start])).IsChain (Step next)) (hstart : start < size)
    (hrest : ∀ u ∈ w :: rest, u < size ∧ start < u ∧ u ∉ path) :
    returns next size start path w = true := by
  have hopen : ∀ u ∈ w :: (rest ++ [start]),
      (Array.ofFn (n := size) fun i =>
        decide (i.val < start) || (i.val != start && path.contains i.val))[u]? = some false := by
    intro u hu
    rw [← List.cons_append, List.mem_append, List.mem_singleton] at hu
    rcases hu with hu | rfl
    · obtain ⟨hsize, hlt, hno⟩ := hrest u hu
      rw [Array.getElem?_ofFn, dif_pos hsize]
      simp [hno, Nat.le_of_lt hlt]
    · rw [Array.getElem?_ofFn, dif_pos hstart]
      simp
  have hsize := (Array.getElem?_eq_some_iff.1 (hopen w List.mem_cons_self)).1
  unfold returns
  rw [beq_iff_eq]
  exact sweep_of_isChain hchain hopen (sweep_work List.mem_cons_self hsize) start (by simp)

/-! ## The enumeration -/

theorem lt_of_isChain (hnext : ∀ a, ∀ b ∈ next a, b < size) {v : Nat} {l : List Nat}
    (h : (v :: l).IsChain (Step next)) : ∀ u ∈ l, u < size := by
  induction l generalizing v with
  | nil =>
    intro u hu
    cases hu
  | cons w l ih =>
    obtain ⟨hvw, hl⟩ := List.isChain_cons_cons.1 h
    intro u hu
    rcases List.mem_cons.1 hu with rfl | hu
    · exact hnext v u hvw
    · exact ih hl u hu

/-- From the vertex `v` at the end of a path, the vertices `rest` lead back to the start. They are
greater than the start, all different, and not on the path. -/
structure Closes (next : Nat → List Nat) (start v : Nat) (path rest : List Nat) : Prop where
  chain : (v :: (rest ++ [start])).IsChain (Step next)
  nodup : rest.Nodup
  fresh : ∀ w ∈ rest, start < w ∧ w ∉ v :: path

theorem closes_nil_iff {v : Nat} {path : List Nat} :
    Closes next start v path [] ↔ start ∈ next v := by
  constructor
  · intro h
    exact (List.isChain_cons_cons.1 h.chain).1
  · intro h
    refine ⟨List.isChain_cons_cons.2 ⟨h, List.isChain_singleton _⟩, List.nodup_nil, ?_⟩
    intro w hw
    cases hw

theorem closes_cons_iff {v w : Nat} {path rest : List Nat} :
    Closes next start v path (w :: rest) ↔
      w ∈ next v ∧ start < w ∧ w ∉ v :: path ∧ Closes next start w (v :: path) rest := by
  constructor
  · intro h
    obtain ⟨hvw, hchain⟩ := List.isChain_cons_cons.1 h.chain
    obtain ⟨hw, hnodup⟩ := List.nodup_cons.1 h.nodup
    obtain ⟨hlt, hno⟩ := h.fresh w List.mem_cons_self
    refine ⟨hvw, hlt, hno, hchain, hnodup, ?_⟩
    intro u hu
    obtain ⟨hlt, hno⟩ := h.fresh u (List.mem_cons_of_mem _ hu)
    refine ⟨hlt, fun hmem => ?_⟩
    rcases List.mem_cons.1 hmem with rfl | hmem
    · exact hw hu
    · exact hno hmem
  · rintro ⟨hvw, hlt, hno, h⟩
    refine ⟨List.isChain_cons_cons.2 ⟨hvw, h.chain⟩, ?_, ?_⟩
    · refine List.nodup_cons.2 ⟨fun hmem => ?_, h.nodup⟩
      exact (h.fresh w hmem).2 List.mem_cons_self
    · intro u hu
      rcases List.mem_cons.1 hu with rfl | hu
      · exact ⟨hlt, hno⟩
      · obtain ⟨hlt, hno⟩ := h.fresh u hu
        exact ⟨hlt, fun hmem => hno (List.mem_cons_of_mem _ hmem)⟩

/-- A path is not cut off before a vertex from which it can be closed. -/
theorem Closes.returns (hnext : ∀ a, ∀ b ∈ next a, b < size) {v w : Nat} {path rest : List Nat}
    (h : Closes next start v path (w :: rest)) : returns next size start (v :: path) w = true := by
  have hbelow := lt_of_isChain hnext h.chain
  have hchain := (List.isChain_cons_cons.1 h.chain).2
  refine returns_of_isChain hchain (hbelow start (by simp)) ?_
  intro u hu
  obtain ⟨hlt, hno⟩ := h.fresh u hu
  exact ⟨hbelow u (List.mem_append_left _ hu), hlt, hno⟩

theorem mem_extend_succ {fuel v : Nat} {path c : List Nat} :
    c ∈ extend next size start (fuel + 1) (v :: path) ↔
      start ∈ next v ∧ c = (v :: path).reverse ∨
        ∃ w ∈ next v, start < w ∧ w ∉ v :: path ∧ returns next size start (v :: path) w = true ∧
          c ∈ extend next size start fuel (w :: v :: path) := by
  have hgo : ∀ w, (decide (start < w) && !(v :: path).contains w &&
      returns next size start (v :: path) w) = true ↔
        start < w ∧ w ∉ v :: path ∧ returns next size start (v :: path) w = true := by
    intro w
    rw [Bool.and_eq_true, Bool.and_eq_true, decide_eq_true_eq, Bool.not_eq_true',
      ← Bool.not_eq_true, List.contains_iff_mem, and_assoc]
  rw [extend, List.mem_flatMap]
  constructor
  · rintro ⟨w, hw, hc⟩
    split at hc
    · rename_i hclose
      subst hclose
      exact Or.inl ⟨hw, List.mem_singleton.1 hc⟩
    · split at hc
      · rename_i hopen
        obtain ⟨hlt, hno, hreturns⟩ := (hgo w).1 hopen
        exact Or.inr ⟨w, hw, hlt, hno, hreturns, hc⟩
      · cases hc
  · rintro (⟨hstart, rfl⟩ | ⟨w, hw, hlt, hno, hreturns, hc⟩)
    · refine ⟨start, hstart, ?_⟩
      rw [if_pos rfl]
      exact List.mem_singleton_self _
    · refine ⟨w, hw, ?_⟩
      rwa [if_neg (Nat.ne_of_gt hlt), if_pos ((hgo w).2 ⟨hlt, hno, hreturns⟩)]

/-- The cycles that are listed behind a path are those that close it. -/
theorem mem_extend (hnext : ∀ a, ∀ b ∈ next a, b < size) {fuel v : Nat} {path c : List Nat} :
    c ∈ extend next size start fuel (v :: path) ↔
      ∃ rest, c = (v :: path).reverse ++ rest ∧ rest.length < fuel ∧
        Closes next start v path rest := by
  induction fuel generalizing v path with
  | zero =>
    unfold extend
    simp
  | succ fuel ih =>
    rw [mem_extend_succ]
    have hreverse : ∀ w rest,
        (v :: path).reverse ++ w :: rest = (w :: v :: path).reverse ++ rest := by
      simp
    constructor
    · rintro (⟨hstart, rfl⟩ | ⟨w, hw, hlt, hno, _, hc⟩)
      · exact ⟨[], (List.append_nil _).symm, Nat.succ_pos _, closes_nil_iff.2 hstart⟩
      · obtain ⟨rest, rfl, hlength, hcloses⟩ := ih.1 hc
        exact ⟨w :: rest, (hreverse w rest).symm, Nat.succ_lt_succ hlength,
          closes_cons_iff.2 ⟨hw, hlt, hno, hcloses⟩⟩
    · rintro ⟨rest, rfl, hlength, hcloses⟩
      cases rest with
      | nil => exact Or.inl ⟨closes_nil_iff.1 hcloses, List.append_nil _⟩
      | cons w rest =>
        have hreturns := hcloses.returns hnext
        obtain ⟨hw, hlt, hno, hcloses⟩ := closes_cons_iff.1 hcloses
        exact Or.inr ⟨w, hw, hlt, hno, hreturns,
          ih.2 ⟨rest, hreverse w rest, Nat.lt_of_succ_lt_succ hlength, hcloses⟩⟩

/-- The elementary cycles, each from its smallest vertex on, are all that is listed. -/
theorem mem_elementary (hnext : ∀ a, ∀ b ∈ next a, b < size) {c : List Nat} :
    c ∈ elementary next size ↔
      ∃ start rest, c = start :: rest ∧ (start :: (rest ++ [start])).IsChain (Step next) ∧
        rest.Nodup ∧ ∀ w ∈ rest, start < w := by
  unfold elementary
  rw [List.mem_flatMap]
  constructor
  · rintro ⟨start, _, hc⟩
    obtain ⟨rest, rfl, _, hcloses⟩ := (mem_extend hnext).1 hc
    exact ⟨start, rest, rfl, hcloses.chain, hcloses.nodup, fun w hw => (hcloses.fresh w hw).1⟩
  · rintro ⟨start, rest, rfl, hchain, hnodup, hrest⟩
    have hbelow := lt_of_isChain hnext hchain
    have hno : start ∉ rest := fun hmem => Nat.lt_irrefl start (hrest start hmem)
    -- all vertices of the cycle are different, so the fuel lasts
    have hlength : (start :: rest).length ≤ size := by
      have hsub : start :: rest ⊆ List.range size := by
        intro u hu
        refine List.mem_range.2 (hbelow u ?_)
        rcases List.mem_cons.1 hu with rfl | hu
        · simp
        · exact List.mem_append_left _ hu
      have hle := (List.nodup_cons.2 ⟨hno, hnodup⟩).length_le_of_subset hsub
      rwa [List.length_range] at hle
    refine ⟨start, List.mem_range.2 (hbelow start (by simp)), (mem_extend hnext).2 ?_⟩
    refine ⟨rest, rfl, hlength, hchain, hnodup, ?_⟩
    intro w hw
    refine ⟨hrest w hw, ?_⟩
    rw [List.mem_singleton]
    exact Nat.ne_of_gt (hrest w hw)

/-! ## Cycles and closed walks -/

section Walks

variable {α : Type} {r : α → α → Prop} {a b : α} {l : List α}

theorem transGen_of_isChain (h : (a :: (l ++ [b])).IsChain r) : TransGen r a b := by
  induction l generalizing a with
  | nil => exact .single (List.isChain_cons_cons.1 h).1
  | cons c l ih =>
    obtain ⟨hac, hl⟩ := List.isChain_cons_cons.1 h
    exact .head hac (ih hl)

/-- Every vertex of a closed walk lies on a cycle. -/
theorem cycle_of_isChain (h : (a :: (l ++ [a])).IsChain r) : ∀ u ∈ a :: l, TransGen r u u := by
  intro u hu
  rcases List.mem_cons.1 hu with rfl | hu
  · exact transGen_of_isChain h
  · obtain ⟨s, t, rfl⟩ := List.append_of_mem hu
    have hsplit : a :: (s ++ u :: t ++ [a]) = (a :: s) ++ u :: (t ++ [a]) := by simp
    rw [hsplit, List.isChain_split] at h
    exact (transGen_of_isChain h.2).trans (transGen_of_isChain h.1)

open Classical in
/-- A walk need not meet a vertex twice once it has set out. -/
theorem exists_nodup_walk (h : TransGen r a b) :
    ∃ w, (a :: w).IsChain r ∧ w.Nodup ∧ w.getLast? = some b := by
  induction h using TransGen.head_induction_on with
  | single hab =>
    exact ⟨[b], List.isChain_cons_cons.2 ⟨hab, List.isChain_singleton _⟩,
      List.nodup_singleton _, rfl⟩
  | @head a c hac _ ih =>
    obtain ⟨w, hchain, hnodup, hlast⟩ := ih
    by_cases hc : c ∈ w
    · -- the walk comes back to the vertex: what lies between is left out
      obtain ⟨s, t, rfl⟩ := List.append_of_mem hc
      have hchain : (c :: t).IsChain r := hchain.suffix (List.suffix_cons_iff.2
        (Or.inr (List.suffix_append s (c :: t))))
      refine ⟨c :: t, List.isChain_cons_cons.2 ⟨hac, hchain⟩, ?_, ?_⟩
      · exact (List.nodup_append.1 hnodup).2.1
      · rwa [List.getLast?_append_of_ne_nil _ (List.cons_ne_nil c t)] at hlast
    · refine ⟨c :: w, List.isChain_cons_cons.2 ⟨hac, hchain⟩, List.nodup_cons.2 ⟨hc, hnodup⟩, ?_⟩
      rw [List.getLast?_cons, hlast]
      rfl

end Walks

/-- Where there is a cycle, one is listed. -/
theorem exists_mem_elementary (hnext : ∀ a, ∀ b ∈ next a, b < size) {a : Nat}
    (h : TransGen (Step next) a a) : ∃ c, c ∈ elementary next size := by
  classical
  -- a shortest walk from the smallest vertex on a cycle back to it
  have hex : ∃ a, TransGen (Step next) a a := ⟨a, h⟩
  obtain ⟨w, hchain, hnodup, hlast⟩ := exists_nodup_walk (Nat.find_spec hex)
  obtain ⟨l, rfl⟩ := List.getLast?_eq_some_iff.1 hlast
  obtain ⟨hl, _, hdisjoint⟩ := List.nodup_append.1 hnodup
  refine ⟨Nat.find hex :: l, (mem_elementary hnext).2 ⟨_, l, rfl, hchain, hl, ?_⟩⟩
  intro u hu
  have hle := Nat.find_min' hex (cycle_of_isChain hchain u (List.mem_cons_of_mem _ hu))
  have hne := hdisjoint u hu _ (List.mem_singleton.2 rfl)
  omega

/-- All vertices of a listed cycle lie on a cycle. -/
theorem cycle_of_mem_elementary (hnext : ∀ a, ∀ b ∈ next a, b < size) {c : List Nat}
    (hc : c ∈ elementary next size) : c ≠ [] ∧ ∀ u ∈ c, TransGen (Step next) u u := by
  obtain ⟨start, rest, rfl, hchain, _⟩ := (mem_elementary hnext).1 hc
  exact ⟨List.cons_ne_nil _ _, cycle_of_isChain hchain⟩

/-! ## Graphs on names -/

section Names

variable {g : NameGraph} {names : List Text} {a b : Nat}

theorem findIdx?_eq_some_iff_of_nodup (hnodup : names.Nodup) {t : Text} :
    names.findIdx? (· == t) = some b ↔ names[b]? = some t := by
  rw [List.findIdx?_eq_some_iff_getElem, List.getElem?_eq_some_iff]
  constructor
  · rintro ⟨hb, ht, _⟩
    exact ⟨hb, beq_iff_eq.1 ht⟩
  · rintro ⟨hb, rfl⟩
    refine ⟨hb, beq_self_eq_true _, ?_⟩
    intro j hj heq
    exact Nat.ne_of_lt hj ((List.Nodup.getElem_inj_iff hnodup).1 (beq_iff_eq.1 heq))

/-- An edge between places is an edge between the names there. -/
theorem mem_successors (hnodup : names.Nodup) :
    b ∈ (successors g names).getD a [] ↔
      ∃ s t, names[a]? = some s ∧ names[b]? = some t ∧ t ∈ g.targetsOf s := by
  unfold successors
  rw [Array.getD_eq_getD_getElem?, List.getElem?_toArray, List.getElem?_map]
  cases ha : names[a]? with
  | none => simp
  | some s =>
    rw [Option.map_some, Option.getD_some, List.mem_filterMap]
    simp only [findIdx?_eq_some_iff_of_nodup hnodup, mem_nameSet, Option.some.injEq]
    constructor
    · rintro ⟨t, ht, hb⟩
      exact ⟨s, t, rfl, hb, ht⟩
    · rintro ⟨_, t, rfl, hb, ht⟩
      exact ⟨t, ht, hb⟩

theorem successors_lt (hnodup : names.Nodup) :
    ∀ a, ∀ b ∈ (successors g names).getD a [], b < names.length := by
  intro a b hb
  obtain ⟨_, _, _, hb, _⟩ := (mem_successors hnodup).1 hb
  exact (List.getElem?_eq_some_iff.1 hb).1

/-- The name at a place. -/
def nameAt (names : List Text) (a : Nat) : Text :=
  names.toArray.getD a ""

theorem nameAt_of_getElem? {a : Nat} {s : Text} (h : names[a]? = some s) : nameAt names a = s := by
  unfold nameAt
  rw [Array.getD_eq_getD_getElem?, List.getElem?_toArray, h, Option.getD_some]

/-- Every name on a listed cycle lies on a cycle. -/
theorem cycle_of_mem_ofNames {c : List Text} (hc : c ∈ ofNames g) :
    c ≠ [] ∧ ∀ t ∈ c, TransGen (Step g.targetsOf) t t := by
  have hnodup := nodup_nameSet g.names
  obtain ⟨places, hplaces, rfl⟩ := List.mem_map.1 hc
  obtain ⟨hne, hcycle⟩ := cycle_of_mem_elementary (successors_lt hnodup) hplaces
  refine ⟨fun hnil => hne (List.map_eq_nil_iff.1 hnil), ?_⟩
  intro t ht
  obtain ⟨v, hv, rfl⟩ := List.mem_map.1 ht
  refine TransGen.lift (nameAt (nameSet g.names)) ?_ v v (hcycle v hv)
  intro a b hab
  obtain ⟨s, t, hs, ht, hedge⟩ := (mem_successors hnodup).1 hab
  show nameAt (nameSet g.names) b ∈ g.targetsOf (nameAt (nameSet g.names) a)
  rw [nameAt_of_getElem? hs, nameAt_of_getElem? ht]
  exact hedge

/-- A graph all of whose edges are between its own names has a cycle exactly if one is listed. -/
theorem ofNames_eq_nil_iff (hends : ∀ s, ∀ t ∈ g.targetsOf s, s ∈ g.names ∧ t ∈ g.names) :
    ofNames g = [] ↔ Acyclic g.targetsOf := by
  have hnodup := nodup_nameSet g.names
  constructor
  · intro hnil t ht
    -- each name has a place, and an edge between names is one between their places
    have hplaces : TransGen (Step fun v => (successors g (nameSet g.names)).getD v [])
        ((nameSet g.names).idxOf t) ((nameSet g.names).idxOf t) := by
      refine TransGen.lift (nameSet g.names).idxOf ?_ t t ht
      intro a b hab
      obtain ⟨ha, hb⟩ := hends a b hab
      exact (mem_successors hnodup).2 ⟨a, b, List.getElem?_idxOf (mem_nameSet.2 ha),
        List.getElem?_idxOf (mem_nameSet.2 hb), hab⟩
    obtain ⟨c, hc⟩ := exists_mem_elementary (successors_lt hnodup) hplaces
    unfold ofNames at hnil
    rw [List.map_eq_nil_iff] at hnil
    rw [hnil] at hc
    cases hc
  · intro hacyclic
    rw [List.eq_nil_iff_forall_not_mem]
    intro c hc
    obtain ⟨hne, hcycle⟩ := cycle_of_mem_ofNames hc
    obtain ⟨t, ht⟩ := List.exists_mem_of_ne_nil c hne
    exact hacyclic t (hcycle t ht)

end Names

end Lineage.Cycles

/-! ## References -/

namespace Lineage.Model

variable {m : Model} {r : Relation}

/-- The steps in the graph of a relation are the declared edges. -/
theorem step_references : Step (m.references r).targetsOf = DeclaredEdge m.declarations r := by
  funext a b
  exact propext mem_targetsOf_references

theorem ends_mem_references :
    ∀ s, ∀ t ∈ (m.references r).targetsOf s,
      s ∈ (m.references r).names ∧ t ∈ (m.references r).names :=
  fun _ _ ht => mentioned_of_edge (mem_targetsOf_references.1 ht)

end Lineage.Model
