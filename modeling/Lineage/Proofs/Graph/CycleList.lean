import Mathlib.Data.List.Lex
import Lineage.Proofs.Graph.Cycles
import Lineage.Proofs.Graph.Rotation

/-!
# The list of elementary cycles

Every elementary cycle of a graph on names is listed once, in the form that starts with its smallest
name, and nothing else is listed (`mem_ofNames_iff`). The list ascends in lexicographic order
(`pairwise_ofNames`). So the list is determined by the edges alone.
-/

namespace Lineage.Cycles

variable {next : Nat → List Nat} {size start : Nat}

/-! ## Cycles of places -/

theorem mem_elementary_iff (hnext : ∀ a, ∀ b ∈ next a, b < size) {c : List Nat} :
    c ∈ elementary next size ↔ ElementaryCycle (Step next) c ∧ StartsLeast c := by
  rw [mem_elementary hnext]
  constructor
  · rintro ⟨start, rest, rfl, hchain, hnodup, hrest⟩
    have hstart : start ∉ rest := fun hmem => Nat.lt_irrefl start (hrest start hmem)
    refine ⟨elementaryCycle_cons_iff.2 ⟨hchain, List.nodup_cons.2 ⟨hstart, hnodup⟩⟩, ?_⟩
    rw [startsLeast_cons_iff]
    intro b hb
    rcases List.mem_cons.1 hb with rfl | hb
    · exact Nat.le_refl _
    · exact Nat.le_of_lt (hrest b hb)
  · rintro ⟨hcycle, hleast⟩
    cases c with
    | nil => exact absurd rfl hcycle.ne_nil
    | cons start rest =>
      obtain ⟨hchain, hnodup⟩ := elementaryCycle_cons_iff.1 hcycle
      obtain ⟨hstart, hrest⟩ := List.nodup_cons.1 hnodup
      refine ⟨start, rest, rfl, hchain, hrest, ?_⟩
      intro w hw
      have hle : start ≤ w := startsLeast_cons_iff.1 hleast w (List.mem_cons_of_mem _ hw)
      refine Nat.lt_of_le_of_ne hle ?_
      rintro rfl
      exact hstart hw

/-! ## The order of the list -/

/-- What is listed behind a path starts with the path. -/
theorem prefix_of_mem_extend {fuel v : Nat} {path c : List Nat}
    (h : c ∈ extend next size start fuel (v :: path)) : (v :: path).reverse <+: c := by
  induction fuel generalizing v path with
  | zero => cases h
  | succ fuel ih =>
    rcases mem_extend_succ.1 h with ⟨_, rfl⟩ | ⟨w, _, _, _, _, hc⟩
    · exact List.prefix_refl _
    · refine List.IsPrefix.trans ?_ (ih hc)
      rw [List.reverse_cons (a := w)]
      exact List.prefix_append _ _

theorem append_cons_lt_append_cons {a b : Nat} (p s t : List Nat) (h : a < b) :
    p ++ a :: s < p ++ b :: t := by
  induction p with
  | nil => exact List.cons_lt_cons_iff.2 (Or.inl h)
  | cons x p ih => exact List.cons_lt_cons_iff.2 (Or.inr ⟨rfl, ih⟩)

theorem lt_append_cons (p t : List Nat) (b : Nat) : p < p ++ b :: t := by
  induction p with
  | nil => exact List.nil_lt_cons b t
  | cons x p ih => exact List.cons_lt_cons_iff.2 (Or.inr ⟨rfl, ih⟩)

/-- What is listed for one successor of the end of a path: the path itself, if it closes there, or
paths that go on through the successor. -/
theorem cases_of_mem_branch {fuel v w : Nat} {path c : List Nat}
    (hc : c ∈ if w = start then [(v :: path).reverse]
      else if start < w && !(v :: path).contains w && returns next size start (v :: path) w then
        extend next size start fuel (w :: v :: path)
      else []) :
    w = start ∧ c = (v :: path).reverse ∨ start < w ∧ ∃ t, c = (v :: path).reverse ++ w :: t := by
  split at hc
  · rename_i hclose
    exact Or.inl ⟨hclose, List.mem_singleton.1 hc⟩
  · split at hc
    · rename_i hopen
      obtain ⟨t, rfl⟩ := prefix_of_mem_extend hc
      rw [Bool.and_eq_true, Bool.and_eq_true, decide_eq_true_eq] at hopen
      refine Or.inr ⟨hopen.1.1, t, ?_⟩
      rw [List.reverse_cons (a := w), List.append_assoc]
      rfl
    · cases hc

/-- The cycles that are listed behind a path, one successor of its end after the other: first the
path itself, if it closes at once, then what goes on through greater and greater vertices. -/
theorem pairwise_extend (hsorted : ∀ a, (next a).Pairwise (· < ·)) (fuel v : Nat)
    (path : List Nat) : (extend next size start fuel (v :: path)).Pairwise (· < ·) := by
  induction fuel generalizing v path with
  | zero =>
    rw [extend]
    exact List.Pairwise.nil
  | succ fuel ih =>
    rw [extend, List.pairwise_flatMap]
    constructor
    · intro w _
      split
      · exact List.pairwise_singleton _ _
      · split
        · exact ih w (v :: path)
        · exact List.Pairwise.nil
    · refine (hsorted v).imp ?_
      intro w w' hlt c hc c' hc'
      rcases cases_of_mem_branch hc with ⟨hw, rfl⟩ | ⟨hw, t, rfl⟩
      · rcases cases_of_mem_branch hc' with ⟨hw', _⟩ | ⟨_, t', rfl⟩
        · omega
        · exact lt_append_cons _ t' w'
      · rcases cases_of_mem_branch hc' with ⟨hw', _⟩ | ⟨_, t', rfl⟩
        · omega
        · exact append_cons_lt_append_cons _ t t' hlt

theorem pairwise_elementary (hsorted : ∀ a, (next a).Pairwise (· < ·)) :
    (elementary next size).Pairwise (· < ·) := by
  unfold elementary
  rw [List.pairwise_flatMap]
  refine ⟨fun start _ => pairwise_extend hsorted size start [], ?_⟩
  refine List.pairwise_lt_range.imp ?_
  intro a b hab c hc d hd
  obtain ⟨s, rfl⟩ := prefix_of_mem_extend hc
  obtain ⟨t, rfl⟩ := prefix_of_mem_extend hd
  exact append_cons_lt_append_cons [] s t hab

/-! ## Cycles of names -/

section Names

variable {g : NameGraph} {names : List Text} {a b : Nat}

theorem nameAt_eq (ha : a < names.length) : nameAt names a = names[a] :=
  nameAt_of_getElem? (List.getElem?_eq_getElem ha)

theorem nameAt_lt (hnames : names.Pairwise (· < ·)) (hb : b < names.length) (hab : a < b) :
    nameAt names a < nameAt names b := by
  rw [nameAt_eq hb, nameAt_eq (Nat.lt_trans hab hb)]
  exact List.pairwise_iff_getElem.1 hnames a b _ _ hab

theorem lt_of_nameAt_lt (hnames : names.Pairwise (· < ·)) (ha : a < names.length)
    (h : nameAt names a < nameAt names b) : a < b := by
  rcases Nat.lt_trichotomy a b with hab | rfl | hba
  · exact hab
  · exact absurd h (lt_irrefl _)
  · exact absurd (nameAt_lt hnames ha hba) (lt_asymm h)

theorem nameAt_injective (hnames : names.Pairwise (· < ·)) (ha : a < names.length)
    (hb : b < names.length) (h : nameAt names a = nameAt names b) : a = b := by
  rcases Nat.lt_trichotomy a b with hab | hab | hba
  · exact absurd h (ne_of_lt (nameAt_lt hnames hb hab))
  · exact hab
  · exact absurd h.symm (ne_of_lt (nameAt_lt hnames ha hba))

theorem nameAt_idxOf {t : Text} (ht : t ∈ names) : nameAt names (names.idxOf t) = t := by
  rw [nameAt_eq (List.idxOf_lt_length_of_mem ht), List.getElem_idxOf]

/-- An edge between places is an edge between the names there. -/
theorem step_successors_iff (hnames : names.Pairwise (· < ·)) (ha : a < names.length)
    (hb : b < names.length) :
    Step (fun v => (successors g names).getD v []) a b ↔
      Step g.targetsOf (nameAt names a) (nameAt names b) := by
  have hnodup : names.Nodup := hnames.imp fun h => ne_of_lt h
  unfold Step
  rw [mem_successors hnodup, nameAt_eq ha, nameAt_eq hb, List.getElem?_eq_getElem ha,
    List.getElem?_eq_getElem hb]
  simp

theorem pairwise_successors (hnames : names.Pairwise (· < ·)) (a : Nat) :
    ((successors g names).getD a []).Pairwise (· < ·) := by
  have hnodup : names.Nodup := hnames.imp fun h => ne_of_lt h
  unfold successors
  rw [Array.getD_eq_getD_getElem?, List.getElem?_toArray, List.getElem?_map]
  cases names[a]? with
  | none => exact List.Pairwise.nil
  | some s =>
    rw [Option.map_some, Option.getD_some]
    refine (pairwise_nameSet (g.targetsOf s)).filterMap _ ?_
    intro t t' hlt i hi j hj
    obtain ⟨hilt, rfl⟩ := List.getElem?_eq_some_iff.1 ((findIdx?_eq_some_iff_of_nodup hnodup).1 hi)
    obtain ⟨hjlt, rfl⟩ := List.getElem?_eq_some_iff.1 ((findIdx?_eq_some_iff_of_nodup hnodup).1 hj)
    refine lt_of_nameAt_lt hnames hilt ?_
    rw [nameAt_eq hilt, nameAt_eq hjlt]
    exact hlt

/-- A strictly increasing renaming keeps the lexicographic order. -/
theorem map_lt_map {α β : Type} [LinearOrder α] [LinearOrder β] {f : α → β} {l l' : List α}
    (hf : ∀ x ∈ l, ∀ y ∈ l', x < y → f x < f y) (h : l < l') : l.map f < l'.map f := by
  induction l generalizing l' with
  | nil =>
    cases l' with
    | nil => exact absurd h (lt_irrefl _)
    | cons y l' => exact List.nil_lt_cons _ _
  | cons x l ih =>
    cases l' with
    | nil => exact absurd h (List.not_lt_nil _)
    | cons y l' =>
      rw [List.map_cons, List.map_cons, List.cons_lt_cons_iff]
      rcases List.cons_lt_cons_iff.1 h with hxy | ⟨rfl, hrest⟩
      · exact Or.inl (hf x List.mem_cons_self y List.mem_cons_self hxy)
      · refine Or.inr ⟨rfl, ih ?_ hrest⟩
        exact fun u hu v hv => hf u (List.mem_cons_of_mem _ hu) v (List.mem_cons_of_mem _ hv)

theorem ofNames_eq (g : NameGraph) :
    ofNames g =
      (elementary (fun v => (successors g (nameSet g.names)).getD v [])
        (nameSet g.names).length).map fun c => c.map (nameAt (nameSet g.names)) :=
  rfl

theorem lt_of_mem_elementary (hnext : ∀ a, ∀ b ∈ next a, b < size) {c : List Nat}
    (hc : c ∈ elementary next size) : ∀ a ∈ c, a < size := by
  obtain ⟨hcycle, _⟩ := (mem_elementary_iff hnext).1 hc
  cases c with
  | nil => exact absurd rfl hcycle.ne_nil
  | cons start rest =>
    have hbelow := lt_of_isChain hnext (elementaryCycle_cons_iff.1 hcycle).1
    intro a ha
    refine hbelow a ?_
    rcases List.mem_cons.1 ha with rfl | ha
    · exact List.mem_append_right _ (List.mem_singleton_self _)
    · exact List.mem_append_left _ ha

/-- The cycles are listed in ascending order, none of them twice. -/
theorem pairwise_ofNames (g : NameGraph) : (ofNames g).Pairwise (· < ·) := by
  have hnames := pairwise_nameSet g.names
  have hnext := successors_lt (g := g) (nodup_nameSet g.names)
  rw [ofNames_eq, List.pairwise_map]
  refine (pairwise_elementary (pairwise_successors hnames)).imp_of_mem ?_
  intro c c' _ hc' hlt
  refine map_lt_map ?_ hlt
  intro a _ b hb hab
  exact nameAt_lt hnames (lt_of_mem_elementary hnext hc' b hb) hab

theorem startsLeast_map_iff (hnames : names.Pairwise (· < ·)) {c : List Nat}
    (hc : ∀ a ∈ c, a < names.length) : StartsLeast (c.map (nameAt names)) ↔ StartsLeast c := by
  cases c with
  | nil => simp [StartsLeast]
  | cons a c =>
    have hle : ∀ b ∈ a :: c, nameAt names a ≤ nameAt names b ↔ a ≤ b := by
      intro b hb
      rw [← not_lt, ← not_lt]
      refine not_congr ⟨lt_of_nameAt_lt hnames (hc b hb), ?_⟩
      exact nameAt_lt hnames (hc a List.mem_cons_self)
    rw [List.map_cons, startsLeast_cons_iff, startsLeast_cons_iff, ← List.map_cons,
      List.forall_mem_map]
    exact forall₂_congr hle

theorem elementaryCycle_map_nameAt_iff (hnames : names.Pairwise (· < ·)) {c : List Nat}
    (hc : ∀ a ∈ c, a < names.length) :
    ElementaryCycle (Step g.targetsOf) (c.map (nameAt names)) ↔
      ElementaryCycle (Step fun v => (successors g names).getD v []) c := by
  refine elementaryCycle_map_iff ?_ ?_
  · exact fun a ha b hb => nameAt_injective hnames (hc a ha) (hc b hb)
  · exact fun a ha b hb => step_successors_iff hnames (hc a ha) (hc b hb)

/-- All elementary cycles are listed, from their smallest names on, and nothing else. -/
theorem mem_ofNames_iff (hends : ∀ s, ∀ t ∈ g.targetsOf s, s ∈ g.names ∧ t ∈ g.names)
    {c : List Text} :
    c ∈ ofNames g ↔ ElementaryCycle (Step g.targetsOf) c ∧ StartsLeast c := by
  have hnames := pairwise_nameSet g.names
  have hnext := successors_lt (g := g) (nodup_nameSet g.names)
  rw [ofNames_eq, List.mem_map]
  constructor
  · rintro ⟨places, hplaces, rfl⟩
    have hbelow := lt_of_mem_elementary hnext hplaces
    obtain ⟨hcycle, hleast⟩ := (mem_elementary_iff hnext).1 hplaces
    exact ⟨(elementaryCycle_map_nameAt_iff hnames hbelow).2 hcycle,
      (startsLeast_map_iff hnames hbelow).2 hleast⟩
  · rintro ⟨hcycle, hleast⟩
    -- every name of a cycle has an edge, so it has a place
    have hmem : ∀ t ∈ c, t ∈ nameSet g.names := by
      intro t ht
      obtain ⟨u, hu⟩ := hcycle.exists_edge ht
      exact mem_nameSet.2 (hends t u hu).1
    have hback : (c.map (nameSet g.names).idxOf).map (nameAt (nameSet g.names)) = c := by
      rw [List.map_map]
      exact (List.map_congr_left fun t ht => nameAt_idxOf (hmem t ht)).trans (List.map_id c)
    have hbelow : ∀ a ∈ c.map (nameSet g.names).idxOf, a < (nameSet g.names).length := by
      rw [List.forall_mem_map]
      exact fun t ht => List.idxOf_lt_length_of_mem (hmem t ht)
    refine ⟨_, (mem_elementary_iff hnext).2 ⟨?_, ?_⟩, hback⟩
    · rw [← elementaryCycle_map_nameAt_iff hnames hbelow, hback]
      exact hcycle
    · rw [← startsLeast_map_iff hnames hbelow, hback]
      exact hleast

end Names

end Lineage.Cycles
