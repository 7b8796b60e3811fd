import Lineage.Graph.Order
import Lineage.Proofs.Graph.View
import Lineage.Proofs.Text.Order
import Mathlib.Data.List.Perm.Basic
import Mathlib.Data.List.Range

/-!
# The dependency order as a walk

The walk keeps the entered nodes on an explicit stack. `Walks` is the same walk as a recursion: it
looks at the vertices that wait one after the other and enters those that it has not visited. This
is tied to the stack by `run_eq_walks`, and from then on all is shown of the recursion:

* the order lists each node of the registry once (`sort_range_perm`);
* repeats among what waits or among the dependencies have no effect (`Walks.congr`), and a
  renaming renames the order along (`Walks.map`);
* hence two registries that agree by name up to repeated parents are put into the same order
  (`names_sort_eq`).
-/

namespace Lineage.Order

variable {α β : Type} {next : α → List α}

/-- The walk as a recursion: with some vertices `visited`, those that wait are looked at in order.
This leaves more vertices visited and emits vertices, the last one last. -/
inductive Walks (next : α → List α) : List α → List α → List α → List α → Prop where
  | done {visited : List α} : Walks next visited [] visited []
  /-- The vertex has been visited. -/
  | skip {visited work after out : List α} {a : α} (h : a ∈ visited)
      (rest : Walks next visited work after out) : Walks next visited (a :: work) after out
  /-- The vertex is entered: it is emitted behind what it leads to. -/
  | enter {visited work between after below out : List α} {a : α} (h : a ∉ visited)
      (above : Walks next (a :: visited) (next a) between below)
      (rest : Walks next between work after out) :
      Walks next visited (a :: work) after (below ++ a :: out)

namespace Walks

variable {visited work after out : List α}

theorem unique (h : Walks next visited work after out) {after' out' : List α}
    (h' : Walks next visited work after' out') : after = after' ∧ out = out' := by
  induction h generalizing after' out' with
  | done =>
    cases h'
    exact ⟨rfl, rfl⟩
  | skip ha _ ih =>
    cases h' with
    | skip _ rest' => exact ih rest'
    | enter hnew _ _ => exact absurd ha hnew
  | enter hnew _ _ ihAbove ihRest =>
    cases h' with
    | skip ha _ => exact absurd ha hnew
    | enter _ above' rest' =>
      obtain ⟨rfl, rfl⟩ := ihAbove above'
      obtain ⟨rfl, rfl⟩ := ihRest rest'
      exact ⟨rfl, rfl⟩

/-! ## What is visited and what is emitted -/

/-- What is visited in the end had been visited before or has been emitted. -/
theorem mem_after_iff (h : Walks next visited work after out) (b : α) :
    b ∈ after ↔ b ∈ visited ∨ b ∈ out := by
  induction h with
  | done => simp
  | skip _ _ ih => exact ih
  | enter _ _ _ ihAbove ihRest =>
    rw [ihRest, ihAbove, List.mem_append, List.mem_cons, List.mem_cons]
    tauto

theorem mem_after_of_visited (h : Walks next visited work after out) {b : α} (hb : b ∈ visited) :
    b ∈ after :=
  (h.mem_after_iff b).2 (Or.inl hb)

theorem mem_after_of_work (h : Walks next visited work after out) {b : α} (hb : b ∈ work) :
    b ∈ after := by
  induction h with
  | done => cases hb
  | skip ha rest ih =>
    rcases List.mem_cons.1 hb with rfl | hb
    · exact rest.mem_after_of_visited ha
    · exact ih hb
  | enter _ above rest _ ihRest =>
    rcases List.mem_cons.1 hb with rfl | hb
    · exact rest.mem_after_of_visited (above.mem_after_of_visited List.mem_cons_self)
    · exact ihRest hb

/-- Nothing is emitted that was visited before, and nothing twice. -/
theorem nodup_out (h : Walks next visited work after out) :
    out.Nodup ∧ ∀ b ∈ out, b ∉ visited := by
  induction h with
  | done => exact ⟨List.nodup_nil, fun b hb => absurd hb List.not_mem_nil⟩
  | skip _ _ ih => exact ih
  | @enter visited work between after below out a hnew above _ ihAbove ihRest =>
    obtain ⟨hbelow, hbelowNew⟩ := ihAbove
    obtain ⟨hout, houtNew⟩ := ihRest
    have hbetween := above.mem_after_iff
    refine ⟨?_, ?_⟩
    · rw [List.nodup_append, List.nodup_cons]
      -- what is emitted below the node is visited when the rest begins
      refine ⟨hbelow, ⟨?_, hout⟩, ?_⟩
      · intro ha
        exact houtNew a ha ((hbetween a).2 (Or.inl List.mem_cons_self))
      · intro b hb c hc hbc
        rw [← hbc] at hc
        rcases List.mem_cons.1 hc with rfl | hc
        · exact hbelowNew b hb List.mem_cons_self
        · exact houtNew b hc ((hbetween b).2 (Or.inr hb))
    · intro b hb hvisited
      rcases List.mem_append.1 hb with hb | hb
      · exact hbelowNew b hb (List.mem_cons_of_mem a hvisited)
      · rcases List.mem_cons.1 hb with rfl | hb
        · exact hnew hvisited
        · exact houtNew b hb ((hbetween b).2 (Or.inl (List.mem_cons_of_mem a hvisited)))

/-- Only vertices are emitted that wait or can be reached from those. -/
theorem closed (h : Walks next visited work after out) {S : α → Prop}
    (hclosed : ∀ a, S a → ∀ q ∈ next a, S q) (hwork : ∀ a ∈ work, S a) : ∀ b ∈ out, S b := by
  induction h with
  | done => exact fun b hb => absurd hb List.not_mem_nil
  | skip _ _ ih => exact ih fun a ha => hwork a (List.mem_cons_of_mem _ ha)
  | enter _ _ _ ihAbove ihRest =>
    have ha := hwork _ List.mem_cons_self
    intro b hb
    rcases List.mem_append.1 hb with hb | hb
    · exact ihAbove (hclosed _ ha) b hb
    · rcases List.mem_cons.1 hb with rfl | hb
      · exact ha
      · exact ihRest (fun a ha => hwork a (List.mem_cons_of_mem _ ha)) b hb

/-! ## Repeats -/

/-- What has been visited may be left out. -/
theorem filter_iff {p : α → Bool} (hp : ∀ a ∈ work, p a = false → a ∈ visited) :
    Walks next visited (work.filter p) after out ↔ Walks next visited work after out := by
  induction work generalizing visited out with
  | nil => rfl
  | cons a work ih =>
    have hrest : ∀ b ∈ work, p b = false → b ∈ visited :=
      fun b hb => hp b (List.mem_cons_of_mem a hb)
    cases ha : p a with
    | false =>
      rw [List.filter_cons_of_neg (by simp [ha]), ih hrest]
      have hvisited := hp a List.mem_cons_self ha
      constructor
      · exact .skip hvisited
      · intro h
        cases h with
        | skip _ rest => exact rest
        | enter hnew _ _ => exact absurd hvisited hnew
    | true =>
      rw [List.filter_cons_of_pos ha]
      constructor
      · intro h
        cases h with
        | skip h rest => exact .skip h ((ih hrest).1 rest)
        | enter h above rest =>
          refine .enter h above ((ih fun b hb hpb => ?_).1 rest)
          exact above.mem_after_of_visited (List.mem_cons_of_mem a (hrest b hb hpb))
      · intro h
        cases h with
        | skip h rest => exact .skip h ((ih hrest).2 rest)
        | enter h above rest =>
          refine .enter h above ((ih fun b hb hpb => ?_).2 rest)
          exact above.mem_after_of_visited (List.mem_cons_of_mem a (hrest b hb hpb))

/-- Behind a vertex it matters only what is done once that vertex has been visited. -/
theorem cons_of_imp {a : α} {m : List α}
    (h : ∀ visited out, a ∈ visited → Walks next visited work after out →
      Walks next visited m after out)
    (hw : Walks next visited (a :: work) after out) : Walks next visited (a :: m) after out := by
  cases hw with
  | skip ha rest => exact .skip ha (h _ _ ha rest)
  | enter hnew above rest =>
    exact .enter hnew above (h _ _ (above.mem_after_of_visited List.mem_cons_self) rest)

theorem eraseDups_iff [BEq α] [LawfulBEq α] :
    Walks next visited work.eraseDups after out ↔ Walks next visited work after out := by
  induction work using withoutCopies_induction generalizing visited out with
  | nil => rfl
  | cons a work ih =>
    -- the copies of the head have been visited when they come up
    have hcopies : ∀ {visited : List α}, a ∈ visited →
        ∀ b ∈ work, (!b == a) = false → b ∈ visited := by
      intro visited ha b _ hb
      have hba : b = a := by simpa using hb
      rw [hba]
      exact ha
    rw [List.eraseDups_cons]
    constructor
    · exact cons_of_imp fun visited out ha h => (filter_iff (hcopies ha)).1 (ih.1 h)
    · exact cons_of_imp fun visited out ha h => ih.2 ((filter_iff (hcopies ha)).2 h)

theorem congr [BEq α] [LawfulBEq α] {work' : List α} (hsame : SameFirsts work work')
    (h : Walks next visited work after out) : Walks next visited work' after out := by
  rw [← eraseDups_iff] at h ⊢
  rw [← hsame]
  exact h

/-! ## Renamed graphs -/

theorem map [BEq β] [LawfulBEq β] {next' : β → List β} {f : α → β} {S : α → Prop}
    (hren : Renaming next next' f S) (hvisited : ∀ a ∈ visited, S a) (hwork : ∀ a ∈ work, S a)
    (h : Walks next visited work after out) :
    Walks next' (visited.map f) (work.map f) (after.map f) (out.map f) := by
  induction h with
  | done => exact .done
  | skip ha _ ih =>
    exact .skip (List.mem_map_of_mem ha)
      (ih hvisited fun b hb => hwork b (List.mem_cons_of_mem _ hb))
  | @enter visited work between after below out a hnew above _ ihAbove ihRest =>
    have ha := hwork a List.mem_cons_self
    have hvisited' : ∀ b ∈ a :: visited, S b := by
      intro b hb
      rcases List.mem_cons.1 hb with rfl | hb
      · exact ha
      · exact hvisited b hb
    have hbetween : ∀ b ∈ between, S b := by
      intro b hb
      rcases (above.mem_after_iff b).1 hb with hb | hb
      · exact hvisited' b hb
      · exact above.closed hren.closed (hren.closed a ha) b hb
    have hfnew : f a ∉ visited.map f := by
      intro hmem
      obtain ⟨b, hb, hba⟩ := List.mem_map.1 hmem
      rw [hren.injective b a (hvisited b hb) ha hba] at hb
      exact hnew hb
    have habove := ihAbove hvisited' (hren.closed a ha)
    rw [List.map_append, List.map_cons]
    exact .enter hfnew (habove.congr (hren.successors a ha).symm)
      (ihRest hbetween fun b hb => hwork b (List.mem_cons_of_mem a hb))

end Walks

/-! ## The stack and the recursion -/

section Stack

theorem unvisited_le (ns : Nodes) {visited after : List Nat} (h : ∀ i ∈ visited, i ∈ after)
    (stack stack' : List (Nat × List Nat)) (emitted emitted' : List Nat) :
    unvisited ns ⟨after, stack, emitted⟩ ≤ unvisited ns ⟨visited, stack', emitted'⟩ := by
  apply List.countP_mono_left
  intro i _ hi
  simp only [Bool.not_eq_true', List.contains_eq_mem, decide_eq_false_iff_not] at hi ⊢
  exact fun hmem => hi (h i hmem)

/-- Entering a vertex leaves one unvisited, or there is nothing to look at from it. -/
theorem unvisited_enter (ns : Nodes) {visited : List Nat} {d : Nat} (hnew : d ∉ visited) :
    unvisited ns ⟨d :: visited, [], []⟩ < unvisited ns ⟨visited, [], []⟩ ∨
      ns.dependencies d = [] := by
  rcases Nat.lt_or_ge d ns.size with hd | hd
  · exact Or.inl (countP_not_contains_cons_lt (List.mem_range.2 hd) hnew)
  · exact Or.inr (Nodes.dependencies_of_size_le hd)

section Turns

variable {visited ds emitted : List Nat} {rest : List (Nat × List Nat)} {i d : Nat}

theorem run_emits (ns : Nodes) :
    run ns ⟨visited, (i, []) :: rest, emitted⟩ = run ns ⟨visited, rest, i :: emitted⟩ := by
  rw [run]
  rfl

theorem run_skips (ns : Nodes) (hd : d ∈ visited) :
    run ns ⟨visited, (i, d :: ds) :: rest, emitted⟩ =
      run ns ⟨visited, (i, ds) :: rest, emitted⟩ := by
  have hturn : turn ns ⟨visited, (i, d :: ds) :: rest, emitted⟩ (i, d :: ds) rest =
      ⟨visited, (i, ds) :: rest, emitted⟩ := by
    unfold turn
    simp [hd]
  rw [run]
  simp only
  rw [hturn]

theorem run_enters (ns : Nodes) (hd : d ∉ visited) :
    run ns ⟨visited, (i, d :: ds) :: rest, emitted⟩ =
      run ns ⟨d :: visited, (d, ns.dependencies d) :: (i, ds) :: rest, emitted⟩ := by
  have hturn : turn ns ⟨visited, (i, d :: ds) :: rest, emitted⟩ (i, d :: ds) rest =
      ⟨d :: visited, (d, ns.dependencies d) :: (i, ds) :: rest, emitted⟩ := by
    unfold turn
    simp [hd, Walk.enter]
  rw [run]
  simp only
  rw [hturn]

end Turns

/-- The walk with an entered node on top of its stack looks at what the node has still to look at;
then it emits the node and goes on below. -/
theorem run_eq_walks (ns : Nodes) (visited work : List Nat) (i : Nat)
    (rest : List (Nat × List Nat)) (emitted : List Nat) :
    ∃ after out, Walks ns.dependencies visited work after out ∧
      run ns ⟨visited, (i, work) :: rest, emitted⟩ =
        run ns ⟨after, rest, i :: (out.reverse ++ emitted)⟩ := by
  match work with
  | [] => exact ⟨visited, [], .done, run_emits ns⟩
  | d :: ds =>
    by_cases hd : d ∈ visited
    · obtain ⟨after, out, hwalks, hrun⟩ := run_eq_walks ns visited ds i rest emitted
      exact ⟨after, out, .skip hd hwalks, (run_skips ns hd).trans hrun⟩
    · have hdec := unvisited_enter ns hd
      have hgrown : unvisited ns ⟨d :: visited, [], []⟩ ≤ unvisited ns ⟨visited, [], []⟩ :=
        unvisited_le ns (fun j hj => List.mem_cons_of_mem d hj) _ _ _ _
      obtain ⟨between, below, habove, hrun⟩ := run_eq_walks ns (d :: visited) (ns.dependencies d) d
        ((i, ds) :: rest) emitted
      have hle : unvisited ns ⟨between, [], []⟩ ≤ unvisited ns ⟨visited, [], []⟩ :=
        unvisited_le ns (fun j hj => habove.mem_after_of_visited (List.mem_cons_of_mem d hj))
          _ _ _ _
      obtain ⟨after, out, hwalks, hrun'⟩ := run_eq_walks ns between ds i rest
        (d :: (below.reverse ++ emitted))
      refine ⟨after, below ++ d :: out, .enter hd habove hwalks, ?_⟩
      rw [run_enters ns hd, hrun, hrun']
      simp
termination_by (unvisited ns ⟨visited, [], []⟩, work.length)
decreasing_by
  · exact Prod.Lex.right _ (Nat.lt_succ_self _)
  · rcases hdec with hlt | hnil
    · exact Prod.Lex.left _ _ hlt
    · -- beyond the registry nothing is left to look at
      rw [hnil]
      exact Prod.Lex.right' _ hgrown (Nat.succ_pos _)
  · exact Prod.Lex.right' _ hle (Nat.lt_succ_self _)

theorem foldl_walkFrom (ns : Nodes) (visited work emitted : List Nat) :
    ∃ after out, Walks ns.dependencies visited work after out ∧
      work.foldl (walkFrom ns) ⟨visited, [], emitted⟩ = ⟨after, [], out.reverse ++ emitted⟩ := by
  -- each walk ends with the stack empty, so the next one starts afresh
  induction work generalizing visited emitted with
  | nil => exact ⟨visited, [], .done, rfl⟩
  | cons i work ih =>
    rw [List.foldl_cons]
    unfold walkFrom
    by_cases hi : i ∈ visited
    · obtain ⟨after, out, hwalks, hfold⟩ := ih visited emitted
      refine ⟨after, out, .skip hi hwalks, ?_⟩
      rw [if_pos (List.contains_iff_mem.2 hi)]
      exact hfold
    · obtain ⟨between, below, habove, hrun⟩ :=
        run_eq_walks ns (i :: visited) (ns.dependencies i) i [] emitted
      obtain ⟨after, out, hwalks, hfold⟩ := ih between (i :: (below.reverse ++ emitted))
      refine ⟨after, below ++ i :: out, .enter hi habove hwalks, ?_⟩
      have hempty : run ns ⟨between, [], i :: (below.reverse ++ emitted)⟩ =
          ⟨between, [], i :: (below.reverse ++ emitted)⟩ := by
        rw [run]
      rw [if_neg (fun h => hi (List.contains_iff_mem.1 h))]
      unfold Walk.enter
      rw [hrun, hempty]
      refine hfold.trans ?_
      simp

/-- The order is what the walk through the nodes emits when these wait in the order of their
names. -/
theorem sort_spec (ns : Nodes) (is : List Nat) :
    ∃ after, Walks ns.dependencies [] (byName ns is) after (sort ns is) := by
  obtain ⟨after, out, hwalks, hfold⟩ := foldl_walkFrom ns [] (byName ns is) []
  refine ⟨after, ?_⟩
  unfold sort
  rw [hfold, List.append_nil, List.reverse_reverse]
  exact hwalks

end Stack

/-! ## The order of a registry -/

section Registry

variable {ns ns' : Nodes}

theorem byName_perm (ns : Nodes) (is : List Nat) : (byName ns is).Perm is :=
  List.mergeSort_perm is _

/-- The order of a well-formed registry lists each of its nodes once. -/
theorem sort_range_perm (wf : ns.WellFormed) :
    (sort ns (List.range ns.size)).Perm (List.range ns.size) := by
  obtain ⟨after, hwalks⟩ := sort_spec ns (List.range ns.size)
  have hwork : ∀ i, i ∈ byName ns (List.range ns.size) ↔ i < ns.size := by
    intro i
    rw [(byName_perm ns _).mem_iff, List.mem_range]
  refine (List.perm_ext_iff_of_nodup hwalks.nodup_out.1 List.nodup_range).2 ?_
  intro i
  rw [List.mem_range]
  constructor
  · exact hwalks.closed (fun j _ => wf.closed j) (fun j hj => (hwork j).1 hj) i
  · intro hi
    have hafter := hwalks.mem_after_of_work ((hwork i).2 hi)
    rcases (hwalks.mem_after_iff i).1 hafter with hnil | hout
    · cases hnil
    · exact hout

theorem pairwise_names_byName (ns : Nodes) (is : List Nat) :
    ((byName ns is).map ns.name).Pairwise (· ≤ ·) := by
  rw [List.pairwise_map]
  have hsorted := @List.pairwise_mergeSort _ (fun i j => decide (ns.name i ≤ ns.name j))
    (fun i j k => by simpa using le_trans) (fun i j => by simpa using le_total _ _) is
  exact hsorted.imp fun h => by simpa using h

/-- Registries with the same names start their walks in the same order. -/
theorem names_byName_eq (wf : ns.WellFormed) (wf' : ns'.WellFormed)
    (h : ∀ t, (∃ i < ns.size, ns.name i = t) ↔ ∃ i < ns'.size, ns'.name i = t) :
    (byName ns (List.range ns.size)).map ns.name =
      (byName ns' (List.range ns'.size)).map ns'.name := by
  have hnodup : ∀ {ns : Nodes}, ns.WellFormed → ((List.range ns.size).map ns.name).Nodup := by
    intro ns wf
    refine List.Nodup.map_on ?_ List.nodup_range
    intro i hi j hj
    exact wf.injective i j (List.mem_range.1 hi) (List.mem_range.1 hj)
  have hperm : ((List.range ns.size).map ns.name).Perm ((List.range ns'.size).map ns'.name) := by
    refine (List.perm_ext_iff_of_nodup (hnodup wf) (hnodup wf')).2 ?_
    intro t
    simp only [List.mem_map, List.mem_range]
    exact h t
  refine List.Perm.eq_of_pairwise (fun a b _ _ hab hba => le_antisymm hab hba)
    (pairwise_names_byName ns _) (pairwise_names_byName ns' _) ?_
  exact ((byName_perm ns _).map _).trans (hperm.trans ((byName_perm ns' _).map _).symm)

/-- Registries that agree by name up to repeated parents are put into the same order. -/
theorem names_sort_eq (wf : ns.WellFormed) (wf' : ns'.WellFormed)
    (h : ns.view.firsts = ns'.view.firsts) :
    ns.names (sort ns (List.range ns.size)) = ns'.names (sort ns' (List.range ns'.size)) := by
  have hnames : ∀ t, (∃ i < ns.size, ns.name i = t) ↔ ∃ i < ns'.size, ns'.name i = t := by
    intro t
    rw [← Nodes.view_isSome_iff wf, ← Nodes.view_isSome_iff wf', View.isSome_eq h]
  have hbelow : ∀ (ns : Nodes), ∀ i ∈ byName ns (List.range ns.size), i < ns.size := by
    intro ns i hi
    exact List.mem_range.1 ((byName_perm ns _).mem_iff.1 hi)
  obtain ⟨after, hwalks⟩ := sort_spec ns (List.range ns.size)
  obtain ⟨after', hwalks'⟩ := sort_spec ns' (List.range ns'.size)
  -- both walks are walks through the same graph of names
  have hmap := hwalks.map (Nodes.renaming_dependencies wf h) (by simp) (hbelow ns)
  have hmap' := hwalks'.map (Nodes.renaming_dependencies wf' rfl) (by simp) (hbelow ns')
  rw [names_byName_eq wf wf' hnames] at hmap
  exact (hmap.unique hmap').2

end Registry

end Lineage.Order
