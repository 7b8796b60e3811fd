import Lineage.Linearization.Fault
import Lineage.Proofs.Linearization.Merge

/-!
# Which merge is found

Taking the leftmost free head at every step is greedy, and yet it never misses a merge. If some
list without repeats keeps the order of all sequences, then of the heads the one that this list
names first is free, and whichever free head is taken, the list keeps the order of what is left. So
a merge exists exactly if there is any such list (`exists_merges_iff`).

The merged list can be told from the sequences alone. Of the elements that have not been taken,
those may come next that no sequence puts behind another one of them, and of these the list takes
the one that the earliest sequence holds (`Merges.leftmostFirst`). Only one list does so at each of
its positions (`LeftmostFirst.unique`).
-/

namespace Lineage.Linearization

variable {α : Type} [DecidableEq α] {ls : List (List α)} {l m taken : List α} {x y z : α}

/-! ## When there is a merge -/

omit [DecidableEq α] in
/-- The list names nothing twice and keeps the order of every sequence. -/
structure CommonOrder (ls : List (List α)) (m : List α) : Prop where
  nodup : m.Nodup
  sublist : ∀ s ∈ ls, s.Sublist m

namespace CommonOrder

theorem dropHeads (h : CommonOrder ls m) (x : α) : CommonOrder (dropHeads x ls) m where
  nodup := h.nodup
  sublist := by
    intro t ht
    obtain ⟨s, hs, rfl⟩ := List.mem_map.1 ht
    exact (dropHead_sublist x s).trans (h.sublist s hs)

/-- While some sequence is left, one of the heads is free. -/
theorem exists_freeHead? (h : CommonOrder ls m) (hheads : heads ls ≠ []) :
    ∃ x, freeHead? ls = some x := by
  induction m with
  | nil =>
    obtain ⟨x, hx⟩ := List.exists_mem_of_ne_nil _ hheads
    obtain ⟨s, hs, hhead⟩ := List.mem_filterMap.1 hx
    rw [List.sublist_nil.1 (h.sublist s hs)] at hhead
    cases hhead
  | cons a m ih =>
    obtain ⟨ham, hm⟩ := List.nodup_cons.1 h.nodup
    by_cases ha : a ∈ heads ls
    · -- behind their heads the sequences hold elements of the rest of the order only
      have hfree : inTail a ls = false := by
        rw [inTail, List.any_eq_false]
        intro s hs htail
        exact ham ((h.sublist s hs).tail.subset (List.contains_iff_mem.1 htail))
      exact Option.isSome_iff_exists.1 (List.find?_isSome.2 ⟨a, ha, by rw [hfree]; rfl⟩)
    · refine ih ⟨hm, fun s hs => ?_⟩
      cases h.sublist s hs with
      | cons _ hsub => exact hsub
      | @cons_cons t _ _ _ =>
        have hhead : a ∈ heads ls := List.mem_filterMap.2 ⟨a :: t, hs, rfl⟩
        exact absurd hhead ha

end CommonOrder

theorem Merges.commonOrder (h : Merges ls l) : CommonOrder ls l :=
  ⟨h.nodup, fun _ => h.sublist⟩

/-- The greedy choice of heads gets stuck only if no list keeps the order of all sequences. -/
theorem exists_merges_iff : (∃ l, Merges ls l) ↔ ∃ m, CommonOrder ls m := by
  constructor
  · rintro ⟨l, hl⟩
    exact ⟨l, hl.commonOrder⟩
  · rintro ⟨m, hm⟩
    -- taking a head makes the sequences shorter in total
    induction hn : totalLength ls using Nat.strongRecOn generalizing ls with
    | ind n ih =>
      by_cases hheads : heads ls = []
      · exact ⟨[], .done hheads⟩
      · obtain ⟨x, hx⟩ := hm.exists_freeHead? hheads
        have hlt := totalLength_dropHeads_lt (freeHead?_mem hx)
        obtain ⟨l, hl⟩ := ih _ (by omega) (hm.dropHeads x) rfl
        exact ⟨x :: l, .step hx hl⟩

/-! ## What may come next -/

/-- Some sequence holds the element, and it has not been taken. -/
def Remains (ls : List (List α)) (taken : List α) (x : α) : Prop :=
  (∃ s ∈ ls, x ∈ s) ∧ x ∉ taken

/-- The element remains, and no sequence puts it behind another one that remains. -/
structure MayCome (ls : List (List α)) (taken : List α) (x : α) : Prop where
  remains : Remains ls taken x
  first : ∀ s ∈ ls, ∀ y, Remains ls taken y → y ≠ x → ¬ [y, x].Sublist s

/-- The position of the first sequence that holds the element. -/
def firstHolder (ls : List (List α)) (x : α) : Nat :=
  ls.findIdx (·.contains x)

/-- Of all that may come next, the element is the one whose first holder is leftmost. -/
structure Leftmost (ls : List (List α)) (taken : List α) (x : α) : Prop where
  mayCome : MayCome ls taken x
  lt : ∀ y, MayCome ls taken y → y ≠ x → firstHolder ls x < firstHolder ls y

/-- Each element of the list is the leftmost that may come after those in front of it. -/
def LeftmostFirst (ls : List (List α)) (l : List α) : Prop :=
  ∀ taken x rest, l = taken ++ x :: rest → Leftmost ls taken x

/-! ## The first element -/

omit [DecidableEq α] in
/-- What may come first is at the head wherever it is held. -/
theorem MayCome.head?_eq (h : MayCome ls [] x) {s : List α} (hs : s ∈ ls) (hx : x ∈ s) :
    s.head? = some x := by
  cases s with
  | nil => cases hx
  | cons z t =>
    by_contra hne
    have hzx : z ≠ x := fun heq => hne (by rw [heq]; rfl)
    have hxt : x ∈ t := (List.mem_cons.1 hx).resolve_left hzx.symm
    refine h.first _ hs z ⟨⟨_, hs, List.mem_cons_self⟩, List.not_mem_nil⟩ hzx ?_
    exact (List.singleton_sublist.2 hxt).cons_cons z

/-- A search through the heads meets what it finds in an earlier sequence than anything else that it
looks for and that is a head wherever it is held. -/
theorem firstHolder_lt_of_find? {p : α → Bool} (h : (heads ls).find? p = some x)
    (hx : ∀ s ∈ ls, x ∈ s → s.head? = some x) (hy : ∀ s ∈ ls, y ∈ s → s.head? = some y)
    (hp : p y = true) (hne : y ≠ x) : firstHolder ls x < firstHolder ls y := by
  induction ls with
  | nil => cases h
  | cons s ls ih =>
    have hxs := hx s List.mem_cons_self
    have hys := hy s List.mem_cons_self
    have hrest := fun h => ih h (fun s hs => hx s (List.mem_cons_of_mem _ hs))
      fun s hs => hy s (List.mem_cons_of_mem _ hs)
    unfold firstHolder at hrest ⊢
    rw [List.findIdx_cons, List.findIdx_cons]
    cases s with
    | nil => simpa using hrest h
    | cons z t =>
      have hheads : heads ((z :: t) :: ls) = z :: heads ls := rfl
      have hhead : ∀ {w}, (z :: t).head? = some w → z = w := fun hw => Option.some.inj hw
      rw [hheads, List.find?_cons] at h
      cases hz : p z with
      | true =>
        -- the sequence is the first holder of what is found, and does not hold the other one
        rw [hz] at h
        obtain rfl := Option.some.inj h
        have hyt : y ∉ z :: t := fun hmem => hne (hhead (hys hmem)).symm
        simp [hyt]
      | false =>
        rw [hz] at h
        have hyt : y ∉ z :: t := by
          intro hmem
          rw [hhead (hys hmem), hp] at hz
          cases hz
        have hxt : x ∉ z :: t := by
          intro hmem
          have hpx := List.find?_some h
          rw [hhead (hxs hmem), hpx] at hz
          cases hz
        simpa [hxt, hyt] using hrest h

/-- The free head that is taken is the leftmost element that may come first. -/
theorem leftmost_of_freeHead? (h : freeHead? ls = some x) (hnodup : ∀ s ∈ ls, s.Nodup) :
    Leftmost ls [] x := by
  have htail : ∀ s ∈ ls, x ∉ s.tail := by
    intro s hs hmem
    have hfree := List.find?_some h
    rw [Bool.not_eq_true', inTail, List.any_eq_false] at hfree
    exact hfree s hs (List.contains_iff_mem.2 hmem)
  have hmay : MayCome ls [] x := by
    obtain ⟨s, hs, hhead⟩ := List.mem_filterMap.1 (freeHead?_mem h)
    refine ⟨⟨⟨s, hs, List.mem_of_mem_head? hhead⟩, List.not_mem_nil⟩, ?_⟩
    intro s hs y _ _ hsub
    exact htail s hs (List.singleton_sublist.1 hsub.tail)
  refine ⟨hmay, fun y hy hne => ?_⟩
  -- the other element is a free head as well, since no sequence repeats it
  have hfree : inTail y ls = false := by
    rw [inTail, List.any_eq_false]
    intro s hs hmem
    have hmem : y ∈ s.tail := List.contains_iff_mem.1 hmem
    have hhead := hy.head?_eq hs (List.mem_of_mem_tail hmem)
    have hs' := hnodup s hs
    rw [List.head?_eq_some_iff] at hhead
    obtain ⟨t, rfl⟩ := hhead
    exact (List.nodup_cons.1 hs').1 hmem
  exact firstHolder_lt_of_find? h (fun s => hmay.head?_eq) (fun s => hy.head?_eq)
    (by rw [hfree]; rfl) hne

/-! ## The elements behind it -/

theorem mem_dropHead_iff (hne : y ≠ x) {s : List α} : y ∈ dropHead x s ↔ y ∈ s := by
  constructor
  · exact fun h => (dropHead_sublist x s).subset h
  · exact fun h => (List.mem_cons.1 ((sublist_cons_dropHead x s).subset h)).resolve_left hne

theorem pair_sublist_dropHead_iff (hz : z ≠ x) {s : List α} :
    [z, y].Sublist (dropHead x s) ↔ [z, y].Sublist s := by
  constructor
  · exact fun h => h.trans (dropHead_sublist x s)
  · intro h
    cases h.trans (sublist_cons_dropHead x s) with
    | cons _ hsub => exact hsub
    | cons_cons _ _ => exact absurd rfl hz

theorem firstHolder_dropHeads (hne : y ≠ x) :
    firstHolder (dropHeads x ls) y = firstHolder ls y := by
  unfold firstHolder dropHeads
  induction ls with
  | nil => rfl
  | cons s ls ih =>
    have hs : (dropHead x s).contains y = s.contains y := by
      rw [Bool.eq_iff_iff, List.contains_iff_mem, List.contains_iff_mem, mem_dropHead_iff hne]
    rw [List.map_cons, List.findIdx_cons, List.findIdx_cons, hs, ih]

omit [DecidableEq α] in
theorem ne_of_remains (hy : Remains ls (x :: taken) y) : y ≠ x :=
  fun heq => hy.2 (heq ▸ List.mem_cons_self)

section Step

variable (h : freeHead? ls = some x)

include h

/-- Once the free head has been taken, what remains is what the shortened sequences hold. -/
theorem remains_cons_iff : Remains ls (x :: taken) y ↔ Remains (dropHeads x ls) taken y := by
  unfold Remains
  rw [List.mem_cons, not_or]
  constructor
  · rintro ⟨⟨s, hs, hy⟩, hne, htaken⟩
    exact ⟨⟨_, List.mem_map_of_mem hs, (mem_dropHead_iff hne).2 hy⟩, htaken⟩
  · rintro ⟨⟨t, ht, hy⟩, htaken⟩
    obtain ⟨s, hs, rfl⟩ := List.mem_map.1 ht
    have hne : y ≠ x := fun heq => not_mem_dropHead h hs (heq ▸ hy)
    exact ⟨⟨s, hs, (mem_dropHead_iff hne).1 hy⟩, hne, htaken⟩

theorem mayCome_cons_iff : MayCome ls (x :: taken) y ↔ MayCome (dropHeads x ls) taken y := by
  constructor
  · intro hy
    refine ⟨(remains_cons_iff h).1 hy.remains, fun t ht z hz hzy hsub => ?_⟩
    obtain ⟨s, hs, rfl⟩ := List.mem_map.1 ht
    exact hy.first s hs z ((remains_cons_iff h).2 hz) hzy (hsub.trans (dropHead_sublist x s))
  · intro hy
    refine ⟨(remains_cons_iff h).2 hy.remains, fun s hs z hz hzy hsub => ?_⟩
    refine hy.first _ (List.mem_map_of_mem hs) z ((remains_cons_iff h).1 hz) hzy ?_
    exact (pair_sublist_dropHead_iff (ne_of_remains hz)).2 hsub

theorem Leftmost.of_dropHeads (hy : Leftmost (dropHeads x ls) taken y) :
    Leftmost ls (x :: taken) y := by
  have hmay := (mayCome_cons_iff h).2 hy.mayCome
  refine ⟨hmay, fun z hz hzy => ?_⟩
  have hlt := hy.lt z ((mayCome_cons_iff h).1 hz) hzy
  rwa [firstHolder_dropHeads (ne_of_remains hmay.remains),
    firstHolder_dropHeads (ne_of_remains hz.remains)] at hlt

end Step

/-- At each position the merge takes the leftmost element that may come next. -/
theorem Merges.leftmostFirst (h : Merges ls l) : LeftmostFirst ls l := by
  induction h with
  | done _ =>
    intro taken x rest heq
    exact absurd heq.symm (by simp)
  | @step ls x l hfree hrest ih =>
    have hnodup : ∀ s ∈ ls, s.Nodup := fun s hs =>
      ((Merges.step hfree hrest).sublist hs).nodup (Merges.step hfree hrest).nodup
    intro taken y rest heq
    cases taken with
    | nil =>
      obtain ⟨rfl, _⟩ := List.cons.inj heq
      exact leftmost_of_freeHead? hfree hnodup
    | cons z taken =>
      obtain ⟨rfl, hl⟩ := List.cons.inj heq
      exact (ih taken y rest hl).of_dropHeads hfree

/-! ## Uniqueness -/

theorem Leftmost.unique (hx : Leftmost ls taken x) (hy : Leftmost ls taken y) : x = y := by
  by_contra hne
  exact Nat.lt_asymm (hx.lt y hy.mayCome (Ne.symm hne)) (hy.lt x hx.mayCome hne)

/-- There is only one list of all elements that is leftmost first. -/
theorem LeftmostFirst.unique {l' : List α} (h : LeftmostFirst ls l) (h' : LeftmostFirst ls l')
    (hall : ∀ x, x ∈ l ↔ ∃ s ∈ ls, x ∈ s) (hall' : ∀ x, x ∈ l' ↔ ∃ s ∈ ls, x ∈ s) : l = l' := by
  -- what has been taken is the same on both sides, so neither list can go on alone
  suffices hrest : ∀ taken r r', l = taken ++ r → l' = taken ++ r' → r = r' from
    hrest [] l l' rfl rfl
  intro taken r
  induction r generalizing taken with
  | nil =>
    intro r' heq heq'
    cases r' with
    | nil => rfl
    | cons y r' =>
      have hy := (h' taken y r' heq').mayCome.remains
      exact absurd ((hall y).2 hy.1) (by rw [heq, List.append_nil]; exact hy.2)
  | cons x r ih =>
    intro r' heq heq'
    have hx := h taken x r heq
    cases r' with
    | nil =>
      have hrem := hx.mayCome.remains
      exact absurd ((hall' x).2 hrem.1) (by rw [heq', List.append_nil]; exact hrem.2)
    | cons y r' =>
      obtain rfl := hx.unique (h' taken y r' heq')
      rw [ih (taken ++ [x]) r' (by rw [heq]; simp) (by rw [heq']; simp)]

/-! ## Merging for an owner -/

theorem mergeFor_eq_ok_iff {owner : Option Text} {nameOf : α → Text} :
    mergeFor owner nameOf ls = .ok l ↔ Merges ls l := by
  rw [← merge_eq_ok_iff]
  unfold mergeFor
  cases merge ls <;> simp

/-- A blocked merge is reported under the name of its owner, with the heads that were left. -/
theorem mergeFor_eq_error {owner : Option Text} {nameOf : α → Text} {r : HierarchyReport}
    (h : mergeFor owner nameOf ls = .error r) :
    ∃ stuck, merge ls = .error stuck ∧ r.name = owner.getD anonymousOwner ∧
      r.requested = owner.getD anonymousOwner ∧
      r.message = blockedMessage (owner.getD anonymousOwner) (stuck.map nameOf) := by
  unfold mergeFor at h
  cases hmerge : merge ls with
  | ok l =>
    rw [hmerge] at h
    cases h
  | error stuck =>
    rw [hmerge] at h
    obtain rfl := Except.error.inj h
    refine ⟨stuck, rfl, rfl, rfl, ?_⟩
    simp [HierarchyReport.make]

/-- The merge is sound, complete and leftmost first: it succeeds exactly if some list without
repeats keeps the order of all sequences. Then it returns such a list of exactly their elements,
which takes at each position the leftmost element that may come next and is the only list to do so.
Otherwise the given owner is reported. -/
theorem mergeFor_spec (owner : Option Text) (nameOf : α → Text) (ls : List (List α)) :
    ((∃ l, mergeFor owner nameOf ls = .ok l) ↔ ∃ m, CommonOrder ls m) ∧
      (∀ l, mergeFor owner nameOf ls = .ok l →
        CommonOrder ls l ∧ (∀ x, x ∈ l ↔ ∃ s ∈ ls, x ∈ s) ∧ LeftmostFirst ls l ∧
          ∀ l', (∀ x, x ∈ l' ↔ ∃ s ∈ ls, x ∈ s) → LeftmostFirst ls l' → l' = l) ∧
      ((¬ ∃ m, CommonOrder ls m) → ∃ r stuck, mergeFor owner nameOf ls = .error r ∧
        merge ls = .error stuck ∧ r.name = owner.getD anonymousOwner ∧ r.requested = r.name ∧
        r.message = blockedMessage r.name (stuck.map nameOf)) := by
  have hiff : (∃ l, mergeFor owner nameOf ls = .ok l) ↔ ∃ m, CommonOrder ls m := by
    rw [← exists_merges_iff]
    exact exists_congr fun l => mergeFor_eq_ok_iff
  refine ⟨hiff, ?_, ?_⟩
  · intro l hok
    have hl := mergeFor_eq_ok_iff.1 hok
    have hall : ∀ x, x ∈ l ↔ ∃ s ∈ ls, x ∈ s := fun x => hl.mem_iff
    exact ⟨hl.commonOrder, hall, hl.leftmostFirst, fun l' hall' hleft =>
      hleft.unique hl.leftmostFirst hall' hall⟩
  · intro hno
    cases hmerge : mergeFor owner nameOf ls with
    | ok l => exact absurd (hiff.1 ⟨l, hmerge⟩) hno
    | error r =>
      obtain ⟨stuck, hstuck, hname, hrequested, hmessage⟩ := mergeFor_eq_error hmerge
      exact ⟨r, stuck, rfl, hstuck, hname, hrequested.trans hname.symm, hname ▸ hmessage⟩

/-- Two parents that share an ancestor merge, and two that order their ancestors in opposite ways do
not. -/
theorem mergeFor_spec_parents :
    mergeFor (α := Text) (some "D") (fun t => t) [["B", "A"], ["C", "A"]] = .ok ["B", "C", "A"] ∧
      LeftmostFirst (α := Text) [["B", "A"], ["C", "A"]] ["B", "C", "A"] ∧
      (¬ ∃ m, CommonOrder (α := Text) [["B", "C"], ["C", "B"]] m) ∧
      ∃ r, mergeFor (α := Text) (some "D") (fun t => t) [["B", "C"], ["C", "B"]] = .error r ∧
        r.name = "D" := by
  have hok : mergeFor (α := Text) (some "D") (fun t => t) [["B", "A"], ["C", "A"]] =
      .ok ["B", "C", "A"] := by cbv
  obtain ⟨_, hmerged, _⟩ :=
    mergeFor_spec (α := Text) (some "D") (fun t => t) [["B", "A"], ["C", "A"]]
  obtain ⟨hiff, _, hblocked⟩ :=
    mergeFor_spec (α := Text) (some "D") (fun t => t) [["B", "C"], ["C", "B"]]
  have hno : ¬ ∃ m, CommonOrder (α := Text) [["B", "C"], ["C", "B"]] m := by
    rw [← hiff]
    rintro ⟨l, hl⟩
    have herror : mergeFor (α := Text) (some "D") (fun t => t) [["B", "C"], ["C", "B"]] =
        .error (.make "D" (some (blockedMessage "D" ["B", "C"]))) := by cbv
    rw [herror] at hl
    cases hl
  obtain ⟨r, _, hr, _, hname, _⟩ := hblocked hno
  exact ⟨hok, (hmerged _ hok).2.2.1, hno, r, hr, hname⟩

end Lineage.Linearization
