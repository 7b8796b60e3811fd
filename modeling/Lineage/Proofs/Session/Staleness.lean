import Mathlib
import Lineage.Proofs.Session.Soundness

/-!
# Memos that are still right

Nothing guards the parents of a single node. A node that is memoized may be given further parents,
and its memo is then no longer what a search from scratch would find, nor need the memos of the
types below it be.

That is the only way in which a memo can become stale. A request overtakes a node if it gives the
node a further parent while the node is memoized (`overtaken`). As long as no node at or above
a type has been overtaken, the memo of the type is the linearization that follows from the parents
as they are.
-/

open Relation (TransGen ReflTransGen)

namespace Lineage

namespace Linearization

variable {ns ns' : Nodes} {memo after : Memo} {active work listed listed' : List Nat}
  {fault : Option HierarchyFault} {i : Nat}

/-- No listed node lies at or above the node. -/
def Spared (up : Nat → List Nat) (listed : List Nat) (i : Nat) : Prop :=
  ∀ a ∈ listed, ¬ ReflTransGen (Step up) i a

theorem Spared.parent {up : Nat → List Nat} {p : Nat} (h : Spared up listed i) (hp : p ∈ up i) :
    Spared up listed p :=
  fun a ha hpa => h a ha (.head hp hpa)

/-- But for the listed nodes, the parents of known nodes are known, and what is memoized follows
the rule where no listed node lies at or above. -/
structure Current (ns : Nodes) (memo : Memo) (listed : List Nat) : Prop where
  parents_known : ∀ i, memo.has i = true → i ∉ listed → ∀ p ∈ ns.parents i, memo.has p = true
  follows : FollowsOn (Spared ns.parents listed) ns memo

theorem current_empty (ns : Nodes) : Current ns {} [] := by
  refine ⟨?_, (follows_empty ns).on _⟩
  intro i hi
  cases hi

/-- If no listed node lies at or above a known one, then all that lies above it is known. -/
theorem known_above
    (hparents : ∀ i, memo.has i = true → i ∉ listed → ∀ p ∈ ns.parents i, memo.has p = true)
    (hspared : Spared ns.parents listed i) (hi : memo.has i = true) {a : Nat}
    (hia : ReflTransGen (Step ns.parents) i a) : memo.has a = true := by
  induction hia with
  | refl => exact hi
  | tail hib hbc ih => exact hparents _ ih (fun hb => hspared _ hb hib) _ hbc

/-- Nodes may be given other parents as long as those that are known and whose parents change are
listed from then on. -/
theorem Current.rewire (h : Current ns memo listed)
    (hkeep : ∀ i, memo.has i = true → i ∉ listed' →
      i ∉ listed ∧ SameFirsts (ns'.parents i) (ns.parents i)) : Current ns' memo listed' := by
  have hparents :
      ∀ i, memo.has i = true → i ∉ listed' → ∀ p ∈ ns'.parents i, memo.has p = true := by
    intro i hi hlisted p hp
    obtain ⟨hbefore, hsame⟩ := hkeep i hi hlisted
    exact h.parents_known i hi hbefore p ((hsame.mem_iff p).1 hp)
  refine ⟨hparents, ?_⟩
  intro i hspared l hl
  -- what lies above the node was not listed before and has the parents that it had
  have habove : ∀ a, ReflTransGen (Step ns'.parents) i a →
      a ∉ listed ∧ SameFirsts (ns'.parents a) (ns.parents a) := by
    intro a hia
    have ha : a ∉ listed' := fun ha => hspared a ha hia
    exact hkeep a (known_above hparents hspared (Memo.has_of_get? hl) hia) ha
  have hclosed : ∀ a, ReflTransGen (Step ns'.parents) i a →
      ∀ p ∈ ns.parents a, ReflTransGen (Step ns'.parents) i p :=
    fun a hia p hp => hia.tail (((habove a hia).2.mem_iff p).2 hp)
  have hsame := Renaming.of_sameFirsts hclosed fun a hia => (habove a hia).2
  have hbefore : Spared ns.parents listed i :=
    fun a ha hia => (habove a (hsame.reaches .refl hia)).1 ha
  exact (h.follows i hbefore l hl).congr_on hclosed (fun a hia => (habove a hia).2) .refl

namespace Visits

/-- A node is only memoized when all its parents are. -/
theorem parents_known_of (h : Visits ns active memo work after fault)
    (hmemo : ∀ i, memo.has i = true → i ∉ listed → ∀ p ∈ ns.parents i, memo.has p = true) :
    ∀ i, after.has i = true → i ∉ listed → ∀ p ∈ ns.parents i, after.has p = true := by
  induction h with
  | done => exact hmemo
  | known _ _ ih => exact ih hmemo
  | closes _ _ => exact hmemo
  | fails _ _ _ ih => exact ih hmemo
  | blocked _ _ _ _ ih => exact ih hmemo
  | finishes _ _ above _ _ ihAbove ihRest =>
    refine ihRest ?_
    intro k hk hlisted p hp
    rw [Memo.has_insert, Bool.or_eq_true, decide_eq_true_eq] at hk ⊢
    rcases hk with rfl | hk
    · exact Or.inr (above.parents_known p hp)
    · exact Or.inr (ihAbove hmemo k hk hlisted p hp)

end Visits

theorem Current.linearize (h : Current ns memo listed) (i : Nat) :
    Current ns (linearize ns memo i).1 listed := by
  obtain ⟨fault, hvisits⟩ := exists_visits_linearize ns memo i
  exact ⟨hvisits.parents_known_of h.parents_known,
    hvisits.followsOn (fun _ hj _ hp => Spared.parent hj hp) h.follows⟩

end Linearization

namespace Graph

open Linearization

variable {g h : Graph} {listed listed' : List Nat}

/-! ## Overtaken nodes -/

/-- The nodes that a request overtakes: they are memoized, and the request gives them a further
parent, and not just a repeated one. -/
def overtaken (g : Graph) (r : Request) : List Nat :=
  (List.range g.size).filter fun i =>
    g.memo.has i && ((g.perform r).1.nodes.parents i).eraseDups != (g.nodes.parents i).eraseDups

/-- The nodes that are overtaken by some request of a session. -/
def overtakenBy (g : Graph) : List Request → List Nat
  | [] => []
  | r :: rs => g.overtaken r ++ (g.perform r).1.overtakenBy rs

theorem sameFirsts_of_not_overtaken {r : Request} {i : Nat} (hi : i < g.size)
    (hknown : g.memo.has i = true) (h : i ∉ g.overtaken r) :
    SameFirsts ((g.perform r).1.nodes.parents i) (g.nodes.parents i) := by
  by_contra hne
  refine h (List.mem_filter.2 ⟨List.mem_range.2 hi, ?_⟩)
  rw [hknown, Bool.true_and, bne_iff_ne]
  exact hne

/-- A request that keeps the parents of all nodes overtakes none. -/
theorem overtaken_eq_nil {r : Request} (h : (g.perform r).1.nodes.parents = g.nodes.parents) :
    g.overtaken r = [] := by
  unfold overtaken
  rw [h]
  simp

theorem overtaken_linearize (g : Graph) (name : Text) : g.overtaken (.linearize name) = [] := by
  apply overtaken_eq_nil
  rw [fst_perform_linearize]
  cases g.find name <;> rfl

theorem parents_freeze (g : Graph) (is : List Nat) :
    (g.attempting (g.freeze is)).1.nodes.parents = g.nodes.parents := by
  cases hfreeze : g.freeze is with
  | error e => rfl
  | ok k =>
    rw [(freeze_eq_ok hfreeze).2]
    rfl

theorem overtaken_freeze (g : Graph) (order : Option (List Text)) :
    g.overtaken (.freeze order) = [] := by
  apply overtaken_eq_nil
  cases order with
  | none => exact parents_freeze g g.order
  | some names =>
    cases hnames : g.findAll names with
    | error e => simp only [perform, hnames]
    | ok is =>
      simp only [perform, hnames]
      exact parents_freeze g is

theorem overtaken_buildInverses (g : Graph) : g.overtaken .buildInverses = [] :=
  overtaken_eq_nil (agreeOn_buildInverses (f := Node.parents) (fun _ _ _ => rfl) g).parents_eq

/-! ## Steps and runs -/

theorem current_linearizeAll (hg : Current g.nodes g.memo listed) (is : List Nat) :
    Current (g.linearizeAll is).1.nodes (g.linearizeAll is).1.memo listed := by
  induction is generalizing g with
  | nil => exact hg
  | cons i is ih => exact ih (g := (g.linearize i).1) (hg.linearize i)

/-- What a request leaves is current, if the nodes are listed that it overtakes. -/
theorem current_effect (hg : Current g.nodes g.memo listed) (heffect : Effect g h)
    (hkeep : ∀ i, g.memo.has i = true → i ∉ listed' →
      i ∉ listed ∧ SameFirsts (h.nodes.parents i) (g.nodes.parents i)) :
    Current h.nodes h.memo listed' := by
  cases heffect with
  | grown hgrown _ =>
    rw [hgrown.memo]
    exact hg.rewire hkeep
  | frozen _ _ => exact hg.rewire hkeep
  | @linearized is _ =>
    rw [nodes_linearizeAll] at hkeep
    exact current_linearizeAll (hg.rewire hkeep) is

theorem current_perform (hsound : Sound g) (hg : Current g.nodes g.memo listed) (r : Request) :
    Current (g.perform r).1.nodes (g.perform r).1.memo (listed ++ g.overtaken r) := by
  refine current_effect hg (effect_perform hsound.toRegistered r) ?_
  intro i hi hlisted
  rw [List.mem_append, not_or] at hlisted
  exact ⟨hlisted.1, sameFirsts_of_not_overtaken (hsound.known i hi) hi hlisted.2⟩

theorem current_after (hsound : Sound g) (hg : Current g.nodes g.memo listed) (rs : List Request) :
    Current (g.after rs).nodes (g.after rs).memo (listed ++ g.overtakenBy rs) := by
  induction rs generalizing g listed with
  | nil =>
    rw [overtakenBy, List.append_nil]
    exact hg
  | cons r rs ih =>
    rw [overtakenBy, ← List.append_assoc]
    exact ih (hsound.perform r) (current_perform hsound hg r)

/-- In every session, a type has the linearization memoized that it has from scratch, unless it or a
type above it was overtaken by a request. Asking for linearizations, freezing and entering inverse
edges overtake no type. -/
theorem linearize_of_memo (c : Config) (rs : List Request) :
    (∀ g name, overtaken g (.linearize name) = []) ∧ (∀ g order, overtaken g (.freeze order) = []) ∧
      (∀ g, overtaken g .buildInverses = []) ∧
      ∀ i l, (session c rs).memo.get? i = some l →
        (∀ a ∈ overtakenBy { config := c } rs,
          ¬ ReflTransGen (Step (session c rs).nodes.parents) i a) →
        (Linearization.linearize (session c rs).nodes {} i).2 = .ok l := by
  refine ⟨overtaken_linearize, overtaken_freeze, overtaken_buildInverses, ?_⟩
  intro i l hl hspared
  have hcurrent := current_after (sound_empty c) (current_empty _) rs
  exact (linearize_eq_ok_iff (follows_empty _)).2 (hcurrent.follows i hspared l hl)

/-- Two classes are linearized, and one of them is given a parent afterwards; the memo of the other
one stays right. -/
theorem linearize_of_memo_beside :
    overtakenBy {} [.ingest [{ name := "A" }, { name := "B" }], .linearize "A", .linearize "B",
        .ingest [{ name := "A", parents := ["C"] }]] = [0] ∧
      (session {} [.ingest [{ name := "A" }, { name := "B" }], .linearize "A", .linearize "B",
        .ingest [{ name := "A", parents := ["C"] }]]).memo.get? 1 = some [1] ∧
      (Linearization.linearize (session {} [.ingest [{ name := "A" }, { name := "B" }],
        .linearize "A", .linearize "B", .ingest [{ name := "A", parents := ["C"] }]]).nodes {} 1).2
          = .ok [1] := by
  have hovertaken : overtakenBy {} [.ingest [{ name := "A" }, { name := "B" }], .linearize "A",
      .linearize "B", .ingest [{ name := "A", parents := ["C"] }]] = [0] := by cbv
  have hmemo : (session {} [.ingest [{ name := "A" }, { name := "B" }], .linearize "A",
      .linearize "B", .ingest [{ name := "A", parents := ["C"] }]]).memo.get? 1 = some [1] := by cbv
  have hparents : (session {} [.ingest [{ name := "A" }, { name := "B" }], .linearize "A",
      .linearize "B", .ingest [{ name := "A", parents := ["C"] }]]).nodes.parents 1 = [] := by cbv
  obtain ⟨_, _, _, h⟩ := linearize_of_memo {} [.ingest [{ name := "A" }, { name := "B" }],
    .linearize "A", .linearize "B", .ingest [{ name := "A", parents := ["C"] }]]
  refine ⟨hovertaken, hmemo, h 1 [1] hmemo ?_⟩
  rw [hovertaken]
  intro a ha hpath
  -- nothing lies above the node
  rcases ReflTransGen.cases_head hpath with rfl | ⟨p, hp, _⟩
  · simp at ha
  · rw [Step, hparents] at hp
    cases hp

/-- A class is given a parent after it has been linearized. -/
theorem stale_memo_of_late_parent :
    (session {} [.ingest [{ name := "A" }], .linearize "A",
        .ingest [{ name := "A", parents := ["B"] }]]).memo.get? 0 = some [0] ∧
      (Linearization.linearize (session {} [.ingest [{ name := "A" }], .linearize "A",
        .ingest [{ name := "A", parents := ["B"] }]]).nodes {} 0).2 = .ok [0, 1] := by
  constructor
  · cbv
  · cbv

end Graph

end Lineage
