import Lineage.Linearization.Fault
import Lineage.Proofs.Linearization.Culprit

/-!
# The fault that is met

`Culprit` tells which node is at fault. A fault tells more: the parent that closes a cycle, or the
heads at which a merge is blocked. `Cause` adds both to what the culprit is told from, and it still
looks at the parents alone. So there is one fault to be met (`Cause.unique`), whatever a search has
memoized before it meets it.
-/

namespace Lineage.Linearization

variable {ns : Nodes}

/-- The fault that is met when the linearization of a node is tried while that of the `active` ones
is under way. -/
inductive Cause (ns : Nodes) : List Nat → Nat → HierarchyFault → Prop where
  /-- Some parents are under way, perhaps the node itself; the last of them is named. -/
  | cycle {active : List Nat} {i p : Nat}
      (closes : (ns.parents i).reverse.find? (fun q => (i :: active).contains q) = some p) :
      Cause ns active i (.cycle p i)
  /-- The first parent without a linearization passes its fault on. -/
  | above {active : List Nat} {i p : Nat} {f : HierarchyFault}
      (clear : ∀ q ∈ ns.parents i, q ∉ i :: active)
      (first : firstStuck? ns.parents (ns.parents i) = some p)
      (cause : Cause ns (i :: active) p f) : Cause ns active i f
  /-- Every parent has a linearization, but the merge of these is blocked. -/
  | blocked {active : List Nat} {i : Nat} {stuck : List Nat}
      (clear : ∀ q ∈ ns.parents i, q ∉ i :: active) (of : Nat → List Nat)
      (parents : ∀ p ∈ ns.parents i, Linearizes ns.parents p (of p))
      (stops : merge ((ns.parents i).map of) = .error stuck) :
      Cause ns active i (.blocked i stuck)

namespace Cause

variable {active : List Nat} {i : Nat} {f f' : HierarchyFault}

/-- The parent that closes a cycle is one, and it is under way. -/
theorem mem_of_closes {p : Nat}
    (h : (ns.parents i).reverse.find? (fun q => (i :: active).contains q) = some p) :
    p ∈ ns.parents i ∧ p ∈ i :: active :=
  ⟨List.mem_reverse.1 (List.mem_of_find?_eq_some h), by simpa using List.find?_some h⟩

theorem culprit (h : Cause ns active i f) : Culprit ns.parents active i f.node := by
  induction h with
  | cycle closes =>
    obtain ⟨hparent, hactive⟩ := mem_of_closes closes
    exact .cycle ⟨_, hparent, hactive⟩
  | above clear first _ ih => exact .above clear first ih
  | blocked clear of parents stops =>
    refine .blocked clear (fun p hp => ⟨of p, parents p hp⟩) ?_
    rintro ⟨l, hl⟩
    obtain ⟨m, hm, _⟩ := (Linearizes.iff_merge of parents).1 hl
    rw [stops] at hm
    cases hm

/-- There is only one fault to be met. -/
theorem unique (h : Cause ns active i f) (h' : Cause ns active i f') : f = f' := by
  -- as for the culprit, the rules exclude each other
  induction h with
  | cycle closes =>
    obtain ⟨hparent, hactive⟩ := mem_of_closes closes
    cases h' with
    | cycle closes' =>
      rw [closes] at closes'
      cases closes'
      rfl
    | above clear _ _ => exact absurd hactive (clear _ hparent)
    | blocked clear _ _ _ => exact absurd hactive (clear _ hparent)
  | above clear first _ ih =>
    cases h' with
    | cycle closes =>
      obtain ⟨hparent, hactive⟩ := mem_of_closes closes
      exact absurd hactive (clear _ hparent)
    | above _ first' cause' =>
      rw [first] at first'
      cases first'
      exact ih cause'
    | blocked _ of parents _ =>
      rw [firstStuck?_eq_none_iff.2 fun p hp => ⟨of p, parents p hp⟩] at first
      cases first
  | blocked clear of parents stops =>
    cases h' with
    | cycle closes =>
      obtain ⟨hparent, hactive⟩ := mem_of_closes closes
      exact absurd hactive (clear _ hparent)
    | above _ first _ =>
      rw [firstStuck?_eq_none_iff.2 fun p hp => ⟨of p, parents p hp⟩] at first
      cases first
    | blocked _ of' parents' stops' =>
      -- a parent has one linearization, so the same sequences are merged
      have hof : (ns.parents _).map of = (ns.parents _).map of' :=
        List.map_congr_left fun p hp => (parents p hp).unique (parents' p hp)
      rw [← hof, stops] at stops'
      cases stops'
      rfl

end Cause

end Lineage.Linearization
