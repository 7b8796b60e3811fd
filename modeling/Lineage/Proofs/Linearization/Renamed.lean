import Lineage.Proofs.Linearization.History

/-!
# Linearizations by name

Two registries may hold the same types at different places. If what lies above a node of one and
above a node of the other is called the same, up to repeated parents, then so is what is answered
for the two nodes. Nothing else in the registries matters: only the nodes in `S` and in `S'` have to
be renamed to the common graph.
-/

namespace Lineage.Linearization

variable {ns ns' : Nodes} {memo memo' : Memo} {up : Text → List Text} {S S' : Nat → Prop}
  {i i' : Nat}

theorem names_of_linearizes (h : Renaming ns.parents up ns.name S)
    (h' : Renaming ns'.parents up ns'.name S') (hi : S i) (hi' : S' i')
    (hname : ns.name i = ns'.name i') {l : List Nat} (hl : Linearizes ns.parents i l) :
    ∃ l', Linearizes ns'.parents i' l' ∧ ns'.names l' = ns.names l := by
  -- through the graph of names
  have hnames := hl.map h hi
  rw [hname] at hnames
  obtain ⟨l', hl', heq⟩ := Linearizes.of_map h' hi' hnames
  exact ⟨l', hl', heq.symm⟩

theorem name_culprit_eq (h : Renaming ns.parents up ns.name S)
    (h' : Renaming ns'.parents up ns'.name S') (hi : S i) (hi' : S' i')
    (hname : ns.name i = ns'.name i') {c c' : Nat} (hc : Culprit ns.parents [] i c)
    (hc' : Culprit ns'.parents [] i' c') : ns.name c = ns'.name c' := by
  have hnames := hc.map h (by simp) hi
  have hnames' := hc'.map h' (by simp) hi'
  rw [hname] at hnames
  exact hnames.unique hnames'

/-- What is answered for two nodes of one name is the same, whatever has been asked for before. -/
theorem linearize_renamed (h : Renaming ns.parents up ns.name S)
    (h' : Renaming ns'.parents up ns'.name S') (hi : S i) (hi' : S' i')
    (hname : ns.name i = ns'.name i') (hmemo : Follows ns memo) (hmemo' : Follows ns' memo') :
    (∀ l, (linearize ns memo i).2 = .ok l →
      ∃ l', (linearize ns' memo' i').2 = .ok l' ∧ ns'.names l' = ns.names l) ∧
    ∀ f, (linearize ns memo i).2 = .error f →
      ∃ f', (linearize ns' memo' i').2 = .error f' ∧
        (f'.report ns' i').name = (f.report ns i).name ∧
        (f'.report ns' i').requested = (f.report ns i).requested := by
  constructor
  · intro l hl
    have hrule := (linearize_eq_ok_iff hmemo).1 hl
    obtain ⟨l', hl', heq⟩ := names_of_linearizes h h' hi hi' hname hrule
    exact ⟨l', (linearize_eq_ok_iff hmemo').2 hl', heq⟩
  · intro f hf
    have hstuck := (linearize_isError_iff hmemo).1 ⟨f, hf⟩
    have hstuck' : ¬ Linearizable ns'.parents i' := by
      rintro ⟨l', hl'⟩
      obtain ⟨l, hl, _⟩ := names_of_linearizes h' h hi' hi hname.symm hl'
      exact hstuck ⟨l, hl⟩
    obtain ⟨f', hf'⟩ := (linearize_isError_iff hmemo').2 hstuck'
    have hnode : ns.name f.node = ns'.name f'.node :=
      name_culprit_eq h h' hi hi' hname (culprit_of_linearize hmemo hf)
        (culprit_of_linearize hmemo' hf')
    refine ⟨f', hf', ?_, ?_⟩
    · rw [HierarchyFault.name_report, HierarchyFault.name_report, hnode]
    · rw [HierarchyFault.requested_report, HierarchyFault.requested_report, hname, hnode]

end Lineage.Linearization
