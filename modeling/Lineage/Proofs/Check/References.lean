import Lineage.Check.References
import Lineage.Proofs.Graph.Ingest

/-!
# What the reference checks warn about

Every warning of a reference shows the two names of some reference (`mem_findReferences`), and a
name that is neither declared nor exempt is warned about wherever it is referred to first
(`exists_findReferences`). A warning of a changed kind is about a declared name.
-/

namespace Lineage.Check

variable {kindOf? : Text → Option Kind} {exempt reported : List Text} {refs : List Reference}

theorem mem_findReferences {f : ReferenceFinding}
    (h : f ∈ findReferences kindOf? exempt reported refs) :
    ∃ r, (f.source, r, f.target) ∈ refs := by
  induction refs generalizing reported with
  | nil => cases h
  | cons ref refs ih =>
    obtain ⟨s, r, t⟩ := ref
    have hrest : ∀ {reported : List Text}, f ∈ findReferences kindOf? exempt reported refs →
        ∃ r', (f.source, r', f.target) ∈ (s, r, t) :: refs := by
      intro reported hf
      obtain ⟨r', hr'⟩ := ih hf
      exact ⟨r', List.mem_cons_of_mem _ hr'⟩
    unfold findReferences at h
    split at h
    · rename_i k _
      rw [List.mem_append, Option.mem_toList] at h
      rcases h with h | h
      · refine ⟨r, ?_⟩
        cases r <;> cases k <;> cases h <;> exact List.mem_cons_self
      · exact hrest h
    · split at h
      · exact hrest h
      · rcases List.mem_cons.1 h with rfl | h
        · exact ⟨r, List.mem_cons_self⟩
        · exact hrest h

/-- A reference to a name that is neither declared nor exempt makes for a warning about it. -/
theorem exists_findReferences {s t : Text} {r : Relation} (h : (s, r, t) ∈ refs)
    (hkind : kindOf? t = none) (hexempt : t ∉ exempt) :
    t ∈ reported ∨ ∃ f ∈ findReferences kindOf? exempt reported refs, f.target = t := by
  induction refs generalizing reported with
  | nil => cases h
  | cons ref refs ih =>
    obtain ⟨s', r', t'⟩ := ref
    unfold findReferences
    rcases List.mem_cons.1 h with heq | h
    · cases heq
      rw [hkind]
      simp only
      split
      · rename_i hskip
        rw [Bool.or_eq_true, List.contains_iff_mem, List.contains_iff_mem] at hskip
        exact Or.inl (hskip.resolve_left hexempt)
      · exact Or.inr ⟨_, List.mem_cons_self, rfl⟩
    · -- a finding for another reference comes first, and may be for the same name
      split
      · rcases @ih reported h with hreported | ⟨f, hf, hft⟩
        · exact Or.inl hreported
        · exact Or.inr ⟨f, List.mem_append_right _ hf, hft⟩
      · split
        · exact ih h
        · rcases @ih (t' :: reported) h with hreported | ⟨f, hf, hft⟩
          · rcases List.mem_cons.1 hreported with rfl | hreported
            · exact Or.inr ⟨_, List.mem_cons_self, rfl⟩
            · exact Or.inl hreported
          · exact Or.inr ⟨f, List.mem_cons_of_mem _ hf, hft⟩

theorem kindOf?_eq_none {m : Model} {t : Text} (h : ∀ d ∈ m.declarations, d.name ≠ t) :
    m.kindOf? t = none := by
  unfold Model.kindOf? Model.declarationsOf
  rw [filter_eq_nil_of_undeclared h]
  rfl

theorem mem_allReferences {m : Model} {s t : Text} {r : Relation} :
    (s, r, t) ∈ allReferences m ↔ ∃ d ∈ m.declarations, d.name = s ∧ t ∈ d.targets r := by
  unfold allReferences
  rw [List.mem_flatMap]
  refine exists_congr fun d => and_congr_right fun _ => ?_
  cases r <;> simp [Declaration.targets] <;> exact and_comm

/-- A warning of a changed kind is about a declared name. -/
theorem mem_kindChangesFrom {earlier ds : List Declaration} {issue : Issue}
    (h : issue ∈ kindChangesFrom earlier ds) :
    ∃ d ∈ ds, ∃ k, issue = kindChangeIssue d.name k d.kind := by
  induction ds generalizing earlier with
  | nil => cases h
  | cons d ds ih =>
    unfold kindChangesFrom at h
    rw [List.mem_append, Option.mem_toList] at h
    rcases h with h | h
    · unfold kindChange? at h
      split at h
      · rename_i k _
        split at h
        · cases h
        · exact ⟨d, List.mem_cons_self, k, (Option.some.inj h).symm⟩
      · cases h
    · obtain ⟨e, he, k, hk⟩ := ih h
      exact ⟨e, List.mem_cons_of_mem _ he, k, hk⟩

end Lineage.Check
