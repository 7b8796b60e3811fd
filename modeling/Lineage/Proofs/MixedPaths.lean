import Mathlib.Logic.Relation

/-!
# Paths that mix two relations

A cycle whose steps are taken from two relations shows as a cycle of one relation that is made of
both.

* Steps of `d` followed by one of `s` can be taken at once. A cycle of mixed steps then becomes a
  cycle of such long steps, unless it consists of `d` alone (`exists_cycle_of_mixed`).
* If all added steps lead to one vertex, then they close a cycle exactly if that vertex leads to
  one from which a step was added (`acyclic_withDefault_iff`).
-/

open Relation (TransGen ReflTransGen Comp)

namespace Lineage

variable {α : Type} {a b : α}

/-! ## Long steps -/

section LongSteps

variable {d s : α → α → Prop}

/-- A mixed path consists of long steps, but for the steps of `d` at its end. -/
theorem long_steps_of_mixed (h : TransGen (fun a b => d a b ∨ s a b) a b) :
    TransGen d a b ∨ ∃ x, TransGen (Comp (ReflTransGen d) s) a x ∧ ReflTransGen d x b := by
  induction h with
  | single hb =>
    rcases hb with hd | hs
    · exact Or.inl (.single hd)
    · exact Or.inr ⟨_, .single ⟨a, .refl, hs⟩, .refl⟩
  | @tail b c _ hc ih =>
    rcases ih with hab | ⟨x, hax, hxb⟩
    · rcases hc with hd | hs
      · exact Or.inl (hab.tail hd)
      · exact Or.inr ⟨c, .single ⟨b, hab.to_reflTransGen, hs⟩, .refl⟩
    · rcases hc with hd | hs
      · exact Or.inr ⟨x, hax, hxb.tail hd⟩
      · exact Or.inr ⟨c, hax.tail ⟨b, hxb, hs⟩, .refl⟩

/-- A mixed cycle is contracted to a cycle of long steps. -/
theorem exists_cycle_of_mixed (hd : ∀ a, ¬ TransGen d a a)
    (h : TransGen (fun a b => d a b ∨ s a b) a a) :
    ∃ x, TransGen (Comp (ReflTransGen d) s) x x := by
  rcases long_steps_of_mixed h with hcycle | ⟨x, hax, hxa⟩
  · exact absurd hcycle (hd a)
  · -- what is left over at the end is put in front of the first long step
    obtain ⟨y, ⟨r, har, hry⟩, hyx⟩ := TransGen.head'_iff.1 hax
    exact ⟨x, .head' ⟨r, hxa.trans har, hry⟩ hyx⟩

theorem mixed_of_long_step (h : Comp (ReflTransGen d) s a b) :
    TransGen (fun a b => d a b ∨ s a b) a b := by
  obtain ⟨r, har, hrb⟩ := h
  exact TransGen.tail' (ReflTransGen.mono (fun _ _ => Or.inl) a r har) (Or.inr hrb)

/-- Taking some steps at once does not change what leads to what. -/
theorem transGen_long_or_single_iff :
    TransGen (fun a b => Comp (ReflTransGen d) s a b ∨ d a b) a b ↔
      TransGen (fun a b => d a b ∨ s a b) a b := by
  constructor
  · refine TransGen.closed (fun x y hxy => ?_) a b
    rcases hxy with hlong | hd
    · exact mixed_of_long_step hlong
    · exact .single (Or.inl hd)
  · refine TransGen.mono (fun x y hxy => ?_) a b
    rcases hxy with hd | hs
    · exact Or.inr hd
    · exact Or.inl ⟨x, .refl, hs⟩

end LongSteps

/-! ## Added steps to one vertex -/

section WithDefault

variable {r : α → α → Prop} {q : α → Prop}

/-- The relation with a step from every vertex in `q` to the vertex `b`. -/
def WithDefault (r : α → α → Prop) (q : α → Prop) (b x y : α) : Prop :=
  r x y ∨ q x ∧ y = b

/-- A path with an added step has come by the vertex that the step leads to. -/
theorem path_withDefault {x : α} (h : TransGen (WithDefault r q b) a x) :
    TransGen r a x ∨ ReflTransGen (WithDefault r q b) b x := by
  induction h with
  | single hx =>
    rcases hx with hr | ⟨_, rfl⟩
    · exact Or.inl (.single hr)
    · exact Or.inr .refl
  | tail _ hy ih =>
    rcases ih with hax | hbx
    · rcases hy with hr | ⟨_, rfl⟩
      · exact Or.inl (hax.tail hr)
      · exact Or.inr .refl
    · exact Or.inr (hbx.tail hy)

/-- Where the vertex does not lead to any added step, none is taken behind it. -/
theorem path_behind_default (hb : ∀ t, q t → ¬ ReflTransGen r b t) {x y : α}
    (hbx : ReflTransGen r b x) (h : ReflTransGen (WithDefault r q b) x y) :
    ReflTransGen r x y := by
  induction h with
  | refl => exact .refl
  | tail _ hz ih =>
    rcases hz with hr | ⟨hq, _⟩
    · exact ih.tail hr
    · exact absurd (hbx.trans ih) (hb _ hq)

/-- The added steps close a cycle exactly if the vertex that they lead to leads to one of them. -/
theorem acyclic_withDefault_iff (hr : ∀ a, ¬ TransGen r a a) :
    (∀ a, ¬ TransGen (WithDefault r q b) a a) ↔ ∀ t, q t → ¬ ReflTransGen r b t := by
  constructor
  · intro hacyclic t hq hbt
    exact hacyclic t (.head' (Or.inr ⟨hq, rfl⟩) (ReflTransGen.mono (fun _ _ => Or.inl) b t hbt))
  · intro hb a ha
    rcases path_withDefault ha with hcycle | hba
    · exact hr a hcycle
    · -- the cycle is reached from the vertex, so no step of it was added
      have hba := path_behind_default hb .refl hba
      obtain ⟨x, hax, hxa⟩ := TransGen.head'_iff.1 ha
      rcases hax with hax | ⟨hq, _⟩
      · exact hr a (.head' hax (path_behind_default hb (hba.tail hax) hxa))
      · exact hb a hq hba

end WithDefault

end Lineage
