/-!
# Computations that may fail

What is known of the outcome of a computation that may fail: a property of its value, or one of its
error. Both are carried through a computation together, part by part.
-/

namespace Lineage

variable {ε α β : Type} {E E' : ε → Prop} {P P' : α → Prop} {Q : β → Prop} {x y : Except ε α}

/-- The value of a computation has the one property, or its error has the other. -/
def Meets (E : ε → Prop) (P : α → Prop) : Except ε α → Prop
  | .ok a => P a
  | .error e => E e

namespace Meets

theorem of_forall (h : ∀ e, x = .error e → E e) : Meets E (fun _ => True) x := by
  cases x with
  | ok a => trivial
  | error e => exact h e rfl

theorem mono (hx : Meets E P x) (hE : ∀ e, E e → E' e) (hP : ∀ a, P a → P' a) :
    Meets E' P' x := by
  cases x with
  | ok a => exact hP a hx
  | error e => exact hE e hx

theorem and (hx : Meets E P x) (hx' : Meets E P' x) : Meets E (fun a => P a ∧ P' a) x := by
  cases x with
  | ok a => exact ⟨hx, hx'⟩
  | error e => exact hx

theorem bind {f : α → Except ε β} (hx : Meets E P x) (hf : ∀ a, P a → Meets E Q (f a)) :
    Meets E Q (x >>= f) := by
  cases x with
  | ok a => exact hf a hx
  | error e => exact hx

/-- The value of a computation is taken on as it is. -/
theorem ok_bind {a : α} {f : α → Except ε β} (h : Meets E Q (f a)) :
    Meets E Q (Except.ok a >>= f) :=
  h

theorem map {f : α → β} (hx : Meets E P x) (hf : ∀ a, P a → Q (f a)) : Meets E Q (x.map f) := by
  cases x with
  | ok a => exact hf a hx
  | error e => exact hx

theorem ite {c : Prop} [Decidable c] (hx : c → Meets E P x) (hy : ¬ c → Meets E P y) :
    Meets E P (if c then x else y) := by
  split
  · exact hx ‹c›
  · exact hy ‹¬ c›

/-- Two ways to a value with which the computation goes on. -/
theorem ite_bind {c : Prop} [Decidable c] {f : α → Except ε β} (hx : Meets E P x)
    (hy : Meets E P y) (hf : ∀ a, P a → Meets E Q (f a)) :
    Meets E Q (if c then x >>= f else y >>= f) :=
  ite (fun _ => hx.bind hf) fun _ => hy.bind hf

theorem mapM {f : α → Except ε β} (hf : ∀ a, Meets E (fun _ => True) (f a)) (as : List α) :
    Meets E (fun _ => True) (as.mapM f) := by
  induction as with
  | nil => trivial
  | cons a as ih =>
    rw [List.mapM_cons]
    exact (hf a).bind fun _ _ => ih.bind fun _ _ => trivial

theorem foldlM {f : α → β → Except ε α} {bs : List β} {a : α} (ha : P a)
    (hf : ∀ b ∈ bs, ∀ a, P a → Meets E P (f a b)) : Meets E P (bs.foldlM f a) := by
  induction bs generalizing a with
  | nil => exact ha
  | cons b bs ih =>
    rw [List.foldlM_cons]
    exact (hf b (List.mem_cons_self ..) a ha).bind fun a ha =>
      ih ha fun b hb => hf b (List.mem_cons_of_mem _ hb)

theorem of_ok {a : α} (h : Meets E P x) (hx : x = .ok a) : P a := by
  rwa [hx] at h

theorem of_error {e : ε} (h : Meets E P x) (hx : x = .error e) : E e := by
  rwa [hx] at h

end Meets

end Lineage
