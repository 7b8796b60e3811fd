import Lineage.Yaml.Document

/-!
# Room for more collections

The room for collections inside each other is looked at in one place only, where a collection is
entered, and there it makes the difference between a fault and none. So a source that is read with
some room is read as the same document with more (`ofSource_of_le`).
-/

namespace Lineage.Yaml

/-! ## Approximations -/

section

variable {ε α β : Type} {x y x' y' : Except ε α}

/-- Whatever the one computation returns, the other one returns as well. -/
structure Approximates (x y : Except ε α) : Prop where
  eq_ok {a : α} : x = .ok a → y = .ok a

namespace Approximates

/-- Every computation approximates itself. -/
theorem refl (x : Except ε α) : Approximates x x :=
  ⟨id⟩

/-- Computations that go on with what they return approximate each other step by step. -/
theorem bind {f g : α → Except ε β} (h : Approximates x y) (hfg : ∀ a, Approximates (f a) (g a)) :
    Approximates (x >>= f) (y >>= g) := by
  cases x with
  | error e => exact ⟨nofun⟩
  | ok a =>
    rw [h.eq_ok rfl]
    exact hfg a

theorem ite {c : Prop} [Decidable c] (h : Approximates x y) (h' : Approximates x' y') :
    Approximates (if c then x else x') (if c then y else y') := by
  split
  · exact h
  · exact h'

/-- Two ways to a value with which the computation goes on. -/
theorem ite_bind {c : Prop} [Decidable c] {f g : α → Except ε β} (h : Approximates x y)
    (h' : Approximates x' y') (hfg : ∀ a, Approximates (f a) (g a)) :
    Approximates (if c then x >>= f else x' >>= f) (if c then y >>= g else y' >>= g) :=
  ite (h.bind hfg) (h'.bind hfg)

end Approximates

end

/-! ## Readers with more room -/

namespace Tree

variable {handles : Handles} {room room' : Nat} {α : Type}

/-- A collection that is entered leaves more room inside where there was more. -/
theorem approximates_inside {f g : Nat → Except Fault α} (h : room ≤ room')
    (hfg : ∀ n n', n ≤ n' → Approximates (f n) (g n')) :
    Approximates (inside room >>= f) (inside room' >>= g) := by
  cases room with
  | zero => exact ⟨nofun⟩
  | succ n =>
    cases room' with
    | zero => exact absurd h (Nat.not_succ_le_zero n)
    | succ n' => exact hfg n n' (Nat.le_of_succ_le_succ h)

/-- What all readers of nodes and of their parts return, with calls of the given depth, they return
with more room. -/
structure Widens (handles : Handles) (room room' fuel : Nat) : Prop where
  node : ∀ block indentless ts, Approximates (node handles room block indentless fuel ts)
    (node handles room' block indentless fuel ts)
  blockItems : ∀ items ts, Approximates (blockItems handles room fuel items ts)
    (blockItems handles room' fuel items ts)
  indentlessItems : ∀ items ts, Approximates (indentlessItems handles room fuel items ts)
    (indentlessItems handles room' fuel items ts)
  blockEntries : ∀ entries ts, Approximates (blockEntries handles room fuel entries ts)
    (blockEntries handles room' fuel entries ts)
  flowValue : ∀ close ts, Approximates (flowValue handles room close fuel ts)
    (flowValue handles room' close fuel ts)
  flowItems : ∀ first items ts, Approximates (flowItems handles room first fuel items ts)
    (flowItems handles room' first fuel items ts)
  flowEntries : ∀ first entries ts, Approximates (flowEntries handles room first fuel entries ts)
    (flowEntries handles room' first fuel entries ts)

section

/- The readers call each other with one call less, and with the room that is left inside. -/
variable {fuel : Nat}
  (ih : ∀ less room room', fuel = less + 1 → room ≤ room' → Widens handles room room' less)
  (h : room ≤ room')
include ih h

/-- Only the start of a collection asks for room, and what it holds is read with less of it. -/
theorem approximates_node (block indentless : Bool) (ts : List Token) :
    Approximates (node handles room block indentless fuel ts)
      (node handles room' block indentless fuel ts) := by
  unfold node
  split
  · exact .refl _
  · exact .refl _
  · refine (Approximates.refl _).bind ?_
    rintro ⟨p, rest⟩
    dsimp only
    split
    · exact .refl _
    · refine .ite (approximates_inside h fun n n' hn => ?_) (.refl _)
      exact ((ih _ n n' rfl hn).indentlessItems ..).bind fun _ => .refl _
    · exact .refl _
    · refine approximates_inside h fun n n' hn => ?_
      exact ((ih _ n n' rfl hn).flowItems ..).bind fun _ => .refl _
    · refine approximates_inside h fun n n' hn => ?_
      exact ((ih _ n n' rfl hn).flowEntries ..).bind fun _ => .refl _
    · refine .ite (approximates_inside h fun n n' hn => ?_) (.refl _)
      exact ((ih _ n n' rfl hn).blockItems ..).bind fun _ => .refl _
    · refine .ite (approximates_inside h fun n n' hn => ?_) (.refl _)
      exact ((ih _ n n' rfl hn).blockEntries ..).bind fun _ => .refl _
    · exact .refl _

/-- The items of a block list are read with the room that is left in it. -/
theorem approximates_blockItems (items : List Tree) (ts : List Token) :
    Approximates (blockItems handles room fuel items ts)
      (blockItems handles room' fuel items ts) := by
  unfold blockItems
  split
  · exact .refl _
  · refine .ite ((ih _ _ _ rfl h).blockItems ..) ?_
    exact ((ih _ _ _ rfl h).node ..).bind fun _ => (ih _ _ _ rfl h).blockItems ..
  · exact .refl _
  · exact .refl _

theorem approximates_indentlessItems (items : List Tree) (ts : List Token) :
    Approximates (indentlessItems handles room fuel items ts)
      (indentlessItems handles room' fuel items ts) := by
  unfold indentlessItems
  split
  · exact .refl _
  · refine .ite ((ih _ _ _ rfl h).indentlessItems ..) ?_
    exact ((ih _ _ _ rfl h).node ..).bind fun _ => (ih _ _ _ rfl h).indentlessItems ..
  · exact .refl _

/-- A key or a value that is left out asks for no room. -/
theorem approximates_blockEntries (entries : List (Tree × Tree)) (ts : List Token) :
    Approximates (blockEntries handles room fuel entries ts)
      (blockEntries handles room' fuel entries ts) := by
  unfold blockEntries
  split
  · exact .refl _
  · rename_i fuel rest
    have hrest (k : Tree) (p : Tree × List Token) :
        Approximates (blockEntries handles room fuel ((k, p.1) :: entries) p.2)
          (blockEntries handles room' fuel ((k, p.1) :: entries) p.2) :=
      (ih _ _ _ rfl h).blockEntries ..
    refine .ite_bind (.refl _) ((ih _ _ _ rfl h).node ..) ?_
    rintro ⟨k, ts⟩
    dsimp only
    split
    · exact .ite_bind (.refl _) ((ih _ _ _ rfl h).node ..) (hrest k)
    · exact (Approximates.refl _).bind (hrest k)
  · exact .refl _
  · exact .refl _

theorem approximates_flowValue (close : Token) (ts : List Token) :
    Approximates (flowValue handles room close fuel ts)
      (flowValue handles room' close fuel ts) := by
  unfold flowValue
  split
  · exact .refl _
  · exact .ite (.refl _) ((ih _ _ _ rfl h).node ..)
  · exact .refl _

/-- A pair among the items in brackets is a collection of its own, and asks for room. -/
theorem approximates_flowItems (first : Bool) (items : List Tree) (ts : List Token) :
    Approximates (flowItems handles room first fuel items ts)
      (flowItems handles room' first fuel items ts) := by
  unfold flowItems
  split
  · exact .refl _
  · exact .refl _
  · rename_i fuel _
    extract_lets next next'
    have hnext (ts : List Token) : Approximates (next ts) (next' ts) := by
      unfold next next'
      split
      · exact .refl _
      · refine approximates_inside h fun n n' hn => ?_
        refine .ite_bind (.refl _) ((ih _ _ _ rfl hn).node ..) ?_
        rintro ⟨k, ts⟩
        refine ((ih _ _ _ rfl hn).flowValue ..).bind ?_
        rintro ⟨v, ts⟩
        exact (ih _ _ _ rfl h).flowItems ..
      · refine ((ih _ _ _ rfl h).node ..).bind ?_
        rintro ⟨item, ts⟩
        exact (ih _ _ _ rfl h).flowItems ..
    clear_value next next'
    split
    · exact hnext _
    · exact hnext _
    · exact (Approximates.refl _).bind hnext

/-- The entries of a mapping in brackets are read with the room that is left in it. -/
theorem approximates_flowEntries (first : Bool) (entries : List (Tree × Tree)) (ts : List Token) :
    Approximates (flowEntries handles room first fuel entries ts)
      (flowEntries handles room' first fuel entries ts) := by
  unfold flowEntries
  split
  · exact .refl _
  · exact .refl _
  · rename_i fuel _
    extract_lets value next value' next'
    have hnext (ts : List Token) : Approximates (next ts) (next' ts) := by
      unfold next next'
      split
      · exact .refl _
      · refine .ite_bind (.refl _) ((ih _ _ _ rfl h).node ..) ?_
        rintro ⟨k, ts⟩
        refine ((ih _ _ _ rfl h).flowValue ..).bind ?_
        rintro ⟨v, ts⟩
        exact (ih _ _ _ rfl h).flowEntries ..
      · refine ((ih _ _ _ rfl h).node ..).bind ?_
        rintro ⟨k, ts⟩
        exact (ih _ _ _ rfl h).flowEntries ..
    clear_value next next'
    split
    · exact hnext _
    · exact hnext _
    · exact (Approximates.refl _).bind hnext

end

/-- More room never takes away what is returned, however deep the calls go. -/
theorem widens (handles : Handles) (fuel : Nat) {room room' : Nat} (h : room ≤ room') :
    Widens handles room room' fuel := by
  have hstep (n : Nat)
      (ih : ∀ less room room', n = less + 1 → room ≤ room' → Widens handles room room' less)
      {room room' : Nat} (h : room ≤ room') : Widens handles room room' n :=
    ⟨approximates_node ih h, approximates_blockItems ih h, approximates_indentlessItems ih h,
      approximates_blockEntries ih h, approximates_flowValue ih h, approximates_flowItems ih h,
      approximates_flowEntries ih h⟩
  -- the calls get less deep while the rooms change, each reader going on with what is left inside
  induction fuel generalizing room room' with
  | zero => exact hstep 0 (fun _ _ _ hless => nomatch hless) h
  | succ fuel ih =>
    refine hstep (fuel + 1) (fun less n n' hless hn => ?_) h
    rw [← Nat.succ.inj hless]
    exact ih hn

/-- The tree of a document is read with more room as it is with less. -/
theorem approximates_ofTokens (h : room ≤ room') (ts : List Token) :
    Approximates (ofTokens room ts) (ofTokens room' ts) := by
  unfold ofTokens
  extract_lets bound finish
  generalize checkAnchors [] ts = ts
  split
  · exact .refl _
  · split
    case h_3 => exact ((widens _ _ h).node ..).bind fun _ => .refl _
    -- a document with directives and one with a start marker are read alike
    all_goals
      refine (Approximates.refl _).bind ?_
      rintro ⟨own, rest⟩
      dsimp only
      split
      · exact .ite_bind (.refl _) ((widens _ _ h).node ..) fun _ => .refl _
      · exact .refl _

end Tree

/-- What is read with some room is read as the same document with more. -/
theorem Document.ofSource_of_le {room room' : Nat} (h : room ≤ room') {source : Source}
    {doc : Option Document} (hdoc : ofSource room source = .ok doc) :
    ofSource room' source = .ok doc := by
  have hsource : Approximates (ofSource room source) (ofSource room' source) :=
    (Tree.approximates_ofTokens h (tokens source)).bind fun _ => .refl _
  exact hsource.eq_ok hdoc

end Lineage.Yaml
