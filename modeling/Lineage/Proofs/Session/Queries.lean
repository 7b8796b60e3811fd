import Lineage.Proofs.Check.Verdict
import Lineage.Output.Graph

/-!
# Asking a graph

A graph that has been built can be asked for the linearization of a type, for that linearization as
it is written, for the written graph and for the report on its types. All of these linearize types,
and whatever is found on the way is memoized, also when a type turns out to have no linearization.

The memo shortens the searches that come later, but no answer depends on it: each of the queries is
`Oblivious`. So in a sequence of queries each one is answered as if it were the first, and a type
that fails does so every time with the same report.
-/

namespace Lineage.Graph

open Linearization

/-! ## Queries -/

/-- What a finished graph can be asked for. -/
inductive Query where
  /-- The linearization of a node. -/
  | node (i : Nat)
  /-- The linearization of the type of a name. -/
  | named (name : Text)
  /-- The linearization of the type of a name, as it is written. -/
  | chain (name : Text) (format : Format)
  /-- Every type with its edges and its linearization, as they are written. -/
  | written (format : Format)
  /-- The report on the types without a linearization. -/
  | check

/-- The answer to a query. -/
inductive Answer where
  | nodes (l : List Nat)
  | text (t : Text)
  | report (r : Report)
  | refused (e : GraphError)

/-- The answer that a text is, or the refusal to write it. -/
def Answer.ofText : Except GraphError Text → Answer
  | .ok t => .text t
  | .error e => .refused e

/-- What is answered for a node: its linearization, or the report that there is none. -/
def answerNode (g : Graph) (i : Nat) : Except HierarchyFault (List Nat) → Answer
  | .ok l => .nodes l
  | .error f => .refused (.inconsistent (g.report i f))

/-- Linearizes a node to answer for it. -/
def askNode (g : Graph) (i : Nat) : Graph × Answer :=
  let (g, r) := g.linearize i
  (g, g.answerNode i r)

/-- Answers a query; the graph that is left has everything memoized that was found on the way. -/
def ask (g : Graph) : Query → Graph × Answer
  | .node i => g.askNode i
  | .named name =>
    match g.find name with
    | .ok i => g.askNode i
    | .error e => (g, .refused e)
  | .chain name format => (g.renderLinearization name format).map id Answer.ofText
  | .written format => (g.render format).map id .text
  | .check => (Check.linearization g).map id .report

/-- Answers queries one after the other. -/
def askAll (g : Graph) : List Query → List Answer
  | [] => []
  | q :: qs => (g.ask q).2 :: (g.ask q).1.askAll qs

/-- The graph with nothing memoized. -/
def forget (g : Graph) : Graph :=
  { g with memo := {} }

/-! ## What memos do not change -/

variable {β : Type} {g : Graph}

/-- An operation does not care what is memoized in a graph, as long as it follows the rule: the
answer is the one that it gives with nothing memoized. It memoizes by the rule, and it changes
nothing else. -/
def Oblivious (g : Graph) (op : Graph → Graph × β) : Prop :=
  ∀ memo, Follows g.nodes memo →
    ∃ after, Follows g.nodes after ∧
      op { g with memo } = ({ g with memo := after }, (op g.forget).2)

theorem oblivious_linearize (g : Graph) (i : Nat) : Oblivious g (·.linearize i) := by
  intro memo h
  exact ⟨_, h.linearize i, Prod.ext rfl (linearize_congr h (follows_empty g.nodes) i)⟩

theorem oblivious_linearizeAll (g : Graph) (is : List Nat) : Oblivious g (·.linearizeAll is) := by
  induction is with
  | nil =>
    intro memo h
    exact ⟨memo, h, rfl⟩
  | cons i is ih =>
    intro memo h
    obtain ⟨one, hone, heq⟩ := oblivious_linearize g i memo h
    obtain ⟨fresh, hfresh, heq'⟩ := oblivious_linearize g i {} (follows_empty g.nodes)
    obtain ⟨after, hafter, hrest⟩ := ih one hone
    obtain ⟨_, _, hrest'⟩ := ih fresh hfresh
    refine ⟨after, hafter, ?_⟩
    simp only [linearizeAll, forget] at heq heq' hrest hrest' ⊢
    rw [heq, heq', hrest, hrest']

variable {γ : Type} {op : Graph → Graph × β}

/-- What an operation gives, with something memoized and with nothing. -/
theorem Oblivious.runs (h : Oblivious g op) {memo : Memo} (hmemo : Follows g.nodes memo) :
    ∃ after fresh b, Follows g.nodes after ∧ op { g with memo } = ({ g with memo := after }, b) ∧
      op g.forget = ({ g with memo := fresh }, b) := by
  obtain ⟨after, hafter, heq⟩ := h memo hmemo
  obtain ⟨fresh, _, hfresh⟩ := h {} (follows_empty g.nodes)
  exact ⟨after, fresh, _, hafter, heq, hfresh⟩

/-- What is made of the answer may look at the graph, but not at its memo. -/
theorem Oblivious.then (h : Oblivious g op) (k : Graph → β → γ)
    (hk : ∀ memo b, k { g with memo } b = k g.forget b) :
    Oblivious g fun x => ((op x).1, k (op x).1 (op x).2) := by
  intro memo hmemo
  obtain ⟨after, fresh, b, hafter, heq, hfresh⟩ := h.runs hmemo
  refine ⟨after, hafter, ?_⟩
  simp only [heq, hfresh, hk]

theorem find_withMemo (g : Graph) (memo : Memo) (name : Text) :
    ({ g with memo } : Graph).find name = g.find name :=
  rfl

theorem find_forget (g : Graph) (name : Text) : g.forget.find name = g.find name :=
  rfl

/-! ## The queries -/

theorem oblivious_askNode (g : Graph) (i : Nat) : Oblivious g (·.askNode i) :=
  (oblivious_linearize g i).then (fun x r => x.answerNode i r) fun _ r => by
    cases r with
    | ok l => rfl
    | error f => rfl

theorem oblivious_renderLinearization (g : Graph) (name : Text) (f : Format) :
    Oblivious g (·.renderLinearization name f) := by
  intro memo h
  cases hname : g.find name with
  | error e =>
    refine ⟨memo, h, ?_⟩
    simp only [renderLinearization, find_withMemo, find_forget, hname]
  | ok i =>
    obtain ⟨after, fresh, r, hafter, heq, hfresh⟩ := (oblivious_linearize g i).runs h
    refine ⟨after, hafter, ?_⟩
    simp only [renderLinearization, find_withMemo, find_forget, hname, heq, hfresh]
    cases r with
    | ok l => rfl
    | error fault => rfl

theorem oblivious_writtenTypes (g : Graph) : Oblivious g writtenTypes :=
  (oblivious_linearizeAll g g.sorted).then
    (fun x rs => rs.filterMap fun r => x.nodes[r.1]?.map fun n => (n, x.written r.1 r.2))
    fun _ _ => rfl

theorem oblivious_render (g : Graph) (f : Format) : Oblivious g (·.render f) := by
  intro memo h
  obtain ⟨after, fresh, types, hafter, heq, hfresh⟩ := (oblivious_writtenTypes g).runs h
  refine ⟨after, hafter, ?_⟩
  simp only [render, heq, hfresh]
  cases f with
  | json => rfl
  | text => rfl

theorem oblivious_check (g : Graph) : Oblivious g Check.linearization := by
  intro memo h
  obtain ⟨after, fresh, rs, hafter, heq, hfresh⟩ := (oblivious_linearizeAll g g.sorted).runs h
  have hsorted : g.forget.sorted = g.sorted := rfl
  refine ⟨after, hafter, ?_⟩
  simp only [Check.linearization, faults, hsorted, heq, hfresh]
  rfl

theorem oblivious_askNamed (g : Graph) (name : Text) : Oblivious g (·.ask (.named name)) := by
  intro memo h
  cases hname : g.find name with
  | error e =>
    refine ⟨memo, h, ?_⟩
    simp only [ask, find_withMemo, find_forget, hname]
  | ok i =>
    obtain ⟨after, fresh, answer, hafter, heq, hfresh⟩ := (oblivious_askNode g i).runs h
    refine ⟨after, hafter, ?_⟩
    simp only [ask, find_withMemo, find_forget, hname, heq, hfresh]

theorem oblivious_ask (g : Graph) (q : Query) : Oblivious g (·.ask q) := by
  cases q with
  | node i => exact oblivious_askNode g i
  | named name => exact oblivious_askNamed g name
  | chain name f =>
    exact (oblivious_renderLinearization g name f).then (fun _ t => Answer.ofText t) fun _ _ => rfl
  | written f => exact (oblivious_render g f).then (fun _ t => Answer.text t) fun _ _ => rfl
  | check => exact (oblivious_check g).then (fun _ r => Answer.report r) fun _ _ => rfl

/-! ## Sequences of queries -/

theorem askAll_withMemo (g : Graph) (qs : List Query) {memo : Memo} (h : Follows g.nodes memo) :
    ({ g with memo } : Graph).askAll qs = qs.map fun q => (g.forget.ask q).2 := by
  induction qs generalizing memo with
  | nil => rfl
  | cons q qs ih =>
    obtain ⟨after, hafter, heq⟩ := oblivious_ask g q memo h
    simp only [askAll, List.map_cons, heq, ih hafter]

/-- In a graph that has been built, every query of a sequence is answered as it is on the graph as
it was built, whatever has been asked before and with whatever success. -/
theorem answers_of_build {ds : List Declaration} {c : Config} {g : Graph}
    (hg : build ds c = some (.ok g)) (qs : List Query) :
    g.askAll qs = qs.map fun q => (g.ask q).2 := by
  have hforget : g.forget = g := by
    unfold forget
    rw [← memo_of_build hg]
  have hanswers := askAll_withMemo g qs (follows_empty g.nodes)
  rw [← forget, hforget] at hanswers
  exact hanswers

/-- Two types that are parents of each other, asked for again after all other queries. -/
theorem answers_of_build_cycle :
    ∃ g, build [{ name := "A", parents := ["B"] }, { name := "B", parents := ["A"] }] {}
        = some (.ok g) ∧
      g.askAll [.named "A", .written .text, .check, .chain "B" .json, .named "A"] =
        [(g.ask (.named "A")).2, (g.ask (.written .text)).2, (g.ask .check).2,
          (g.ask (.chain "B" .json)).2, (g.ask (.named "A")).2] := by
  obtain ⟨g, hg, _⟩ := build_spec
    [{ name := "A", parents := ["B"] }, { name := "B", parents := ["A"] }] {}
    (unfolds_of_no_roles (by decide))
  exact ⟨g, hg, answers_of_build hg _⟩

end Lineage.Graph
