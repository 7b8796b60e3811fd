import Lineage.Proofs.Yaml.Depth
import Lineage.Proofs.Yaml.Scanning
import Lineage.Proofs.Yaml.Values

/-!
# Why a source holds no document

A source is scanned, parsed, composed and made into values, and each of these stages can fail. Where
all of them keep to the rules of the format and the source itself can be read, there is one reason
left: some value that the source spells does not exist (`Unvalued`).
-/

namespace Lineage.Yaml

/-! ## The faults of readers -/

/-- An outcome that does not blame the bytes of the document. -/
abbrev Readable {α : Type} (x : Except Fault α) : Prop :=
  Meets (· ≠ .unreadable) (fun _ => True) x

theorem readable_charsOf {t : Text} {f : Fault} (hf : f ≠ .unreadable := by decide) :
    Readable (charsOf t f) := by
  unfold charsOf
  split
  · trivial
  · exact hf

theorem readable_readTruth (t : Text) : Readable (readTruth t) := by
  unfold readTruth
  refine Meets.ite (fun _ => trivial) fun _ => Meets.ite (fun _ => trivial) fun _ => ?_
  exact (nofun : Fault.truthValue _ ≠ .unreadable)

theorem readable_orFault (n : Option Int) : Readable (readMagnitude.orFault n) := by
  cases n with
  | none => exact nofun
  | some n => trivial

theorem readable_readMagnitude (cs : List Char) : Readable (readMagnitude cs) := by
  unfold readMagnitude
  split
  · exact nofun
  · exact readable_orFault _
  · exact readable_orFault _
  · exact Meets.ite (fun _ => trivial) fun _ => readable_orFault _
  · exact Meets.ite (fun _ => readable_orFault _) fun _ => readable_orFault _

theorem readable_readWhole (t : Text) : Readable (readWhole t) := by
  unfold readWhole
  refine Meets.bind readable_charsOf fun cs _ => ?_
  split
  · exact nofun
  · exact (readable_readMagnitude _).map fun _ _ => trivial
  · exact (readable_readMagnitude _).map fun _ _ => trivial
  · exact (readable_readMagnitude _).map fun _ _ => trivial

theorem readable_readUnsigned (cs : List Char) : Readable (readUnsigned cs) := by
  unfold readUnsigned
  refine Meets.ite (fun _ => trivial) fun _ => Meets.ite (fun _ => ?_) fun _ => ?_
  · split
    · exact Meets.foldlM trivial fun _ _ _ _ => Meets.ite (fun _ => nofun) fun _ => trivial
    · exact nofun
  · split
    · trivial
    · exact nofun

theorem readable_readReal (node : Nat) (t : Text) : Readable (readReal node t) := by
  unfold readReal
  extract_lets signed
  have hsigned (negative : Bool) (cs : List Char) : Readable (signed negative cs) :=
    Meets.ite (fun _ => trivial) fun _ => (readable_readUnsigned cs).bind fun _ _ =>
      Meets.ite (fun _ => trivial) fun _ => trivial
  refine Meets.bind readable_charsOf fun cs _ => ?_
  split
  · exact nofun
  · exact hsigned ..
  · exact hsigned ..
  · exact hsigned ..

theorem readable_readBytes (t : Text) : Readable (readBytes t) := by
  unfold readBytes
  refine Meets.bind readable_charsOf fun cs _ => Meets.ite (fun _ => ?_) fun _ => ?_
  · split
    · trivial
    · exact nofun
  · exact nofun

theorem readable_readInstant (t : Text) : Readable (readInstant t) := by
  unfold readInstant
  refine Meets.bind readable_charsOf fun cs _ => ?_
  split
  · exact nofun
  · split
    · exact nofun
    · trivial
    · split
      · trivial
      · exact nofun

theorem readable_of_scalarReader? {i : Nat} {direct : Bool} {name : String}
    {read : Text → Except Fault Data} (h : Making.scalarReader? i direct name = some read)
    (t : Text) : Readable (read t) := by
  have hchoice {c : Prop} [Decidable c] {r : Text → Except Fault Data}
      {rest : Option (Text → Except Fault Data)} (hr : Readable (r t))
      (hrest : rest = some read → Readable (read t)) :
      (if c then some r else rest) = some read → Readable (read t) := by
    split
    · exact fun h => Option.some.inj h ▸ hr
    · exact hrest
  revert h
  unfold Making.scalarReader?
  refine hchoice ?null (hchoice ?bool (hchoice ?int (hchoice ?float (hchoice ?binary
    (hchoice ?str (hchoice ?timestamp fun h => nomatch h))))))
  case null => trivial
  case bool => exact readable_readTruth t
  case int => exact readable_readWhole t
  case float => exact readable_readReal i t
  case binary => exact readable_readBytes t
  case str => trivial
  case timestamp =>
    refine Meets.ite (fun _ => readable_readInstant t) fun _ => ?_
    exact (nofun : Fault.instantFromMapping ≠ .unreadable)

/-! ## Documents -/

/-- Why a source spells a value that does not exist: an escape or a number that cannot be read, more
collections than there is room for, or nodes without a value. -/
inductive Unvalued (room : Nat) (source : Source) : Fault → Prop
  | misspelled {f : Fault} (spelling : Misspelled source.chars f) : Unvalued room source f
  | deep (opened : room < (tokens source).countP Token.opens) : Unvalued room source .tooDeep
  | valueless {tree : Tree} {c : Composition} {root : Nat} {f : Fault}
      (parsed : Tree.ofTokens room (tokens source) = .ok (some tree))
      (composed : ({} : Composition).compose tree = .ok (c, root))
      (reason : Valueless c.nodes f) : Unvalued room source f

variable {room : Nat} {source : Source} {f : Fault}

/-- The fault breaks a rule of the format, or it is that of the source, or the source spells a value
that does not exist. -/
def Source.Explains (room : Nat) (source : Source) (f : Fault) : Prop :=
  f = .malformed ∨ source.fault = some f ∨ Unvalued room source f

theorem explains_of_ofTokens (h : Tree.ofTokens room (tokens source) = .error f) :
    source.Explains room f := by
  obtain hf | hf | ⟨rfl, hdeep⟩ := Tree.faulty_of_ofTokens h
  · exact .inl hf
  · exact (fault_of_broken_mem_tokens hf).imp_right fun hf => hf.imp_right .misspelled
  · exact .inr (.inr (.deep hdeep))

theorem makes_document (nodes : Array Node) (root : Nat) :
    Making.Makes nodes (fun _ => True) (do
      let (m, ref) ← ({ nodes } : Making).make root
      let m ← m.fillFrom nodes.size 0
      .ok (some ({ boxes := m.boxes, root := ref } : Document))) := by
  refine (Making.makes_make (Making.isOf_start nodes) root).bind fun p hp => ?_
  exact (Making.makes_fillFrom hp _ _).bind fun _ _ => trivial

/-- Where a source holds no document, it breaks a rule of the format, it cannot be read itself, or
it spells a value that does not exist. -/
theorem explains_of_ofSource (h : Document.ofSource room source = .error f) :
    source.Explains room f := by
  unfold Document.ofSource at h
  cases htree : Tree.ofTokens room (tokens source) with
  | error g =>
    rw [htree] at h
    cases h
    exact explains_of_ofTokens htree
  | ok t =>
    rw [htree] at h
    cases t with
    | none => cases h
    | some tree =>
      cases hnodes : ({} : Composition).compose tree with
      | error g =>
        simp only [bind, Except.bind, hnodes] at h
        cases h
        exact .inl ((Composition.rules_compose {} tree).of_error hnodes)
      | ok p =>
        simp only [bind, Except.bind, hnodes] at h
        have hmade := (makes_document p.1.nodes p.2).of_error h
        exact hmade.imp_right fun hf => .inr (.valueless htree hnodes hf)

theorem Misspelled.ne_unreadable {cs : List Char} (h : Misspelled cs f) : f ≠ .unreadable := by
  cases h with
  | escape _ _ _ refused =>
    rintro rfl
    unfold escapedPoint at refused
    split at refused
    · cases refused
    · split at refused <;> cases refused
  | number => exact nofun

theorem Valueless.ne_unreadable {nodes : Array Node} (h : Valueless nodes f) :
    f ≠ .unreadable := by
  cases h with
  | scalar tag reader content refused =>
    exact (readable_of_scalarReader? reader _).of_error refused
  | mapping tag reader content text refused =>
    exact (readable_of_scalarReader? reader _).of_error refused
  | endless => exact nofun

/-- What a source spells is no fault of its bytes. -/
theorem Unvalued.ne_unreadable (h : Unvalued room source f) : f ≠ .unreadable := by
  cases h with
  | misspelled spelling => exact spelling.ne_unreadable
  | deep => exact nofun
  | valueless _ _ reason => exact reason.ne_unreadable

end Lineage.Yaml
