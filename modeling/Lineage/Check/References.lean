import Lineage.Declaration.References
import Lineage.Graph.Config
import Lineage.Report.Basic

/-!
# Reference checks

Every name that a declaration refers to should be declared, the root and the base excepted; a
parent should be no role, and a role should be one. A name that is declared with several kinds has
the last of them. None of this keeps a graph from being built, so all findings are warnings.
-/

namespace Lineage.Check

/-- What can be wrong with a reference of `source` to `target`. -/
inductive ReferenceFinding where
  | undeclared (source : Text) (clause : Relation) (target : Text)
  | inheritsRole (source target : Text)
  | composesOther (source target : Text) (kind : Kind)
deriving DecidableEq, Repr

namespace ReferenceFinding

/-- The code of a finding. -/
def code : ReferenceFinding → String
  | undeclared .. => "UNDECLARED_TYPE"
  | inheritsRole .. => "INHERITS_ROLE"
  | composesOther .. => "DOES_NON_ROLE"

/-- The sentence that describes a finding. -/
def message : ReferenceFinding → Text
  | undeclared source clause target =>
    "'" ++ source ++ " " ++ clause.keyword ++ " " ++ target
      ++ "' references undeclared type '" ++ target ++ "'"
  | inheritsRole source target =>
    "'" ++ source ++ "' inherits from role '" ++ target ++ "'; use 'does' to compose it"
  | composesOther source target kind =>
    "'" ++ source ++ "' composes '" ++ target ++ "', which is a " ++ kind.keyword
      ++ ", not a role"

/-- The declared name that the reference belongs to. -/
def source : ReferenceFinding → Text
  | undeclared s _ _ | inheritsRole s _ | composesOther s _ _ => s

/-- The name referred to. -/
def target : ReferenceFinding → Text
  | undeclared _ _ t | inheritsRole _ t | composesOther _ t _ => t

/-- The warning for a finding. -/
def issue (f : ReferenceFinding) : Issue :=
  { code := f.code, message := f.message, severity := .warning, subject := some f.source
    details := [("referenced_type", .text f.target)] }

end ReferenceFinding

/-- A reference: the declared name, the clause and the target. -/
abbrev Reference := Text × Relation × Text

/-- All references of a model: declaration by declaration, parents before roles. -/
def allReferences (m : Model) : List Reference :=
  m.declarations.flatMap fun d =>
    d.parents.map (d.name, Relation.inherits, ·) ++ d.roles.map (d.name, Relation.composes, ·)

/-- What is wrong with a reference to a declared name of the given kind. -/
def declaredFinding? (source : Text) (clause : Relation) (target : Text) (kind : Kind) :
    Option ReferenceFinding :=
  match clause, kind with
  | .inherits, .ofRole => some (.inheritsRole source target)
  | .inherits, _ => none
  | .composes, .ofRole => none
  | .composes, k => some (.composesOther source target k)

/-- The findings on a list of references; `reported` are the undeclared names met before, which
are not reported again. -/
def findReferences (kindOf? : Text → Option Kind) (exempt : List Text) :
    List Text → List Reference → List ReferenceFinding
  | _, [] => []
  | reported, (source, clause, target) :: rest =>
    match kindOf? target with
    | some kind =>
      (declaredFinding? source clause target kind).toList
        ++ findReferences kindOf? exempt reported rest
    | none =>
      if exempt.contains target || reported.contains target then
        findReferences kindOf? exempt reported rest
      else
        .undeclared source clause target
          :: findReferences kindOf? exempt (target :: reported) rest

/-- Checks every reference of a model. -/
def references (m : Model) (c : Config := {}) : Report :=
  ⟨(findReferences m.kindOf? [c.root, c.base] [] (allReferences m)).map (·.issue)⟩

/-! ## Changes of kind -/

/-- The kind declared last for a name, among declarations listed the latest first. -/
def lastKind? (name : Text) (earlier : List Declaration) : Option Kind :=
  (earlier.find? (·.name == name)).map (·.kind)

/-- The warning that a declaration changes the kind of its name. -/
def kindChangeIssue (name : Text) (previous current : Kind) : Issue :=
  { code := "PACKAGETYPE_CHANGED"
    message :=
      "'" ++ name ++ "' redeclared as " ++ current.keyword ++ ", previously " ++ previous.keyword
    severity := .warning
    subject := some name
    details := [("previous", .text previous.keyword), ("current", .text current.keyword)] }

/-- The warning for a declaration that changes the kind of its name. -/
def kindChange? (earlier : List Declaration) (d : Declaration) : Option Issue :=
  match lastKind? d.name earlier with
  | some previous =>
    if previous = d.kind then none else some (kindChangeIssue d.name previous d.kind)
  | none => none

/-- The warnings for the declarations that change the kind of their name; `earlier` lists the
declarations before them, the latest first. -/
def kindChangesFrom : List Declaration → List Declaration → List Issue
  | _, [] => []
  | earlier, d :: rest => (kindChange? earlier d).toList ++ kindChangesFrom (d :: earlier) rest

/-- Warns where a later declaration changes the kind of a name, since the last one wins. -/
def kindChanges (m : Model) : Report :=
  ⟨kindChangesFrom [] m.declarations⟩

end Lineage.Check
