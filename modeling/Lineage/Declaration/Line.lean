import Lineage.Declaration.Basic
import Lineage.Text.Blank
import Lineage.Text.CaseFold
import Lineage.Text.Expression
import Lineage.Text.Letters
import Lineage.Text.Quoted

/-!
# Declaration lines

One declaration is one line:

    kind name signature? ((is | does) name signature?)*

with white space between the parts. A name is a chain of words joined by an apostrophe, a hyphen
or a double colon; a signature is any text in square brackets that holds no square bracket. A line
is read twice, by two expressions: the first one accepts it and tells its clauses from what stands
in front of them, and the second one is found in the clauses one after the other.
-/

namespace Lineage

/-! ## Faults -/

/-- A complaint about a line of a document. -/
structure LineFault where
  message : String
  number : Option Int := none
  /-- The line as it was given. -/
  source : Option Text := none
  path : Option String := none
deriving DecidableEq, Repr, Inhabited

/-- The line, if it is a string of characters. -/
def LineFault.line (f : LineFault) : Option String :=
  f.source.bind (·.toString?)

/-- A complaint whose message starts with the line's number, when there is one. -/
def LineFault.report (message : String) (number : Option Int) (source : Option Text)
    (path : Option String := none) : LineFault :=
  { message := match number with
      | some n => s!"line {n}: {message}"
      | none => message
    number, source, path }

/-! ## Relations -/

/-- The two ways in which a type refers to another. -/
inductive Relation where
  /-- Inheritance: the target is a parent. -/
  | inherits
  /-- Composition: the target is a role. -/
  | composes
deriving DecidableEq, Repr, Inhabited

/-- The word that introduces a clause of this relation. -/
def Relation.keyword : Relation → String
  | inherits => "is"
  | composes => "does"

/-- Both relations, in the order in which the words are tried. -/
def Relation.all : List Relation :=
  [inherits, composes]

namespace Line

/-- A clause of a declaration line. -/
structure Clause where
  relation : Relation
  target : Text
  signature : Option Text
deriving DecidableEq, Repr

/-! ## The expressions -/

/-- The characters that join two words of a name. -/
def isMark (c : CodePoint) : Bool :=
  c == .char '\x27' || c == .char '-'

/-- What may stand inside a signature. -/
def isSignatureChar (c : CodePoint) : Bool :=
  c != .char '[' && c != .char ']'

/-- The parts of a line that are remembered. -/
inductive Part where
  | kind
  | name
  | signature
  | clauses
  | relation
deriving DecidableEq, Repr

open Text (Expression Reading)

/-- White space, at least one character. -/
def gap : Expression Part :=
  .plus (.one Text.isBlank)

def word : Expression Part :=
  .seq (.one Text.isWordStart) (.many (.one Text.isWordChar))

/-- Words joined by apostrophes and hyphens. -/
def identifier : Expression Part :=
  .seq word (.many (.seq (.one isMark) word))

/-- Identifiers joined by double colons. -/
def longName : Expression Part :=
  .seq identifier (.many (.seq (.literal "::") identifier))

/-- A text without brackets, in brackets. -/
def signature : Expression Part :=
  .seq (.literal "[") (.seq (.many (.one isSignatureChar)) (.literal "]"))

/-- The word of a kind. -/
def kindWord : Expression Part :=
  .anyOf (Kind.all.map fun k => .literal k.keyword)

/-- The word of a relation. -/
def relationWord : Expression Part :=
  .anyOf (Relation.all.map fun r => .literal r.keyword)

/-- A clause, from expressions for its parts. -/
def clauseOf (relation target signature : Expression Part) : Expression Part :=
  .seq gap (.seq relation (.seq gap (.seq target (.optional signature))))

/-- A whole line; what its clauses consist of is not remembered. -/
def declarationPattern : Expression Part :=
  .seq (.part .kind kindWord) (.seq gap (.seq (.part .name longName)
    (.seq (.optional (.part .signature signature))
      (.part .clauses (.many (clauseOf relationWord longName signature))))))

/-- One clause, with its parts. -/
def clausePattern : Expression Part :=
  clauseOf (.part .relation relationWord) (.part .name longName) (.part .signature signature)

/-! ## The record of a line -/

/-- The signatures given with composed roles: one for each role, its last one. -/
def roleSignatures (clauses : List Clause) : List (Text × Text) :=
  clauses.foldl
    (fun acc c =>
      match c.relation, c.signature with
      | .composes, some s => setSignature c.target s acc
      | _, _ => acc) []
where
  /-- A role met before keeps its place and takes the new signature. -/
  setSignature (role signature : Text) : List (Text × Text) → List (Text × Text)
    | [] => [(role, signature)]
    | (r, s) :: rest =>
      if r == role then (r, signature) :: rest else (r, s) :: setSignature role signature rest

/-- The targets of the clauses of one relation, in order. -/
def targets (relation : Relation) (clauses : List Clause) : List Text :=
  (clauses.filter (·.relation == relation)).map (·.target)

/-- The text of a part that is always read. -/
def textOf (r : Reading Part) (p : Part) : Text :=
  ⟨(r.part? p).getD []⟩

/-- The clause of a reading. -/
def clause (r : Reading Part) : Clause where
  relation := if textOf r .relation == Relation.inherits.keyword then .inherits else .composes
  target := textOf r .name
  signature := (r.part? .signature).map .mk

/-- The declaration that a trimmed line spells, without categories. The clauses are read a second
time, to tell their parts. -/
def declaration? (cs : List CodePoint) : Option Declaration := do
  let r ← declarationPattern.whole? cs
  let kind ← Kind.ofKeyword? (← (textOf r .kind).toString?)
  let clauses := (clausePattern.scan (textOf r .clauses).codePoints).map clause
  some {
    name := textOf r .name, kind
    signature := (r.part? .signature).map .mk
    parents := targets .inherits clauses
    roles := targets .composes clauses
    roleSignatures := roleSignatures clauses }

end Line

/-- Reads a declaration line under the given categories, which lose their distinctions of case. -/
def Declaration.ofLine (line : Text) (categories : List Text := [])
    (number : Option Int := none) : Except LineFault Declaration :=
  let text := Text.trim line.codePoints
  match Line.declaration? text with
  | some d => .ok { d with categories := nameSet (categories.map Text.caseFold) }
  | none =>
    .error (.report s!"Cannot parse declaration: {Text.quoted ⟨text⟩}" number (some line))

end Lineage
