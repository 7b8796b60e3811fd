import Lineage.Data.Basic
import Lineage.Decimal.Read
import Lineage.Text.Base64
import Lineage.Text.LowerCase
import Lineage.Yaml.Glyph

/-!
# Scalar values

How the text of a scalar is read under a standard tag. A tag may be written on any text, so every
reading can fail, each in its own way.
-/

namespace Lineage.Yaml

/-- The characters of a text that must not hold a surrogate. -/
def charsOf (t : Text) (fault : Fault) : Except Fault (List Char) :=
  match t.toString? with
  | some s => .ok s.toList
  | none => .error fault

/-- A truth value. -/
def readTruth (t : Text) : Except Fault Data :=
  let w := t.lowerCase
  if w == "yes" || w == "true" || w == "on" then .ok (.bool true)
  else if w == "no" || w == "false" || w == "off" then .ok (.bool false)
  else .error (.truthValue w)

/-- The parts of a text between colons. -/
def colonParts (cs : List Char) : List (List Char) :=
  cs.foldr
    (fun c parts =>
      match parts with
      | p :: ps => if c == ':' then [] :: p :: ps else (c :: p) :: ps
      | [] => [[c]]) [[]]

/-- A whole number without underscores and without its sign. -/
def readMagnitude : List Char → Except Fault Int
  | [] => .error .emptyNumber
  | '0' :: 'b' :: rest => orFault (Decimal.whole? 2 rest)
  | '0' :: 'x' :: rest => orFault (Decimal.whole? 16 rest)
  | '0' :: rest => if rest.isEmpty then .ok 0 else orFault (Decimal.whole? 8 ('0' :: rest))
  | cs =>
    if cs.contains ':' then
      orFault (((colonParts cs).mapM (Decimal.whole? 10)).map fun ds =>
        ds.foldl (fun n d => 60 * n + d) 0)
    else orFault (Decimal.whole? 10 cs)
where
  orFault : Option Int → Except Fault Int
    | some n => .ok n
    | none => .error .number

/-- A whole number. -/
def readWhole (t : Text) : Except Fault Data := do
  match (← charsOf t .number).filter (· != '_') with
  | [] => .error .emptyNumber
  | '-' :: rest => (readMagnitude rest).map fun n => .int (-n)
  | '+' :: rest => (readMagnitude rest).map .int
  | cs => (readMagnitude cs).map .int

/-- The value of parts to the base sixty, the last part counting ones. The weight of each part is a
whole number, and too great a weight is a fault even where the part is zero. -/
def sixtyValue (parts : List Float) : Except Fault Float :=
  parts.reverse.zipIdx.foldlM
    (fun sum (d, place) =>
      let weight := Decimal.ofQuotient (Nat.pow 60 place) 1
      if weight.isInf then .error .tooGreat else .ok (sum + d * weight)) 0.0

/-- The double that characters spell, without underscores, capital letters and sign. -/
def readUnsigned (cs : List Char) : Except Fault Float :=
  if cs == ".inf".toList then .ok (1.0 / 0.0)
  else if cs.contains ':' then
    match (colonParts cs).mapM Decimal.real? with
    | some parts => sixtyValue parts
    | none => .error .number
  else
    match Decimal.real? cs with
    | some x => .ok x
    | none => .error .number

/-- The word for the one value that is no number. -/
def notANumber : List Char :=
  ".nan".toList

/-- A double. What is spelled by the word for it is one value wherever it stands; every other
spelling of a value that is no number makes a value of its own, known by the number of its node. -/
def readReal (node : Nat) (t : Text) : Except Fault Data := do
  let signed (negative : Bool) (cs : List Char) : Except Fault Data :=
    if cs == notANumber then .ok (.nan 0)
    else do
      let x ← readUnsigned cs
      if x.isNaN then .ok (.nan (node + 1)) else .ok (.real (if negative then -x else x))
  match ((← charsOf t .number).filter (· != '_')).map Char.toLower with
  | [] => .error .emptyNumber
  | '-' :: rest => signed true rest
  | '+' :: rest => signed false rest
  | cs => signed false cs

/-- Bytes in base 64; only ASCII can spell them. -/
def readBytes (t : Text) : Except Fault Data := do
  let cs ← charsOf t .malformed
  if cs.all (·.toNat < 0x80) then
    match Text.Base64.decode cs with
    | some b => .ok (.bytes b)
    | none => .error .malformed
  else .error .malformed

/-! ## Dates and times -/

/-- A number of at least `least` and at most `most` ASCII digits, and what follows. -/
def digitsBetween (least most : Nat) (cs : List Char) : Option (Nat × List Char) :=
  let ds := (cs.take most).takeWhile Char.isDigit
  if ds.length < least then none
  else some (ds.foldl (fun n c => 10 * n + (c.toNat - '0'.toNat)) 0, cs.drop ds.length)

/-- The text behind a character that has to be there. -/
def expect (c : Char) : List Char → Option (List Char)
  | d :: rest => if d == c then some rest else none
  | [] => none

/-- Whether nothing is left but perhaps a line feed. -/
def atEnd (cs : List Char) : Bool :=
  cs.isEmpty || cs == ['\n']

/-- A fraction of a second behind its point, in microseconds; further digits are dropped. -/
def microseconds (ds : List Char) : Nat :=
  let six := ds.take 6
  six.foldl (fun n c => 10 * n + (c.toNat - '0'.toNat)) 0 * Nat.pow 10 (6 - six.length)

/-- An offset from universal time in minutes, if one is written, up to the end of the text. -/
def readOffset (cs : List Char) : Option (Option Int) :=
  if atEnd cs then some none
  else
    match cs.dropWhile fun c => c == ' ' || c == '\t' with
    | 'Z' :: rest => if atEnd rest then some (some 0) else none
    | c :: rest =>
      if c == '+' || c == '-' then do
        let (hours, rest) ← digitsBetween 1 2 rest
        let (minutes, rest) ←
          if atEnd rest then some (0, rest)
          else do
            let rest ← expect ':' rest
            digitsBetween 2 2 rest
        if atEnd rest then
          let m : Int := hours * 60 + minutes
          some (some (if c == '-' then -m else m))
        else none
      else none
    | [] => none

/-- The fields of a time, as they are written. -/
structure TimeFields where
  hour : Nat
  minute : Nat
  second : Nat
  micro : Nat
  offset : Option Int

/-- A time behind a date, up to the end of the text. -/
def readTime (cs : List Char) : Option TimeFields := do
  let cs ←
    match cs with
    | 'T' :: rest | 't' :: rest => some rest
    | c :: rest =>
      if c == ' ' || c == '\t' then some (rest.dropWhile fun c => c == ' ' || c == '\t') else none
    | [] => none
  let (hour, cs) ← digitsBetween 1 2 cs
  let cs ← expect ':' cs
  let (minute, cs) ← digitsBetween 2 2 cs
  let cs ← expect ':' cs
  let (second, cs) ← digitsBetween 2 2 cs
  let (micro, cs) :=
    match cs with
    | '.' :: rest =>
      (microseconds (rest.takeWhile Char.isDigit), rest.dropWhile Char.isDigit)
    | cs => (0, cs)
  let offset ← readOffset cs
  some { hour, minute, second, micro, offset }

/-- The fields of a date and perhaps a time. -/
def readFields (cs : List Char) : Option (Nat × Nat × Nat × Option TimeFields) := do
  let (year, cs) ← digitsBetween 4 4 cs
  let cs ← expect '-' cs
  let (month, cs) ← digitsBetween 1 2 cs
  let cs ← expect '-' cs
  let (day, cs) ← digitsBetween 1 2 cs
  if atEnd cs then some (year, month, day, none)
  else do
    let t ← readTime cs
    some (year, month, day, some t)

/-- A date or a time. -/
def readInstant (t : Text) : Except Fault Data := do
  match readFields (← charsOf t .notInstant) with
  | none => .error .notInstant
  | some (year, month, day, time) =>
    match CalendarDate.of? year month day, time with
    | none, _ => .error .outOfRange
    | some d, none => .ok (.date d)
    | some d, some time =>
      match Instant.of? d time.hour time.minute time.second time.micro time.offset with
      | some i => .ok (.instant i)
      | none => .error .outOfRange

end Lineage.Yaml
