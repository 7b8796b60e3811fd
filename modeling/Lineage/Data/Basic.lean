import Lineage.Data.Calendar
import Lineage.Decimal.Read
import Lineage.Decimal.Shortest
import Lineage.Json.Basic
import Lineage.Text.Quoted

/-!
# Document data

The values that a data document can hold, before anything is known about what they are meant to
describe. Mappings keep their entries in order.
-/

namespace Lineage

/-- A value of a data document. -/
inductive Data where
  | null
  | bool (b : Bool)
  | int (i : Int)
  | real (x : Float)
  /-- A double that is no number. It equals no other value, and itself only in as far as both have
  the same origin. -/
  | nan (origin : Nat)
  | text (t : Text)
  | bytes (b : ByteArray)
  | date (d : CalendarDate)
  | instant (t : Instant)
  | list (items : List Data)
  | map (entries : List (Data × Data))
  /-- A set, with its members in the order in which it lists them. -/
  | set (members : List Data)
  | pair (first second : Data)
deriving Inhabited

namespace Data

/-- The word by which messages call the type of a value. -/
def typeWord : Data → String
  | null => "NoneType"
  | bool _ => "bool"
  | int _ => "int"
  | real _ | nan _ => "float"
  | text _ => "str"
  | bytes _ => "bytes"
  | date _ => "date"
  | instant _ => "datetime"
  | list _ => "list"
  | map _ => "dict"
  | set _ => "set"
  | pair .. => "tuple"

mutual

/-- A JSON value as document data. -/
def ofJson : Json → Data
  | .null => null
  | .bool b => bool b
  | .int i => int i
  | .real x => real x
  | .text t => text t
  | .list items => list (ofJsonItems items)
  | .record fields => map (ofJsonFields fields)

/-- The items of a JSON list as document data. -/
def ofJsonItems : List Json → List Data
  | [] => []
  | x :: xs => ofJson x :: ofJsonItems xs

/-- The fields of a JSON object as the entries of a mapping. -/
def ofJsonFields : List (Text × Json) → List (Data × Data)
  | [] => []
  | (k, x) :: fs => (text k, ofJson x) :: ofJsonFields fs

end

/-! ## Keys -/

/-- Whether the value may be a key: collections may not. -/
def isKey : Data → Bool
  | list _ | map _ | set _ => false
  | pair a b => isKey a && isKey b
  | _ => true

/-- The whole number that a double is, if it is one. -/
def wholeOf? (x : Float) : Option Int :=
  let bits := x.toBits.toNat
  let exponent := bits / Nat.pow 2 52 % Nat.pow 2 11
  let fraction := bits % Nat.pow 2 52
  let sign : Int := if bits / Nat.pow 2 63 == 1 then -1 else 1
  if exponent == 2047 then none
  else
    let m := if exponent == 0 then fraction else Nat.pow 2 52 + fraction
    let up := (if exponent == 0 then 1 else exponent) - 1075
    let down := 1075 - (if exponent == 0 then 1 else exponent)
    if m % Nat.pow 2 down == 0 then some (sign * (m * Nat.pow 2 up / Nat.pow 2 down : Nat))
    else none

/-- A truth value and a whole double count as the whole number they equal. -/
def asWhole? : Data → Option Int
  | bool b => some (if b then 1 else 0)
  | int i => some i
  | real x => wholeOf? x
  | _ => none

/-- Whether two values are the same key of a mapping. -/
def sameKey (a b : Data) : Bool :=
  match asWhole? a, asWhole? b with
  | some x, some y => x == y
  | some _, none => false
  | none, some _ => false
  | none, none =>
    match a, b with
    | null, null => true
    | real x, real y => x == y
    | nan i, nan j => i == j
    | text s, text t => s == t
    | bytes s, bytes t => s == t
    | date s, date t => s == t
    | instant s, instant t => s.coincides t
    | pair a₁ a₂, pair b₁ b₂ => sameKey a₁ b₁ && sameKey a₂ b₂
    | _, _ => false

/-- Sets an entry: a new key goes last, a known one keeps its place and takes the new value. -/
def putEntry (key value : Data) : List (Data × Data) → List (Data × Data)
  | [] => [(key, value)]
  | (k, v) :: rest =>
    if sameKey k key then (k, value) :: rest else (k, v) :: putEntry key value rest

/-- The value under a text key. -/
def entry? {α : Type} (key : Text) : List (Data × α) → Option α
  | [] => none
  | (text k, v) :: rest => if k == key then some v else entry? key rest
  | _ :: rest => entry? key rest

/-- The bytes as a quoted text: anything but printable ASCII is spelled by its number. -/
def quotedBytes (b : ByteArray) : String :=
  let cs := b.toList.map fun n => Char.ofNat n.toNat
  let q := Text.quoteFor cs
  let spell (c : Char) : List Char :=
    if c.toNat < 0x7F then Text.quoteChar q c else '\\' :: 'x' :: Text.hexPadded 2 c.toNat
  String.ofList ('b' :: q :: cs.flatMap spell ++ [q])

/-- The signed offset of an instant as days and seconds. -/
def offsetText (minutes : Int) : String :=
  let seconds := minutes * 60
  let days := seconds.fdiv 86400
  let rest := seconds - days * 86400
  if minutes == 0 then "datetime.timezone.utc"
  else
    let parts := (if days == 0 then [] else [s!"days={days}"])
      ++ (if rest == 0 then [] else [s!"seconds={rest}"])
    let inner := ", ".intercalate parts
    s!"datetime.timezone(datetime.timedelta({inner}))"

/-- A whole number in a location, where one with too many digits is not shown. -/
def wholeText (i : Int) : String :=
  let shown := toString i.natAbs
  if Decimal.digitLimit < shown.length then "<unprintable int object>"
  else if i < 0 then "-" ++ shown
  else shown

/-- How a key appears in the location of a complaint. -/
def keyText : Data → String
  | null => "None"
  | bool b => if b then "1" else "0"
  | int i => wholeText i
  | real x => Decimal.render x
  | nan _ => Decimal.plainLayout.notANumber
  | text t => t.lossy
  | bytes b => quotedBytes b
  | date d => s!"datetime.date({d.year}, {d.month}, {d.day})"
  | instant t =>
    let fields := [t.date.year, t.date.month, t.date.day, t.hour, t.minute]
      ++ (if t.second == 0 && t.micro == 0 then [] else [t.second])
      ++ (if t.micro == 0 then [] else [t.micro])
    let inner := ", ".intercalate (fields.map toString)
    let zone := match t.offset with
      | none => ""
      | some o => s!", tzinfo={offsetText o}"
    s!"datetime.datetime({inner}{zone})"
  | list _ | map _ | set _ | pair .. => ""

end Data

end Lineage
