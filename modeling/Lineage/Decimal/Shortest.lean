/-!
# Shortest decimals

The decimal written for a double is the shortest one that reads back as that double, and of those
the nearest to it, an even last digit deciding between two that are as near. A finite double is
`m * 2 ^ q`; the reals that round to it form an interval around it, whose ends count exactly when
`m` is even. For one digit, two digits and so on, the two neighbours of the value on the decimal
grid with that many digits are tried in exact arithmetic.
-/

namespace Lineage.Decimal

/-- The positive decimal `0.d₁d₂…dₙ * 10 ^ point`, where `digits` is the number written
`d₁d₂…dₙ`. -/
structure Scientific where
  digits : Nat
  point : Int
deriving DecidableEq, Repr

/-- A positive double in lowest form: `numerator / denominator` with the two ends of its rounding
interval over the same denominator. -/
structure Window where
  low : Nat
  value : Nat
  high : Nat
  denominator : Nat
  closed : Bool

/-- The rounding interval of `m * 2 ^ q`; `narrow` says that the gap below is half the gap
above, as it is at a power of two. -/
def Window.ofBinary (m : Nat) (q : Int) (narrow : Bool) : Window :=
  let up := Nat.pow 2 (q - 2).toNat
  let down := Nat.pow 2 (2 - q).toNat
  { low := (4 * m - if narrow then 1 else 2) * up
    value := 4 * m * up
    high := (4 * m + 2) * up
    denominator := down
    closed := m % 2 == 0 }

/-- Whether `c * 10 ^ k` rounds to the value. -/
def Window.admits (w : Window) (c : Nat) (k : Int) : Bool :=
  let scaleUp := Nat.pow 10 k.toNat
  let scaleDown := Nat.pow 10 (-k).toNat
  let mid := c * scaleUp * w.denominator
  if w.closed then w.low * scaleDown ≤ mid && mid ≤ w.high * scaleDown
  else w.low * scaleDown < mid && mid < w.high * scaleDown

/-- The neighbour below the value on the grid of multiples of `10 ^ k`. -/
def Window.floorAt (w : Window) (k : Int) : Nat :=
  w.value * Nat.pow 10 (-k).toNat / (w.denominator * Nat.pow 10 k.toNat)

/-- Of the two neighbours `c` and `c + 1` on the grid, `c` is the nearer, or it is even and both
are as near. -/
def Window.nearBelow (w : Window) (c : Nat) (k : Int) : Bool :=
  let twice := 2 * w.value * Nat.pow 10 (-k).toNat
  let between := (2 * c + 1) * w.denominator * Nat.pow 10 k.toNat
  twice < between || twice == between && c % 2 == 0

/-- The neighbour on the grid that rounds to the value, if one does; the nearer if both do. -/
def Window.hit (w : Window) (k : Int) : Option Nat :=
  let c := w.floorAt k
  match w.admits c k, w.admits (c + 1) k with
  | true, true => if w.nearBelow c k then some c else some (c + 1)
  | true, false => some c
  | false, true => some (c + 1)
  | false, false => none

/-- The number of decimal digits of a positive number. -/
def digitCount (n : Nat) : Nat :=
  (Nat.toDigits 10 n).length

/-- The power of ten just above the value: `10 ^ (p - 1) ≤ value < 10 ^ p`. -/
def Window.magnitude (w : Window) : Int :=
  if w.denominator ≤ w.value then digitCount (w.value / w.denominator)
  else
    -- The leading zeros of the fraction are counted on an estimate that is then corrected by one.
    let guess : Nat := digitCount w.denominator - digitCount w.value
    if w.denominator ≤ w.value * Nat.pow 10 guess then 1 - (guess : Int)
    else -(guess : Int)

/-- The hit on the first of the grids with `n`, `n + 1`, … digits that has one, within `fuel`
grids, and the power of ten that it counts. -/
def Window.search (w : Window) (magnitude : Int) : Nat → Nat → Option (Nat × Int)
  | 0, _ => none
  | fuel + 1, n =>
    match w.hit (magnitude - n) with
    | some c => some (c, magnitude - n)
    | none => w.search magnitude fuel (n + 1)

/-- Trailing zeros of the digits move into the power of ten. -/
def stripZeros : Nat → Nat → Int → Nat × Int
  | 0, d, e => (d, e)
  | fuel + 1, d, e => if d % 10 == 0 && d != 0 then stripZeros fuel (d / 10) (e + 1) else (d, e)

/-- The shortest decimal of the window as digits without trailing zeros and the position of the
point behind the first digits; seventeen digits always suffice. -/
def Window.shortest (w : Window) : Scientific :=
  let (c, k) := (w.search w.magnitude 17 1).getD (w.value / w.denominator, 0)
  let (d, e) := stripZeros 20 c k
  ⟨d, e + digitCount d⟩

/-- How a number is laid out around its digits. -/
structure Layout where
  /-- The least place of the point that is still written out with zeros. -/
  leastPoint : Int
  /-- The greatest place of the point that is still written out with zeros. -/
  greatestPoint : Int
  /-- The least number of digits of an exponent. -/
  exponentWidth : Nat
  infinity : String
  notANumber : String

/-- Numbers from `0.0001` up to sixteen digits before the point are written out, others with an
exponent of at least two digits. -/
def plainLayout : Layout where
  leastPoint := -3
  greatestPoint := 16
  exponentWidth := 2
  infinity := "inf"
  notANumber := "nan"

/-- The text of a positive decimal. -/
def Scientific.render (s : Scientific) (layout : Layout) : String :=
  let ds := Nat.toDigits 10 s.digits
  let n : Int := ds.length
  if layout.leastPoint ≤ s.point && s.point ≤ layout.greatestPoint then
    if s.point ≤ 0 then
      String.ofList ("0.".toList ++ List.replicate (-s.point).toNat '0' ++ ds)
    else if n ≤ s.point then
      String.ofList (ds ++ List.replicate (s.point - n).toNat '0' ++ ".0".toList)
    else
      String.ofList (ds.take s.point.toNat ++ '.' :: ds.drop s.point.toNat)
  else
    let e := s.point - 1
    let sign : Char := if e < 0 then '-' else '+'
    let eds := Nat.toDigits 10 e.natAbs
    let lead := ds.take 1
    let rest := ds.drop 1
    String.ofList (lead ++ (if rest.isEmpty then [] else '.' :: rest) ++
      'e' :: sign :: List.replicate (layout.exponentWidth - eds.length) '0' ++ eds)

/-- The text of a double. -/
def render (x : Float) (layout : Layout := plainLayout) : String :=
  let bits := x.toBits.toNat
  let negative := bits / Nat.pow 2 63 == 1
  let exponent := bits / Nat.pow 2 52 % Nat.pow 2 11
  let fraction := bits % Nat.pow 2 52
  if exponent == 2047 then
    if fraction != 0 then layout.notANumber
    else if negative then "-" ++ layout.infinity else layout.infinity
  else
    let body :=
      if exponent == 0 && fraction == 0 then "0.0"
      else
        let m := if exponent == 0 then fraction else Nat.pow 2 52 + fraction
        let q : Int := ((if exponent == 0 then 1 else exponent : Nat) : Int) - 1075
        ((Window.ofBinary m q (fraction == 0 && decide (exponent > 1))).shortest).render layout
    if negative then "-" ++ body else body

end Lineage.Decimal
