/-!
# Doubles from decimals

The double nearest to `m * 10 ^ e`, computed in exact arithmetic: the quotient is cut to 53 binary
digits (fewer below the normal range) and rounded by its remainder, a half going to the even
neighbour.
-/

namespace Lineage.Decimal

/-- The quotient of two numbers to the nearest whole number, a half going to the even one. -/
def divNearestEven (a b : Nat) : Nat :=
  let n := a / b
  let twice := 2 * (a % b)
  if twice < b then n
  else if twice == b then n + n % 2
  else n + 1

/-- The double `n * 2 ^ q`, where `n` has at most 53 binary digits, and exactly 53 unless `q` is
the least exponent. -/
def ofBinary (n : Nat) (q : Int) : Float :=
  let (n, q) := if n == Nat.pow 2 53 then (Nat.pow 2 52, q + 1) else (n, q)
  if 971 < q then Float.ofBits (0x7FF * Nat.pow 2 52).toUInt64
  else if n < Nat.pow 2 52 then Float.ofBits n.toUInt64
  else Float.ofBits ((q + 1075).toNat * Nat.pow 2 52 + (n - Nat.pow 2 52)).toUInt64

/-- The double nearest to `a / b`. -/
def ofQuotient (a b : Nat) : Float :=
  if a == 0 then 0.0
  else
    -- The quotient has `width` or `width + 1` binary digits before the point.
    let width : Int := (Nat.log2 a : Int) - Nat.log2 b - 1
    let full := width - 52
    -- One more digit than needed shows whether the exponent has to grow by one.
    let quotient (q : Int) : Nat := a * Nat.pow 2 (-q).toNat / (b * Nat.pow 2 q.toNat)
    let q := if quotient full < Nat.pow 2 53 then full else full + 1
    let q := max q (-1074)
    ofBinary (divNearestEven (a * Nat.pow 2 (-q).toNat) (b * Nat.pow 2 q.toNat)) q

/-- The double nearest to `m * 10 ^ e`. Decimals far outside the range of doubles are not
expanded. -/
def nearest (m : Nat) (e : Int) : Float :=
  let top := (Nat.toDigits 10 m).length + e
  if m == 0 || top < -400 then 0.0
  else if 400 < top then Float.ofBits (0x7FF * Nat.pow 2 52).toUInt64
  else ofQuotient (m * Nat.pow 10 e.toNat) (Nat.pow 10 (-e).toNat)

end Lineage.Decimal
