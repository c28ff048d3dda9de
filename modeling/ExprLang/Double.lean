/-!
# Doubles as exact numbers

A finite double is `± m · 2 ^ q` with whole `m` and `q`. Reading a double this way, and rounding
an exact ratio of naturals back to the nearest double with ties to the even neighbour, is all that
number text, whole-number division and remainders need; none of it goes through an inexact step.
-/

namespace ExprLang

/-- What the bits of a double say. -/
inductive DoubleView where
  | nan
  | infinite (negative : Bool)
  /-- The number `m · 2 ^ q`, negated if `negative`; zero has a sign too. -/
  | finite (negative : Bool) (m : Nat) (q : Int)
  deriving DecidableEq, Repr

namespace Double

/-- The place of the leading bit of a normal double's mantissa, which is not stored: `2 ^ 52`. -/
def hiddenBit : Nat := 0x10000000000000

/-- The place of the sign bit: `2 ^ 63`. -/
def signBit : Nat := 0x8000000000000000

/-- The exact value of `x`. -/
def view (x : Float) : DoubleView :=
  let bits := x.toBits.toNat
  let negative := decide (signBit ≤ bits)
  let exponent : Nat := bits / hiddenBit % 2048
  let fraction : Nat := bits % hiddenBit
  if exponent = 2047 then
    if fraction = 0 then .infinite negative else .nan
  else if exponent = 0 then .finite negative fraction (-1074)
  else .finite negative (hiddenBit + fraction) ((exponent : Int) - 1075)

def nan : Float := Float.ofBits 0x7ff8000000000000

/-- The double whose sign bit is `negative` and whose other bits are `bits`. -/
def signed (negative : Bool) (bits : Nat) : Float :=
  Float.ofBits (UInt64.ofNat (if negative then signBit + bits else bits))

def zero (negative : Bool) : Float := signed negative 0

def infinity (negative : Bool) : Float := signed negative (2047 * hiddenBit)

/-- `n / d` rounded to a whole number, a half going to the even neighbour. -/
def divNearest (n d : Nat) : Nat :=
  let q := n / d
  let r := n % d
  if 2 * r < d then q else if d < 2 * r then q + 1 else q + q % 2

/-- `2 ^ e` as a factor of the numerator, for `e ≥ 0`, and of the denominator, for `e ≤ 0`. -/
def pow2 (e : Int) : Nat × Nat := (Nat.pow 2 e.toNat, Nat.pow 2 (-e).toNat)

/-- The double nearest to `n / d`, negated if `negative`; a tie goes to the even neighbour, and
what is at least half a step above the largest double is infinite. -/
def ofRatio (negative : Bool) (n d : Nat) : Float :=
  if n = 0 then zero negative
  else
    -- `2 ^ (k - 1) < n / d < 2 ^ (k + 1)`
    let k : Int := (n.log2 : Int) - d.log2
    let (up, down) := pow2 k
    let exponent := if d * up ≤ n * down then k else k - 1
    let unit := max (exponent - 52) (-1074)
    let (up, down) := pow2 unit
    let m := divNearest (n * down) (d * up)
    -- a mantissa that was rounded up to the next power of two carries into the exponent bits
    let bits := (unit + 1074).toNat * hiddenBit + m
    if 2047 * hiddenBit ≤ bits then infinity negative else signed negative bits

/-- The double nearest to `m · 2 ^ q`. -/
def ofDyadic (negative : Bool) (m : Nat) (q : Int) : Float :=
  let (up, down) := pow2 q
  ofRatio negative (m * up) down

/-- The double nearest to a whole number; `none` if that is infinite. -/
def ofInt? (n : Int) : Option Float :=
  let x := ofRatio (decide (n < 0)) n.natAbs 1
  if x.isInf then none else some x

/-- The remainder of `x` by `y` with the sign of `x`, exact for all finite doubles. An infinite
`x`, a zero `y` and a NaN on either side have no remainder; an infinite `y` leaves `x` as it is. -/
def remainder (x y : Float) : Float :=
  match view x, view y with
  | .finite negative m q, .finite _ m' q' =>
    if m' = 0 then nan
    else
      let unit := min q q'
      let r := m * (pow2 (q - unit)).1 % (m' * (pow2 (q' - unit)).1)
      ofDyadic negative r unit
  | .finite .., .infinite _ => x
  | _, _ => nan

/-- The whole number equal to `x`, if there is one. -/
def toInt? (x : Float) : Option Int :=
  match view x with
  | .finite negative m q =>
    let (up, down) := pow2 q
    if m * up % down = 0 then
      let n : Int := m * up / down
      some (if negative then -n else n)
    else none
  | _ => none

/-- How a whole number compares with `x`; `none` for NaN. -/
def compareInt (n : Int) (x : Float) : Option Ordering :=
  match view x with
  | .nan => none
  | .infinite negative => some (if negative then .gt else .lt)
  | .finite negative m q =>
    let (up, down) := pow2 q
    let v : Int := m * up
    some (compare (n * down) (if negative then -v else v))

end Double

end ExprLang
