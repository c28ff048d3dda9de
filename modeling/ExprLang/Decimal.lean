import ExprLang.Double

/-!
# Decimal text of doubles

A double is written with the fewest digits that read back as the same double; of the texts with
that many digits the nearest to the exact value is taken. Both directions work on exact naturals:
`Decimal.toDouble` rounds a decimal once, and `Decimal.shortest` looks for the coarsest power of
ten with a multiple among the reals that round to the double.
-/

namespace ExprLang

/-- The number `digits · 10 ^ exponent`. -/
structure Decimal where
  digits : Nat
  exponent : Int
  deriving DecidableEq, Repr

namespace Decimal

/-- `10 ^ e` as a factor of the numerator, for `e ≥ 0`, and of the denominator, for `e ≤ 0`. -/
def pow10 (e : Int) : Nat × Nat := (Nat.pow 10 e.toNat, Nat.pow 10 (-e).toNat)

/-- The double nearest to `d`, negated if `negative`. Exponents far outside the range of doubles
are settled without writing out the power of ten. -/
def toDouble (negative : Bool) (d : Decimal) : Float :=
  if d.digits = 0 then Double.zero negative
  else if 400 < d.exponent then Double.infinity negative
  else if d.digits.log2 + 3 * d.exponent < -1100 then Double.zero negative
  else
    let (up, down) := pow10 d.exponent
    Double.ofRatio negative (d.digits * up) down

/-! ### Fewest digits -/

/-- The reals that round to a double, in units of which `down` make one: the double itself is
`value`, and the ends belong to the interval if `closed`. -/
structure Rounding where
  low : Nat
  value : Nat
  high : Nat
  down : Nat
  closed : Bool
  deriving Repr

namespace Rounding

/-- The reals that round to `m · 2 ^ q`, in quarters of the last place. Below a power of two the
doubles are twice as dense, so there the lower end is half as far. -/
def of (m : Nat) (q : Int) : Rounding :=
  let (up, down) := Double.pow2 (q - 2)
  let below := if m = Double.hiddenBit && -1074 < q then 1 else 2
  { low := (4 * m - below) * up, value := 4 * m * up, high := (4 * m + 2) * up, down,
    closed := m % 2 == 0 }

/-- Whether `c · step / scale` rounds to the double. -/
def holds (r : Rounding) (c step scale : Nat) : Bool :=
  let x := c * step * r.down
  if r.closed then r.low * scale ≤ x && x ≤ r.high * scale
  else r.low * scale < x && x < r.high * scale

/-- The multiple of `10 ^ e` that rounds to the double, the nearest if there are two, the even one
if both are as near. -/
def onGrid? (r : Rounding) (e : Int) : Option Decimal :=
  let (step, scale) := pow10 e
  let target := r.value * scale
  let width := step * r.down
  let c := target / width
  match r.holds c step scale, r.holds (c + 1) step scale with
  | true, true => some ⟨Double.divNearest target width, e⟩
  | true, false => some ⟨c, e⟩
  | false, true => some ⟨c + 1, e⟩
  | false, false => none

/-- The exponent of the leading decimal digit of the value. -/
def magnitude (r : Rounding) : Int :=
  let guess := ((r.value.log2 : Int) - r.down.log2 - 1) * 30103 / 100000
  let reaches (e : Int) : Bool :=
    let (up, down) := pow10 e
    up * r.down ≤ r.value * down
  if reaches (guess + 2) then guess + 2
  else if reaches (guess + 1) then guess + 1
  else guess

/-- The first hit on the grids `10 ^ e`, `10 ^ (e - 1)`, …, of `n + 1` grids in all. -/
def search (r : Rounding) : Nat → Int → Decimal
  | 0, e => (r.onGrid? e).getD ⟨0, e⟩
  | n + 1, e => match r.onGrid? e with
    | some d => d
    | none => search r n (e - 1)

end Rounding

/-- `d` without up to `n` zeros at the end of its digits. -/
def dropZeros : Nat → Decimal → Decimal
  | 0, d => d
  | n + 1, d => if d.digits % 10 = 0 then dropZeros n ⟨d.digits / 10, d.exponent + 1⟩ else d

/-- The decimal with the fewest digits that rounds to `m · 2 ^ q`, for `m` not zero; seventeen
digits always suffice. -/
def shortest (m : Nat) (q : Int) : Decimal :=
  let r := Rounding.of m q
  dropZeros 17 (r.search 16 r.magnitude)

/-! ### Layout -/

/-- Where the written form of a number changes from plain to scientific. -/
structure Layout where
  /-- Leading digits at `10 ^ e` with `plainFrom ≤ e < plainBelow` are written in plain form. -/
  plainFrom : Int
  plainBelow : Int
  /-- The least number of digits of an exponent. -/
  exponentWidth : Nat

/-- Plain from ten-thousandths up to sixteen digits before the point. -/
def layout : Layout := { plainFrom := -4, plainBelow := 16, exponentWidth := 2 }

def zeros (n : Nat) : List Char := List.replicate n '0'

/-- `n` in decimal, with zeros in front up to `width` digits. -/
def padded (width n : Nat) : List Char :=
  let ds := Nat.toDigits 10 n
  zeros (width - ds.length) ++ ds

/-- The text of `d`: plain form always has a point with a digit on both sides, an exponent always
has a sign. -/
def text (l : Layout) (d : Decimal) : String :=
  let ds := Nat.toDigits 10 d.digits
  let point : Int := ds.length + d.exponent
  let e := point - 1
  String.ofList <|
    if l.plainFrom ≤ e && e < l.plainBelow then
      if point ≤ 0 then '0' :: '.' :: zeros (-point).toNat ++ ds
      else if ds.length ≤ point then ds ++ zeros (point - ds.length).toNat ++ ['.', '0']
      else ds.take point.toNat ++ '.' :: ds.drop point.toNat
    else
      let tail := ds.drop 1
      ds.take 1 ++ (if tail.isEmpty then [] else '.' :: tail)
        ++ 'e' :: (if e < 0 then '-' else '+') :: padded l.exponentWidth e.natAbs

end Decimal

namespace Double

/-- The text of `x`: the fewest digits that read back. -/
def text (x : Float) : String :=
  match view x with
  | .nan => "nan"
  | .infinite negative => if negative then "-inf" else "inf"
  | .finite negative m q =>
    let body := if m = 0 then "0.0" else (Decimal.shortest m q).text Decimal.layout
    if negative then "-" ++ body else body

end Double

namespace Decimal

/-! ### Reading -/

/-- The value of a run of decimal digits. -/
def ofDigits (ds : List Char) : Nat :=
  ds.foldl (fun n c => 10 * n + (c.toNat - '0'.toNat)) 0

/-- The number written by the digits `whole` before the point and `fraction` after it. -/
def ofParts (whole fraction : List Char) (exponent : Int) : Decimal :=
  ⟨ofDigits (whole ++ fraction), exponent - fraction.length⟩

/-- The number that the lexeme `digits[.digits]` stands for. -/
def ofLexeme (cs : List Char) : Float :=
  let whole := cs.takeWhile Char.isDigit
  let fraction := (cs.dropWhile Char.isDigit).drop 1
  (ofParts whole fraction 0).toDouble false

end Decimal

end ExprLang
