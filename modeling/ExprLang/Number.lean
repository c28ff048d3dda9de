import ExprLang.Decimal

/-!
# Numbers

Programs compute with doubles; an embedding program may also hand in whole numbers of any size.
Whole numbers stay whole under `+`, `-` and `*`, and meet a double by becoming one. Comparisons
are exact on both kinds.
-/

namespace ExprLang

inductive Number where
  | int (n : Int)
  | real (x : Float)
  deriving DecidableEq

/-- Whole numbers that have no double. -/
inductive Overflow where
  /-- A whole number beyond the largest double. -/
  | conversion
  /-- A quotient of whole numbers beyond the largest double. -/
  | quotient
  deriving DecidableEq, Repr

def Overflow.message : Overflow → String
  | conversion => "int too large to convert to float"
  | quotient => "integer division result too large for a float"

namespace Number

def toDouble : Number → Except Overflow Float
  | int n => match Double.ofInt? n with
    | some x => .ok x
    | none => .error .conversion
  | real x => .ok x

def isZero : Number → Bool
  | int n => n == 0
  | real x => x == 0

/-- Applies `whole` to two whole numbers, `double` otherwise. -/
def combine (whole : Int → Int → Int) (double : Float → Float → Float) :
    Number → Number → Except Overflow Number
  | int m, int n => .ok (int (whole m n))
  | a, b => do return real (double (← a.toDouble) (← b.toDouble))

def add : Number → Number → Except Overflow Number := combine (· + ·) (· + ·)

def sub : Number → Number → Except Overflow Number := combine (· - ·) (· - ·)

def mul : Number → Number → Except Overflow Number := combine (· * ·) (· * ·)

/-- The quotient by a number that is not zero; of two whole numbers, their ratio rounded once. -/
def div : Number → Number → Except Overflow Number
  | int m, int n =>
    let q := Double.ofRatio (decide (m < 0) != decide (n < 0)) m.natAbs n.natAbs
    if q.isInf then .error .quotient else .ok (real q)
  | a, b => do return real ((← a.toDouble) / (← b.toDouble))

/-- The remainder by a number that is not zero, with the sign of the dividend. -/
def mod (a b : Number) : Except Overflow Number := do
  let x ← a.toDouble
  if x.isInf then return real Double.nan
  return real (Double.remainder x (← b.toDouble))

/-- The order of two numbers; `none` if one is NaN. -/
def compare : Number → Number → Option Ordering
  | int m, int n => some (Ord.compare m n)
  | int m, real y => Double.compareInt m y
  | real x, int n => (Double.compareInt n x).map Ordering.swap
  | real x, real y =>
    if x < y then some .lt else if y < x then some .gt else if x == y then some .eq else none

/-- The text of a number inside a message. -/
def quoted : Number → String
  | int n => toString n
  | real x => Double.text x

/-- Whole numbers below this bound are shown without point and exponent. -/
def plainBound : Nat := 1000000000000000000000

/-- How a program shows a double. -/
def displayDouble (x : Float) : String :=
  match Double.view x with
  | .nan => "NaN"
  | .infinite negative => if negative then "-Infinity" else "Infinity"
  | .finite negative 0 _ => if negative then "-0" else "0"
  | .finite .. => match Double.toInt? x with
    | some n => if n.natAbs < plainBound then toString n else Double.text x
    | none => Double.text x

/-- How a program shows a number; a whole number too large for a double cannot be shown. -/
def display : Number → Except Overflow String
  | int n => do
    let x ← (int n).toDouble
    return if n.natAbs < plainBound then toString n else Double.text x
  | real x => .ok (displayDouble x)

end Number

end ExprLang
