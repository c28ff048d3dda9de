import ExprLang.EvalError

/-!
# Operators

Arithmetic and order want numbers, and look at the left operand first. Both operands of `&&` and
`||` are values already, so these two only choose between them.
-/

namespace ExprLang

inductive Operator where
  | add | sub | mul | div | mod
  | and | or
  | lt | gt | le | ge
  | eq | ne
  deriving DecidableEq, Repr

namespace Operator

def ofText? : String → Option Operator
  | "+" => some add
  | "-" => some sub
  | "*" => some mul
  | "/" => some div
  | "%" => some mod
  | "&&" => some and
  | "||" => some or
  | "<" => some lt
  | ">" => some gt
  | "<=" => some le
  | ">=" => some ge
  | "==" => some eq
  | "!=" => some ne
  | _ => none

/-- The number that a value is. -/
def operand : Value → Except EvalError Number
  | .number n => .ok n
  | v => .error (.notNumber v)

/-- The number that a value is, if it can be divided by. -/
def divisor (v : Value) : Except EvalError Number := do
  let n ← operand v
  if n.isZero then throw .divideByZero
  return n

/-- The value of a calculation with numbers. -/
def calculated (r : Except Overflow Number) : Except EvalError Value :=
  match r with
  | .ok n => .ok (.number n)
  | .error o => .error (.overflow o)

/-- The remainder, with the sign of the dividend. -/
def remainder (left right : Value) : Except EvalError Value := do
  calculated (Number.mod (← operand left) (← divisor right))

/-- Whether the order of two numbers is one that `accepts`; NaN has no order. -/
def ordered (accepts : Ordering → Bool) (left right : Value) : Except EvalError Value := do
  let a ← operand left
  let b ← operand right
  return .truth ((Number.compare a b).any accepts)

def apply : Operator → Value → Value → Except EvalError Value
  | add, l, r => do calculated (Number.add (← operand l) (← operand r))
  | sub, l, r => do calculated (Number.sub (← operand l) (← operand r))
  | mul, l, r => do calculated (Number.mul (← operand l) (← operand r))
  | div, l, r => do calculated (Number.div (← operand l) (← divisor r))
  | mod, l, r => remainder l r
  | and, l, r => .ok (if l.isTruthy then r else .nothing)
  | or, l, r => .ok (if l.isTruthy then l else r)
  | lt, l, r => ordered (· == .lt) l r
  | gt, l, r => ordered (· == .gt) l r
  | le, l, r => ordered (· != .gt) l r
  | ge, l, r => ordered (· != .lt) l r
  | eq, l, r => .ok (.truth (l.equals r))
  | ne, l, r => .ok (.truth (!l.equals r))

/-- Applies the operator written `op`. -/
def applyText (op : String) (left right : Value) : Except EvalError Value :=
  match ofText? op with
  | some o => o.apply left right
  | none => .error (.unknownOperator op left right)

end Operator

end ExprLang
