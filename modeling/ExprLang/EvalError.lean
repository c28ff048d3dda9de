import ExprLang.Value

/-!
# Errors of evaluation
-/

namespace ExprLang

inductive EvalError where
  | undefined (name : String)
  | notNumber (value : Value)
  | divideByZero
  | notCallable (value : Value)
  | badTarget (target : Expr)
  | unknownOperator (op : String) (left right : Value)
  /-- Something in a tree that is no expression. -/
  | notExpression (e : Expr)
  /-- A whole number from outside that has no double. -/
  | overflow (o : Overflow)

namespace EvalError

def message : EvalError → String
  | undefined n => "Undefined variable " ++ n
  | notNumber v => "Expected number but got " ++ v.quoted
  | divideByZero => "Divide by zero"
  | notCallable v => "Cannot call " ++ v.quoted
  | badTarget e => "Cannot assign to " ++ e.quoted
  | unknownOperator op l r =>
    "Can't apply operator " ++ op ++ " to " ++ l.quoted ++ " and " ++ r.quoted
  | notExpression e => "I don't know how to evaluate " ++ e.quoted
  | overflow o => o.message

/-- Whether the error is a fault of whoever built the tree rather than of the program. -/
def isInternal : EvalError → Bool
  | notExpression _ => true
  | _ => false

end EvalError

end ExprLang
