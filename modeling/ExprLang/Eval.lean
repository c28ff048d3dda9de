import ExprLang.Grammar
import ExprLang.Operator
import ExprLang.Store

/-!
# Evaluation

Operands, callee and arguments are evaluated from left to right, and what was written or assigned
before an error stays. Evaluation nests at most to a given depth: a node costs two levels, a call of
a closure one more, and beyond the limit it stops with `Stop.tooDeep`. What native functions do is a
parameter, the `Host`.
-/

namespace ExprLang

/-- A computation over the store; the store is kept when it fails. -/
abbrev Eval := EStateM (Stop EvalError) Store

/-- What native functions do when they are called. -/
abbrev Host := Native → List Value → Eval Value

namespace Eval

def fail {α : Type} (e : EvalError) : Eval α := throw (.error e)

def ofExcept {α : Type} : Except EvalError α → Eval α
  | .ok a => pure a
  | .error e => fail e

/-- What the name means in scope `s`. -/
def valueOf (s : ScopeId) (name : String) : Eval Value := do
  match (← get).get? s name with
  | some v => return v
  | none => fail (.undefined name)

/-- Assigns in scope `s` and answers the value. -/
def assign (s : ScopeId) (name : String) (v : Value) : Eval Value := do
  match (← get).target? s name with
  | some j =>
    modify (·.define j name v)
    return v
  | none => fail (.undefined name)

def fresh : Eval Nat := modifyGet Store.fresh

/-- How values are shown one after another. -/
def displayAll : List Value → Except Overflow (List String)
  | [] => .ok []
  | v :: vs => do
    let s ← v.display
    return s :: (← displayAll vs)

/-- Prints the arguments in a line, with blanks between them; if one of them cannot be shown,
nothing is written. -/
def print (args : List Value) : Eval Value := do
  match displayAll args with
  | .error o => fail (.overflow o)
  | .ok shown =>
    modify (·.write .program (String.intercalate " " shown ++ "\n"))
    return .nothing

/-- Defines the parameters in scope `s`; those without an argument are false. -/
def bindParams (s : ScopeId) : List String → List Value → Store → Store
  | [], _, st => st
  | p :: ps, [], st => bindParams s ps [] (st.define s p .nothing)
  | p :: ps, v :: vs, st => bindParams s ps vs (st.define s p v)

/-- A new scope inside `scope` with the parameters of a call. -/
def enter (scope : ScopeId) (params : List String) (args : List Value) : Eval ScopeId :=
  modifyGet fun st =>
    let (s, st) := st.extend scope
    (s, bindParams s params args st)

/-- Refuses to assign to `target`, quoting it within `d` levels. -/
def refuse {α : Type} (d : Nat) (target : Expr) : Eval α :=
  if target.nesting ≤ d then fail (.badTarget target) else throw .tooDeep

/-- Calls a value, evaluating the body of a closure by `body`. -/
def callWith (host : Host) (body : Expr → ScopeId → Eval Value) :
    Value → List Value → Eval Value
  | .closure _ params e scope, args => do body e (← enter scope params args)
  | .native _ f, args => host f args
  | v, _ => fail (.notCallable v)

end Eval

/-- The functions that every program may use; there is only `print`. -/
def Host.builtins : Host := fun _ => Eval.print

open Eval in
/-- The value of a tree in scope `s`, nested at most `limit` levels deep. -/
def evaluate (host : Host) : (limit : Nat) → Expr → ScopeId → Eval Value
  | d + 2, e, s => match e with
    | .number x => return .number (.real x)
    | .text t => return .text t
    | .truth b => return .truth b
    | .name n => valueOf s n
    | .lambda params body => do return .closure (← fresh) params body s
    | .call callee args => do
      let f ← evaluate host d callee s
      let vs ← args.mapM fun a => evaluate host d a s
      callWith host (match d with
        | 0 => fun _ _ => throw .tooDeep
        | d + 1 => evaluate host d) f vs
    | .cond test yes no => do
      if (← evaluate host d test s).isTruthy then evaluate host d yes s
      else match no with
        | some e => evaluate host d e s
        | none => return .nothing
    | .assign (.name n) value => do assign s n (← evaluate host d value s)
    | .assign target _ => refuse d target
    | .binary op left right => do
      let l ← evaluate host d left s
      let r ← evaluate host d right s
      ofExcept (Operator.applyText op l r)
    | .block items => items.foldlM (fun _ e => evaluate host d e s) .nothing
    | .alien written => fail (.notExpression (.alien written))
  | _, _, _ => throw .tooDeep

/-- Calls a value from outside the language. -/
def Value.call (host : Host) (limit : Nat) (f : Value) (args : List Value) : Eval Value :=
  Eval.callWith host (evaluate host limit) f args

end ExprLang
