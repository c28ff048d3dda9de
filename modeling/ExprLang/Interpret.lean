import ExprLang.Eval
import ExprLang.Failure

/-!
# Interpreting a text

A text is parsed as a whole before any of it is evaluated.
-/

namespace ExprLang

/-- How deep productions and evaluation may nest unless told otherwise. -/
def defaultLimit : Nat := 1000

/-- The value of the program `text` in scope `s`. -/
def interpret (host : Host) (limit : Nat) (text : String) (s : ScopeId) :
    EStateM Failure Store Value :=
  fun st => match parse limit text with
    | .error e => .error (.ofParse e) st
    | .ok program => match (evaluate host limit program s).run st with
      | .ok v st => .ok v st
      | .error e st => .error (.ofEval e) st

section
variable {host : Host} {limit : Nat} {text : String} {program : Expr} {s : ScopeId} {st st' : Store}

theorem interpret_of_unparsed {e : Stop SourceError} (h : parse limit text = .error e) :
    interpret host limit text s st = .error (.ofParse e) st := by
  simp only [interpret, h]

theorem interpret_of_value {v : Value} (h : parse limit text = .ok program)
    (hv : evaluate host limit program s st = .ok v st') :
    interpret host limit text s st = .ok v st' := by
  simp only [interpret, h, EStateM.run, hv]

theorem interpret_of_failure {e : Stop EvalError} (h : parse limit text = .ok program)
    (he : evaluate host limit program s st = .error e st') :
    interpret host limit text s st = .error (.ofEval e) st' := by
  simp only [interpret, h, EStateM.run, he]

end

end ExprLang
