import ExprLang.EvalError
import ExprLang.SourceError
import ExprLang.Text.Utf8

/-!
# Failures

Everything that can end a run early. Language errors are the program's own: they are reported and
then over. The remaining failures are no fault of a program; a report marks them as internal, and
they are passed on after it.
-/

namespace ExprLang

inductive Failure where
  /-- An error in a program text. -/
  | source (e : SourceError)
  | evaluation (e : EvalError)
  /-- An error of the language that has no more to it than a description. -/
  | language (description : String) (isInternal : Bool)
  | tooDeep
  | interrupt
  /-- A request to end, with the status it asks for. -/
  | exit (status : Option Int)
  /-- There is no result to take. -/
  | noResult
  /-- A file that is not UTF-8. -/
  | undecodable (fault : Text.Utf8Fault)
  /-- A failure from outside, by its kind and message. -/
  | foreign (kind message : String)

namespace Failure

def ofParse : Stop SourceError → Failure
  | .tooDeep => tooDeep
  | .error e => source e

def ofEval : Stop EvalError → Failure
  | .tooDeep => tooDeep
  | .error e => evaluation e

/-- A failure that no program is to blame for, by the words a report has for it. -/
def foreign? : Failure → Option (String × String)
  | evaluation (.overflow o) => some ("OverflowError", o.message)
  | noResult => some ("IndexError", "pop from empty list")
  | undecodable fault => some ("UnicodeDecodeError", fault.message)
  | foreign kind message => some (kind, message)
  | _ => none

end Failure

/-- What a report says about a failure. -/
structure Notice where
  message : String
  isInternal : Bool
  /-- The line and column in the program text, if the failure has a place there. -/
  place : Option (Int × Int)
  deriving DecidableEq

/-- What a report says about a failure; nothing about a request to end. -/
def Failure.notice? (f : Failure) : Option Notice :=
  match f.foreign? with
  | some (kind, message) =>
    some ⟨"unknown error: '" ++ kind ++ ": " ++ message ++ "'", true, none⟩
  | none => match f with
    | .source e => some ⟨e.message, false, some (e.line, e.column)⟩
    | .evaluation e => some ⟨e.message, e.isInternal, none⟩
    | .language description isInternal => some ⟨description, isInternal, none⟩
    | .tooDeep => some ⟨"maximum recursion depth exceeded", false, none⟩
    | .interrupt => some ⟨"keyboard interrupt", false, none⟩
    | _ => none

end ExprLang
