import ExprLang.Cursor
import ExprLang.Expr
import ExprLang.Lexeme

/-!
# Errors in program text

What is wrong with a text, and where: the line and column that were reached when it showed. For a
character that begins no lexeme that is the place before it, for a token the place behind it.
-/

namespace ExprLang

/-- Who found the error. -/
inductive Stage where
  | lexical
  | parse
  | unspecified
  deriving DecidableEq, Repr

/-- What is wrong with a text. -/
inductive Complaint where
  | strayCharacter (c : Char)
  | expectedMark (mark : String)
  | expectedKeyword (word : String)
  | expectedName
  /-- A token, or the end of the text, that begins no expression. -/
  | unexpected (found : Option Lexeme)
  /-- An assignment to something other than a name. -/
  | badTarget (target : Expr)
  | other (description : String)

def Complaint.description : Complaint → String
  | strayCharacter c => "Can't handle character: " ++ String.ofList [c]
  | expectedMark m => "Expected punctuation: \"" ++ m ++ "\""
  | expectedKeyword w => "Expected keyword: \"" ++ w ++ "\""
  | expectedName => "Expecting variable name"
  | unexpected none => "Unexpected token: end of input"
  | unexpected (some l) => "Unexpected token: " ++ l.kind ++ " " ++ l.quoted
  | badTarget e => "Cannot assign to " ++ e.quoted
  | other d => d

structure SourceError where
  stage : Stage
  complaint : Complaint
  line : Int
  column : Int

/-- The error that `complaint` makes at a place. -/
def SourceError.at (stage : Stage) (complaint : Complaint) (line column : Nat) : SourceError :=
  ⟨stage, complaint, line, column⟩

def SourceError.message (e : SourceError) : String :=
  e.complaint.description ++ " (" ++ toString e.line ++ ":" ++ toString e.column ++ ")"

/-- How a computation ends early: with an error of its own, or because it was nested more deeply
than its limit allows. -/
inductive Stop (ε : Type) where
  | tooDeep
  | error (e : ε)

end ExprLang
