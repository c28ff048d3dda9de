import ExprLang.Decimal
import ExprLang.Text.Quoted

/-!
# Lexemes

The words of the language and how long the one at the head of a text is. Every lexeme is as long
as it can be: a number takes all digits and one point, a name all name characters, an operator all
operator characters, a string everything up to the first quote that no backslash takes, or to the
end. Between lexemes stand blanks and comments.
-/

namespace ExprLang

inductive Lexeme where
  | number (value : Float)
  | keyword (word : String)
  | name (name : String)
  /-- A string literal, by the text it stands for. -/
  | text (value : String)
  | mark (mark : String)
  | operator (op : String)
  deriving DecidableEq

namespace Lexeme

/-! ### Classes of characters -/

/-- What may stand between two lexemes, comments apart. -/
def isSpace (c : Char) : Bool := c == ' ' || c == '\t' || c == '\n'

def isNameStart (c : Char) : Bool := c.isAlpha || c == '_' || c == 'λ'

def isNamePart (c : Char) : Bool :=
  isNameStart c || c.isDigit || ['?', '!', '-', '<', '>', '='].contains c

def isOperatorPart (c : Char) : Bool :=
  ['+', '-', '*', '/', '%', '=', '&', '|', '<', '>', '!'].contains c

def isMark (c : Char) : Bool := [',', ';', '(', ')', '{', '}', '[', ']'].contains c

def keywords : List String := ["if", "then", "else", "lambda", "λ", "true", "false"]

/-! ### Lengths -/

/-- The number of leading characters in the class `p`. -/
def runLength (p : Char → Bool) (cs : List Char) : Nat := (cs.takeWhile p).length

/-- The number of leading characters that are blanks or belong to comments, which reach from `#`
through the end of the line; `comment` says that `cs` starts inside one. -/
def layoutLength : (comment : Bool) → List Char → Nat
  | _, [] => 0
  | true, c :: r => layoutLength (c != '\n') r + 1
  | false, c :: r =>
    if isSpace c then layoutLength false r + 1
    else if c == '#' then layoutLength true r + 1
    else 0

/-- The length of the number at the head: digits, with at most one point after the first. -/
def numberLength (cs : List Char) : Nat :=
  let n := runLength Char.isDigit cs
  match cs.drop n with
  | '.' :: r => n + 1 + runLength Char.isDigit r
  | _ => n

/-- Splits what follows an opening quote at the first quote that no backslash takes; without one,
all of it is the body. -/
def stringBody : List Char → List Char × Bool
  | [] => ([], false)
  | '"' :: _ => ([], true)
  | '\\' :: c :: r =>
    let (body, closed) := stringBody r
    ('\\' :: c :: body, closed)
  | c :: r =>
    let (body, closed) := stringBody r
    (c :: body, closed)

/-- The text that the body of a string literal stands for: a backslash gives way to the character
after it, and one at the very end is dropped. -/
def unescape : List Char → List Char
  | [] => []
  | ['\\'] => []
  | '\\' :: c :: r => c :: unescape r
  | c :: r => c :: unescape r

/-! ### The lexeme at the head of a text -/

/-- A run of name characters is a keyword or a name. -/
def ofWord (word : String) : Lexeme := if keywords.contains word then keyword word else name word

/-- What stands at the head of a text. -/
inductive Scan where
  /-- A lexeme and the number of its characters. -/
  | lexeme (l : Lexeme) (length : Nat)
  /-- A character that begins no lexeme. -/
  | stray (c : Char)
  | nothing
  deriving DecidableEq

/-- Reads the lexeme at the head of a text that starts with no blank and no comment. -/
def scan : List Char → Scan
  | [] => .nothing
  | c :: r =>
    let run (n : Nat) : String := String.ofList ((c :: r).take n)
    if c == '"' then
      let (body, closed) := stringBody r
      .lexeme (text (String.ofList (unescape body))) (body.length + if closed then 2 else 1)
    else if c.isDigit then
      let n := numberLength (c :: r)
      .lexeme (number (Decimal.ofLexeme ((c :: r).take n))) n
    else if isNameStart c then
      let n := runLength isNamePart (c :: r)
      .lexeme (ofWord (run n)) n
    else if isMark c then .lexeme (mark (run 1)) 1
    else if isOperatorPart c then
      let n := runLength isOperatorPart (c :: r)
      .lexeme (operator (run n)) n
    else .stray c

/-! ### Lexemes in messages -/

/-- The word for the kind of a lexeme. -/
def kind : Lexeme → String
  | number _ => "number"
  | keyword _ => "keyword"
  | name _ => "var"
  | text _ => "string"
  | mark _ => "punctuation"
  | operator _ => "operator"

/-- What a lexeme says; for a number, its text. -/
def value : Lexeme → String
  | number x => Double.text x
  | keyword s | name s | text s | mark s | operator s => s

/-- What a lexeme says, as a message quotes it. -/
def quoted : Lexeme → String
  | number x => Double.text x
  | keyword s | name s | text s | mark s | operator s => Text.quoted s

end Lexeme

end ExprLang
