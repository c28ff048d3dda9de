/-!
# Continued text

Whether a text that was typed so far wants another line: it ends inside a string, or more brackets
were opened than closed. Which bracket closes which does not matter here. Brackets in strings and
comments do not count.
-/

namespace ExprLang

namespace Continuation

inductive Mode where
  | code
  | comment
  | string
  /-- Inside a string, behind a backslash. -/
  | escape
  deriving DecidableEq, Repr

/-- What the text up to some place amounts to. -/
structure State where
  mode : Mode
  /-- Brackets opened minus brackets closed. -/
  depth : Int
  deriving DecidableEq, Repr

def start : State := ⟨.code, 0⟩

def isOpening (c : Char) : Bool := ['(', '{', '['].contains c

def isClosing (c : Char) : Bool := [')', '}', ']'].contains c

def step (s : State) (c : Char) : State :=
  match s.mode with
  | .comment => if c = '\n' then { s with mode := .code } else s
  | .escape => { s with mode := .string }
  | .string =>
    if c = '\\' then { s with mode := .escape }
    else if c = '"' then { s with mode := .code }
    else s
  | .code =>
    if c = '"' then { s with mode := .string }
    else if c = '#' then { s with mode := .comment }
    else if isOpening c then { s with depth := s.depth + 1 }
    else if isClosing c then { s with depth := s.depth - 1 }
    else s

def scan (text : List Char) : State := text.foldl step start

def State.inString (s : State) : Bool := s.mode == .string || s.mode == .escape

end Continuation

/-- Whether `text` leaves a string or a bracket open. -/
def continues (text : String) : Bool :=
  let s := Continuation.scan text.toList
  s.inString || 0 < s.depth

end ExprLang
