import ExprLang.SourceError

/-!
# Sources of tokens

What reading a program needs from the thing that holds its tokens: to look at the next token, to
take it, and to say where reading has come to. What was read is never given back: every operation
keeps the source as it stands when it fails.
-/

namespace ExprLang

/-- A lexeme and the line and column behind it. -/
structure Token where
  lexeme : Lexeme
  line : Nat
  column : Nat
  deriving DecidableEq

/-- The text of a token inside a message. -/
def Token.quoted (t : Token) : String :=
  "Token(" ++ t.lexeme.kind ++ ", " ++ t.lexeme.quoted ++ ")"

/-- A computation that takes tokens from a source. -/
abbrev Reading (σ : Type) := EStateM (Stop SourceError) σ

class TokenSource (σ : Type) where
  /-- Looks at the next token and leaves it; `none` at the end. -/
  peek : Reading σ (Option Token)
  /-- Takes the next token; `none` at the end. -/
  next : Reading σ (Option Token)
  /-- The line and column that reading has come to. -/
  place : σ → Nat × Nat
  /-- No more than this many tokens are left. -/
  size : σ → Nat

namespace TokenSource

variable {σ : Type} [TokenSource σ] {α : Type}

/-- Fails behind `token`, or at the place that reading has come to. -/
def failIn (stage : Stage) (complaint : Complaint) (token : Option Token) : Reading σ α := do
  let (line, column) := place (← get)
  throw <| .error <| match token with
    | some t => .at stage complaint t.line t.column
    | none => .at stage complaint line column

def fail (complaint : Complaint) (token : Option Token) : Reading σ α :=
  failIn .parse complaint token

def atEnd : Reading σ Bool := do return (← peek).isNone

/-! ### Loops -/

/-- Repeats `step` until it answers `none`, at most `n` times. -/
def iterate (step : α → Reading σ (Option α)) : Nat → α → Reading σ α
  | 0, a => pure a
  | n + 1, a => do
    match ← step a with
    | none => return a
    | some b => iterate step n b

/-- Repeats `step`, which takes a token each time it answers, until it answers `none`. More rounds
than there are tokens left cannot happen. -/
def loop (step : α → Reading σ (Option α)) (a : α) : Reading σ α := do
  iterate step (size (← get) + 1) a

/-- The next token on top of those that were taken, if there is one. -/
def takeNext (taken : List Token) : Reading σ (Option (List Token)) := do
  if ← atEnd then return none
  return (← next).map (· :: taken)

/-- All tokens up to the end. -/
def rest : Reading σ (List Token) := do
  let taken ← loop takeNext []
  return taken.reverse

end TokenSource

end ExprLang
