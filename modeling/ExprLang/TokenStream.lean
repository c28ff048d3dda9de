import ExprLang.TokenSource

/-!
# Token streams

Tokens are read from a text when they are asked for, with one token of lookahead, so an error in
the text shows only when reading comes to it.
-/

namespace ExprLang

structure TokenStream where
  input : Cursor
  /-- The token that was looked at and not yet taken. -/
  lookahead : Option Token

/-- A computation that takes tokens from a stream. -/
abbrev Parse := Reading TokenStream

namespace TokenStream

def ofText (text : String) : TokenStream := ⟨.ofText text, none⟩

/-- No more than this many tokens are left. -/
def size (s : TokenStream) : Nat := s.input.rest.length + if s.lookahead.isSome then 1 else 0

/-- Skips blanks and comments, then reads one token; `none` at the end of the text. -/
def read : Parse (Option Token) := do
  let s ← get
  let c := s.input.advance (Lexeme.layoutLength false s.input.rest)
  match Lexeme.scan c.rest with
  | .nothing =>
    set { s with input := c }
    return none
  | .stray ch =>
    set { s with input := c }
    throw (.error (.at .lexical (.strayCharacter ch) c.pos.line c.pos.column))
  | .lexeme l n =>
    let c := c.advance n
    set { s with input := c }
    return some ⟨l, c.pos.line, c.pos.column⟩

/-- Takes the next token. -/
def next : Parse (Option Token) := do
  let s ← get
  match s.lookahead with
  | some t =>
    set { s with lookahead := none }
    return some t
  | none => read

/-- Looks at the next token and leaves it. -/
def peek : Parse (Option Token) := do
  match (← get).lookahead with
  | some t => return some t
  | none =>
    let t ← read
    modify fun s => { s with lookahead := t }
    return t

instance : TokenSource TokenStream where
  peek := peek
  next := next
  place s := (s.input.pos.line, s.input.pos.column)
  size := size

export TokenSource (failIn fail atEnd rest)

end TokenStream

/-- The tokens of a text. -/
def tokenize (text : String) : Except (Stop SourceError) (List Token) :=
  match TokenSource.rest.run (TokenStream.ofText text) with
  | .ok ts _ => .ok ts
  | .error e _ => .error e

end ExprLang
