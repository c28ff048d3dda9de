/-!
# Places in program text

Lines count from one, columns and offsets from zero, and a column is the number of characters of
its line that were passed. A cursor is the text that is left together with the place where it
starts; moving it never changes the text as a whole.
-/

namespace ExprLang

/-- How much text was passed: characters, and the line and column that leads to. -/
structure Position where
  offset : Nat
  line : Nat
  column : Nat
  deriving DecidableEq, Repr

namespace Position

def start : Position := ⟨0, 1, 0⟩

/-- The place after one more character. -/
def step (p : Position) (c : Char) : Position :=
  if c = '\n' then ⟨p.offset + 1, p.line + 1, 0⟩ else ⟨p.offset + 1, p.line, p.column + 1⟩

/-- The place after more text. -/
def after (p : Position) (cs : List Char) : Position := cs.foldl step p

end Position

/-- A place in a text, and the text from there on. -/
structure Cursor where
  rest : List Char
  pos : Position
  deriving DecidableEq, Repr

namespace Cursor

def ofText (text : String) : Cursor := ⟨text.toList, .start⟩

def peek? (c : Cursor) : Option Char := c.rest.head?

def atEnd (c : Cursor) : Bool := c.rest.isEmpty

/-- The cursor `n` characters further on, or at the end. -/
def advance (c : Cursor) (n : Nat) : Cursor := ⟨c.rest.drop n, c.pos.after (c.rest.take n)⟩

/-- The next character, if any, and the cursor behind it. -/
def next (c : Cursor) : Option Char × Cursor := (c.peek?, c.advance 1)

end Cursor

end ExprLang
