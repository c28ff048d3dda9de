import ExprLang.TokenStream

/-!
# The grammar

A program is a sequence of expressions with semicolons between them. An expression is a chain of
operands and operators, folded by precedence climbing; an operand is a literal, a name, an
expression in parentheses, a block in braces, a conditional or a function, followed by any number
of argument lists.

Each production takes the depth to which it may still nest and stops with `Stop.tooDeep` beyond
it. Chains of operators and of argument lists are loops and do not nest, but the trees they build
do: one that cannot be assigned to is refused with its text only if that fits the depth.
-/

namespace ExprLang.Grammar

open TokenSource

variable {σ : Type} [TokenSource σ]

/-! ### Single tokens -/

/-- The next token if its lexeme is one that `p` accepts. -/
def peekIf (p : Lexeme → Bool) : Reading σ (Option Token) := do
  return (← peek).filter (p ·.lexeme)

/-- Whether a lexeme is a mark, and the mark `m` where one is asked for. -/
def isMark (m : Option String) : Lexeme → Bool
  | .mark s => m.all (· == s)
  | _ => false

def isKeyword (w : Option String) : Lexeme → Bool
  | .keyword s => w.all (· == s)
  | _ => false

def isOperator (op : Option String) : Lexeme → Bool
  | .operator s => op.all (· == s)
  | _ => false

def mark? (m : Option String) : Reading σ (Option Token) := peekIf (isMark m)

def keyword? (w : Option String) : Reading σ (Option Token) := peekIf (isKeyword w)

def operator? (op : Option String) : Reading σ (Option Token) := peekIf (isOperator op)

def atMark (m : String) : Reading σ Bool := do return (← mark? (some m)).isSome

def atKeyword (w : String) : Reading σ Bool := do return (← keyword? (some w)).isSome

def skipMark (m : String) : Reading σ Unit := do
  if ← atMark m then discard next else fail (.expectedMark m) none

def skipKeyword (w : String) : Reading σ Unit := do
  if ← atKeyword w then discard next else fail (.expectedKeyword w) none

/-- Fails at the next token. -/
def unexpected {α : Type} : Reading σ α := do
  let t ← peek
  fail (.unexpected (t.map Token.lexeme)) t

/-- Takes a name. -/
def variableName : Reading σ String := do
  let t ← next
  match t.map Token.lexeme with
  | some (.name n) => return n
  | _ => fail .expectedName t

/-- Takes a token for a truth value: true if it says `true`. -/
def truth : Reading σ Expr := do
  match ← next with
  | some t => return .truth (t.lexeme.value == "true")
  | none => unexpected

/-! ### Lists and operators -/

/-- Takes the separator that stands before every item but the first. -/
def skipSeparator (separator : String) (first : Bool) : Reading σ Unit :=
  if first then pure () else skipMark separator

/-- One round of a list: the item after those that were taken, unless the list is over. -/
def nextItem {α : Type} (stop separator : String) (item : Reading σ α) (items : List α) :
    Reading σ (Option (List α)) := do
  if ← atEnd then return none
  if ← atMark stop then return none
  skipSeparator separator items.isEmpty
  if ← atMark stop then return none
  return some ((← item) :: items)

/-- Takes items between the marks `start` and `stop`, with `separator` between two of them and
perhaps after the last. -/
def delimited {α : Type} (start stop separator : String) (item : Reading σ α) :
    Reading σ (List α) := do
  skipMark start
  let items ← loop (nextItem stop separator item) []
  skipMark stop
  return items.reverse

/-- How tightly an operator binds its operands. -/
def precedence : String → Option Nat
  | "=" => some 1
  | "||" => some 2
  | "&&" => some 3
  | "<" | ">" | "<=" | ">=" | "==" | "!=" => some 7
  | "+" | "-" => some 10
  | "*" | "/" | "%" => some 20
  | _ => none

/-- The precedence an operator must exceed to belong to the right operand of `op`: assignment
groups to the right, the others to the left. -/
def rightBound (op : String) (p : Nat) : Nat := if op == "=" then p - 1 else p

/-- Refuses to assign to `target` by the operator at `token`, quoting it within `d` levels. -/
def refuse {α : Type} (d : Nat) (token : Token) (target : Expr) : Reading σ α :=
  if target.nesting ≤ d then fail (.badTarget target) (some token) else throw .tooDeep

/-- Joins two operands by the operator at `token`, with `d` levels left. -/
def join (d : Nat) (token : Token) (op : String) (left right : Expr) : Reading σ Expr :=
  if op == "=" then
    match left with
    | .name _ => return .assign left right
    | _ => refuse d token left
  else return .binary op left right

/-- The value of a block: no items are false, a single item stands for itself. -/
def blockOf : List Expr → Expr
  | [] => .truth false
  | [e] => e
  | es => .block es

/-- One round of a call chain: the argument list that follows `callee`, if one does. -/
def nextCall (arguments : Expr → Reading σ Expr) (callee : Expr) : Reading σ (Option Expr) := do
  if ← atMark "(" then return some (← arguments callee) else return none

/-- One round of an operator chain, with `d` levels left: the operator that follows `left`, if it
binds more tightly than `bound`, and its right operand. -/
def nextOperation (d : Nat) (atom : Reading σ Expr) (climb : Nat → Expr → Reading σ Expr)
    (bound : Nat) (left : Expr) : Reading σ (Option Expr) := do
  match ← operator? none with
  | none => return none
  | some token =>
    let op := token.lexeme.value
    match precedence op with
    | none => return none
    | some p =>
      if p ≤ bound then return none
      discard next
      let operand ← atom
      let right ← climb (rightBound op p) operand
      return some (← join d token op left right)

/-- One round of a program: the expression after those that were taken, and the semicolon behind it
unless it is the last. -/
def nextStatement (expression : Reading σ Expr) (items : List Expr) :
    Reading σ (Option (List Expr)) := do
  if ← atEnd then return none
  let e ← expression
  unless ← atEnd do skipMark ";"
  return some (e :: items)

/-! ### Productions -/

mutual

def expression : Nat → Reading σ Expr
  | 0 => throw .tooDeep
  | d + 1 => do
    let left ← atom d
    let e ← climb d 0 left
    calls d e

/-- An operand with its argument lists. -/
def atom : Nat → Reading σ Expr
  | 0 => throw .tooDeep
  | d + 1 => do
    let e ← primary d
    calls d e

def primary : Nat → Reading σ Expr
  | 0 => throw .tooDeep
  | d + 1 => do
    match (← peek).map Token.lexeme with
    | some (.mark "(") =>
      discard next
      let e ← expression d
      skipMark ")"
      return e
    | some (.mark "\x7b") => block d
    | some (.keyword "if") => conditional d
    | some (.keyword "true") | some (.keyword "false") => truth
    | some (.keyword "lambda") | some (.keyword "λ") =>
      discard next
      function d
    | some (.number x) => discard next; return .number x
    | some (.text s) => discard next; return .text s
    | some (.name n) => discard next; return .name n
    | _ => unexpected

def block : Nat → Reading σ Expr
  | d + 2 => do return blockOf (← delimited "\x7b" "\x7d" "," (expression d))
  | _ => throw .tooDeep

/-- A conditional; `then` may be left out before a brace. -/
def conditional : Nat → Reading σ Expr
  | 0 => throw .tooDeep
  | d + 1 => do
    skipKeyword "if"
    let test ← expression d
    unless ← atMark "\x7b" do skipKeyword "then"
    let yes ← expression d
    if ← atKeyword "else" then
      discard next
      return .cond test yes (some (← expression d))
    return .cond test yes none

/-- The parameters and the body of a function. -/
def function : Nat → Reading σ Expr
  | 0 => throw .tooDeep
  | d + 1 => do
    let params ← delimited "(" ")" "," variableName
    return .lambda params (← expression d)

/-- One argument list for `callee`. -/
def arguments : Nat → Expr → Reading σ Expr
  | d + 2, callee => do return .call callee (← delimited "(" ")" "," (expression d))
  | _, _ => throw .tooDeep

/-- As many argument lists as there are. -/
def calls : Nat → Expr → Reading σ Expr
  | 0, _ => throw .tooDeep
  | d + 1, e => loop (nextCall (arguments d)) e

/-- Folds the operators that bind more tightly than `bound` onto `left`. -/
def climb : Nat → Nat → Expr → Reading σ Expr
  | 0, _, _ => throw .tooDeep
  | d + 1, bound, left => loop (nextOperation d (atom d) (climb d) bound) left

end

/-- A whole text: expressions with semicolons between them and perhaps after the last. -/
def program : Nat → Reading σ Expr
  | 0 => throw .tooDeep
  | d + 1 => do
    let items ← loop (nextStatement (expression d)) []
    return .block items.reverse

end ExprLang.Grammar

namespace ExprLang

/-- The tree of a program text, built with productions nested at most `limit` deep. -/
def parse (limit : Nat) (text : String) : Except (Stop SourceError) Expr :=
  match (Grammar.program limit).run (TokenStream.ofText text) with
  | .ok e _ => .ok e
  | .error e _ => .error e

end ExprLang
