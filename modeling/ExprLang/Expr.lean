import ExprLang.Decimal
import ExprLang.Text.Quoted

/-!
# Expressions

The tree of a program. Trees built by hand may hold operators the language does not have, targets
that cannot be assigned to, and things that are no expressions at all; evaluation answers each of
these with an error that quotes the tree.
-/

namespace ExprLang

inductive Expr where
  | number (value : Float)
  | text (value : String)
  | truth (value : Bool)
  | name (name : String)
  | lambda (params : List String) (body : Expr)
  | call (callee : Expr) (args : List Expr)
  | cond (test yes : Expr) (no : Option Expr)
  | assign (target value : Expr)
  | binary (operator : String) (left right : Expr)
  /-- Expressions evaluated in turn; the value is that of the last. -/
  | block (items : List Expr)
  /-- Something that stands in a tree without being an expression, by its text in messages. -/
  | alien (written : String)
  deriving Inhabited

namespace Expr

/-- A list of quoted items in parentheses; a single item is followed by a comma. -/
def tuple : List String → String
  | [] => "()"
  | [item] => "(" ++ item ++ ",)"
  | items => "(" ++ String.intercalate ", " items ++ ")"

def quotedTruth (b : Bool) : String := if b then "True" else "False"

mutual

/-- The text of a tree inside a message. -/
def quoted : Expr → String
  | number x => "Number(value=" ++ Double.text x ++ ")"
  | text s => "String(value=" ++ Text.quoted s ++ ")"
  | truth b => "Bool(value=" ++ quotedTruth b ++ ")"
  | name n => "Var(name=" ++ Text.quoted n ++ ")"
  | lambda params body =>
    "Lambda(params=" ++ tuple (params.map Text.quoted) ++ ", body=" ++ body.quoted ++ ")"
  | call callee args =>
    "Call(func=" ++ callee.quoted ++ ", args=" ++ tuple (quotedAll args) ++ ")"
  | cond test yes no =>
    "If(condition=" ++ test.quoted ++ ", then=" ++ yes.quoted ++ ", otherwise="
      ++ quotedElse no ++ ")"
  | assign target value => "Assign(target=" ++ target.quoted ++ ", value=" ++ value.quoted ++ ")"
  | binary op left right =>
    "Binary(operator=" ++ Text.quoted op ++ ", left=" ++ left.quoted ++ ", right="
      ++ right.quoted ++ ")"
  | block items => "Program(body=" ++ tuple (quotedAll items) ++ ")"
  | alien written => written

def quotedAll : List Expr → List String
  | [] => []
  | e :: es => e.quoted :: quotedAll es

def quotedElse : Option Expr → String
  | none => "None"
  | some e => e.quoted

end

mutual

/-- How many levels quoting a tree nests: three for a node, one more for a list of nodes. -/
def nesting : Expr → Nat
  | number _ | text _ | truth _ | name _ | alien _ => 3
  | lambda _ body => body.nesting + 3
  | call callee args => max callee.nesting (nestingAll args + 1) + 3
  | cond test yes no => max (max test.nesting yes.nesting) (nestingElse no) + 3
  | assign target value => max target.nesting value.nesting + 3
  | binary _ left right => max left.nesting right.nesting + 3
  | block items => nestingAll items + 4

def nestingAll : List Expr → Nat
  | [] => 0
  | e :: es => max e.nesting (nestingAll es)

def nestingElse : Option Expr → Nat
  | none => 0
  | some e => e.nesting

end

/-- The text of a tree inside a message, if quoting it nests at most `limit` levels deep. -/
def quoted? (limit : Nat) (e : Expr) : Option String :=
  if e.nesting ≤ limit then some e.quoted else none

/-- Goes one node down, if there are levels left for it. -/
def guarded (limit : Nat) (x : Nat → Option Bool) : Option Bool :=
  if 3 ≤ limit then x (limit - 3) else none

/-- Both, looking at the second only if the first holds. -/
def both (a b : Option Bool) : Option Bool :=
  match a with
  | some true => b
  | r => r

mutual

/-- Whether two trees are alike, part by part up to the first difference; `none` if that nests more
than `limit` levels deep, at the cost that quoting has. -/
def alike? (limit : Nat) : Expr → Expr → Option Bool
  | lambda ps b, lambda qs c =>
    guarded limit fun n => both (some (ps == qs)) (alike? n b c)
  | call f as, call g bs =>
    guarded limit fun n => both (alike? n f g) (alikeAll? (n - 1) as bs)
  | cond t y e, cond t' y' e' =>
    guarded limit fun n => both (alike? n t t') (both (alike? n y y') (alikeElse? n e e'))
  | assign t v, assign t' v' =>
    guarded limit fun n => both (alike? n t t') (alike? n v v')
  | binary o l r, binary o' l' r' =>
    guarded limit fun n => both (some (o == o')) (both (alike? n l l') (alike? n r r'))
  | block as, block bs => guarded limit fun n => alikeAll? (n - 1) as bs
  | number x, number y => some (x == y)
  | text s, text t => some (s == t)
  | truth a, truth b => some (a == b)
  | name m, name n => some (m == n)
  | alien s, alien t => some (s == t)
  | _, _ => some false

def alikeAll? (limit : Nat) : List Expr → List Expr → Option Bool
  | [], [] => some true
  | a :: as, b :: bs => both (alike? limit a b) (alikeAll? limit as bs)
  | _, _ => some false

def alikeElse? (limit : Nat) : Option Expr → Option Expr → Option Bool
  | none, none => some true
  | some a, some b => alike? limit a b
  | _, _ => some false

end

end Expr

end ExprLang
