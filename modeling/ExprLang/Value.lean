import ExprLang.Expr
import ExprLang.Number

/-!
# Values

What expressions evaluate to. There is no null: false stands for "nothing", and it is the only
value that counts as false. Closures and native functions have an identity, which is all that
equality looks at; every other kind of value is compared by content, and values of different kinds
are never equal.
-/

namespace ExprLang

/-- A scope, by its place in the store. -/
abbrev ScopeId := Nat

/-- A function supplied from outside the language. A value holds only what the language shows of it;
what it does is for the host to say. -/
structure Native where
  /-- The name it is shown under, if it has one. -/
  name : Option String
  /-- Its text inside a message. -/
  written : String
  deriving DecidableEq

/-- The function that prints its arguments. -/
def Native.print : Native where
  name := some "print"
  written := "<function make_print.<locals>.print_>"

inductive Value where
  | number (n : Number)
  | text (s : String)
  | truth (b : Bool)
  /-- A function together with the scope it was made in. -/
  | closure (identity : Nat) (params : List String) (body : Expr) (scope : ScopeId)
  | native (identity : Nat) (function : Native)
  deriving Inhabited

namespace Value

/-- The value of an expression that has nothing to say. -/
def nothing : Value := truth false

def isNumber : Value → Bool
  | number _ => true
  | _ => false

/-- Everything but false counts as true. -/
def isTruthy : Value → Bool
  | truth b => b
  | _ => true

/-- Equality without conversion. -/
def equals : Value → Value → Bool
  | number a, number b => Number.compare a b == some .eq
  | text s, text t => s == t
  | truth a, truth b => a == b
  | closure i .., closure j .. => i == j
  | native i _, native j _ => i == j
  | _, _ => false

/-- The text of a closure with the given parameters. -/
def quotedClosure (params : List String) : String :=
  "<lambda(" ++ String.intercalate ", " params ++ ")>"

/-- The text of a value inside a message. -/
def quoted : Value → String
  | number n => n.quoted
  | text s => Text.quoted s
  | truth b => Expr.quotedTruth b
  | closure _ params .. => quotedClosure params
  | native _ f => f.written

/-- How a program shows a value. -/
def display : Value → Except Overflow String
  | number n => n.display
  | text s => .ok s
  | truth b => .ok (if b then "true" else "false")
  | closure _ params .. => .ok (quotedClosure params)
  | native _ f => .ok ("<builtin " ++ f.name.getD "function" ++ ">")

end Value

end ExprLang
