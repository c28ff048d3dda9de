import ExprLang.EvalError

/-!
# Scopes

All scopes live in one store and are named by their place in it. A scope points to the scope
around it, which is older; the chain from a scope outwards ends at a root. Names are looked up
along the chain. Only a root may gain a name by assignment.

The store also holds what was written so far, and the number of identities given to functions.
-/

namespace ExprLang

/-- Who wrote a piece of text. -/
inductive Writer where
  | program
  | report
  | shell
  deriving DecidableEq, Repr

structure Piece where
  writer : Writer
  text : String
  deriving DecidableEq, Repr

structure Scope where
  vars : List (String × Value)
  parent : Option ScopeId

namespace Scope

def get? (s : Scope) (name : String) : Option Value := s.vars.lookup name

def defines (s : Scope) (name : String) : Bool := (s.get? name).isSome

/-- The bindings with `name` bound to `v`, in its old place if it had one. -/
def bind (name : String) (v : Value) : List (String × Value) → List (String × Value)
  | [] => [(name, v)]
  | (n, w) :: r => if n == name then (name, v) :: r else (n, w) :: bind name v r

def define (s : Scope) (name : String) (v : Value) : Scope :=
  { s with vars := bind name v s.vars }

/-- The bindings in the order of their names. -/
def sorted (s : Scope) : List (String × Value) := s.vars.mergeSort fun a b => a.1 ≤ b.1

end Scope

structure Store where
  scopes : Array Scope
  /-- How many functions were given an identity. -/
  identities : Nat
  output : Array Piece

namespace Store

/-- A store with nothing but an empty root. -/
def empty : Store := ⟨#[⟨[], none⟩], 0, #[]⟩

/-- The first scope of a store. -/
def root : ScopeId := 0

/-- The scopes from `i` outwards, at most `n` of them. -/
def chainUpTo (st : Store) : Nat → ScopeId → List ScopeId
  | 0, _ => []
  | n + 1, i => match st.scopes[i]? with
    | none => []
    | some s => i :: match s.parent with
      | none => []
      | some p => st.chainUpTo n p

/-- The scopes from `i` outwards. Each is older than the one before, so there are at most `i + 1`
of them. -/
def chain (st : Store) (i : ScopeId) : List ScopeId := st.chainUpTo (i + 1) i

/-- Whether scope `i` itself has the name. -/
def defines (st : Store) (name : String) (i : ScopeId) : Bool :=
  st.scopes[i]?.any (·.defines name)

/-- The nearest scope from `i` outwards that has the name. -/
def lookup? (st : Store) (i : ScopeId) (name : String) : Option ScopeId :=
  (st.chain i).find? (st.defines name)

/-- What the name means in scope `i`. -/
def get? (st : Store) (i : ScopeId) (name : String) : Option Value := do
  let j ← st.lookup? i name
  (← st.scopes[j]?).get? name

def isRoot (st : Store) (i : ScopeId) : Bool := st.scopes[i]?.any (·.parent.isNone)

def define (st : Store) (i : ScopeId) (name : String) (v : Value) : Store :=
  { st with scopes := st.scopes.modify i (·.define name v) }

/-- The scope that an assignment in scope `i` goes to: the nearest that has the name, or `i` itself
if none has it and `i` is a root. -/
def target? (st : Store) (i : ScopeId) (name : String) : Option ScopeId :=
  match st.lookup? i name with
  | some j => some j
  | none => if st.isRoot i then some i else none

/-- A new scope inside `parent`. -/
def extend (st : Store) (parent : ScopeId) : ScopeId × Store :=
  (st.scopes.size, { st with scopes := st.scopes.push ⟨[], some parent⟩ })

/-- A new identity. -/
def fresh (st : Store) : Nat × Store :=
  (st.identities, { st with identities := st.identities + 1 })

/-- A new identity for a native function. -/
def supply (st : Store) (f : Native) : Value × Store :=
  let (n, st) := st.fresh
  (.native n f, st)

/-- Defines `print` in the root. -/
def install (st : Store) : Store :=
  let (f, st) := st.supply .print
  st.define root "print" f

/-- A store whose root holds the functions every program may use. -/
def initial : Store := empty.install

def write (st : Store) (writer : Writer) (text : String) : Store :=
  { st with output := st.output.push ⟨writer, text⟩ }

/-- The text of scope `i` and of those around it inside a message. -/
def quotedScope (st : Store) (i : ScopeId) : String :=
  (st.chain i).foldr (fun j outer =>
    let names := ((st.scopes[j]?.map Scope.sorted).getD []).map fun b => Text.quoted b.1
    "Environment([" ++ String.intercalate ", " names ++ "], parent=" ++ outer ++ ")") "None"

end Store

end ExprLang
