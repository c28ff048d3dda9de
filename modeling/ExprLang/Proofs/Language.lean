import ExprLang.Grammar

/-!
# The language

Which sequences of lexemes are programs, said without a parser: `Derives` is the grammar as it
stands in a reference manual, with chains of operators left ungrouped. `Reads` relates a sequence
to the trees it can stand for under some grouping of its operators; what holds of every such tree
holds of the one that precedence picks.
-/

namespace ExprLang

/-- The items `us` one after another with `sep` between them, and perhaps after the last. -/
def Listed (sep : String) (us : List (List Lexeme)) (w : List Lexeme) : Prop :=
  w = List.intercalate [.mark sep] us ∨
    us ≠ [] ∧ w = List.intercalate [.mark sep] us ++ [.mark sep]

/-- The consequent `y` of a conditional as it is written: `then` may be left out before a brace. -/
def Consequent (y v : List Lexeme) : Prop :=
  v = .keyword "then" :: y ∨ v = y ∧ y.head? = some (.mark "\x7b")

def IsOperator (op : String) : Prop := (Grammar.precedence op).isSome

/-- The words that begin a function. -/
def IsLambda (word : String) : Prop := word = "lambda" ∨ word = "λ"

inductive Phrase where
  | expression
  | atom
  | primary

inductive Derives : Phrase → List Lexeme → Prop
  | operand {u : List Lexeme} (hu : Derives .atom u) : Derives .expression u
  | operation {u v : List Lexeme} {op : String} (hu : Derives .expression u) (hop : IsOperator op)
      (hv : Derives .atom v) : Derives .expression (u ++ .operator op :: v)
  | plain {u : List Lexeme} (hu : Derives .primary u) : Derives .atom u
  | call {u w : List Lexeme} {vs : List (List Lexeme)} (hu : Derives .atom u)
      (hvs : ∀ v ∈ vs, Derives .expression v) (hw : Listed "," vs w) :
      Derives .atom (u ++ .mark "(" :: w ++ [.mark ")"])
  | group {u : List Lexeme} (hu : Derives .expression u) :
      Derives .primary (.mark "(" :: u ++ [.mark ")"])
  | block {w : List Lexeme} {vs : List (List Lexeme)} (hvs : ∀ v ∈ vs, Derives .expression v)
      (hw : Listed "," vs w) : Derives .primary (.mark "\x7b" :: w ++ [.mark "\x7d"])
  | cond {c y v : List Lexeme} (hc : Derives .expression c) (hy : Derives .expression y)
      (hv : Consequent y v) : Derives .primary (.keyword "if" :: c ++ v)
  | condElse {c y v n : List Lexeme} (hc : Derives .expression c) (hy : Derives .expression y)
      (hv : Consequent y v) (hn : Derives .expression n) :
      Derives .primary (.keyword "if" :: c ++ v ++ .keyword "else" :: n)
  | yes : Derives .primary [.keyword "true"]
  | no : Derives .primary [.keyword "false"]
  | function {word : String} {params : List String} {w b : List Lexeme} (hword : IsLambda word)
      (hw : Listed "," (params.map fun n => [.name n]) w) (hb : Derives .expression b) :
      Derives .primary (.keyword word :: .mark "(" :: w ++ .mark ")" :: b)
  | number (x : Float) : Derives .primary [.number x]
  | text (s : String) : Derives .primary [.text s]
  | name (n : String) : Derives .primary [.name n]

/-- A program: expressions with semicolons between them, and perhaps after the last. -/
def IsProgram (w : List Lexeme) : Prop :=
  ∃ vs, (∀ v ∈ vs, Derives .expression v) ∧ Listed ";" vs w

/-- The words `u` stand for the tree `e` if operators and argument lists are grouped suitably. -/
inductive Reads : List Lexeme → Expr → Prop
  | number (x : Float) : Reads [.number x] (.number x)
  | text (s : String) : Reads [.text s] (.text s)
  | name (n : String) : Reads [.name n] (.name n)
  | yes : Reads [.keyword "true"] (.truth true)
  | no : Reads [.keyword "false"] (.truth false)
  | group {u : List Lexeme} {e : Expr} (hu : Reads u e) : Reads (.mark "(" :: u ++ [.mark ")"]) e
  | block {w : List Lexeme} {ps : List (List Lexeme × Expr)} (hps : ∀ p ∈ ps, Reads p.1 p.2)
      (hw : Listed "," (ps.map Prod.fst) w) :
      Reads (.mark "\x7b" :: w ++ [.mark "\x7d"]) (Grammar.blockOf (ps.map Prod.snd))
  | cond {c y v : List Lexeme} {test yes : Expr} (hc : Reads c test) (hy : Reads y yes)
      (hv : Consequent y v) : Reads (.keyword "if" :: c ++ v) (.cond test yes none)
  | condElse {c y v n : List Lexeme} {test yes no : Expr} (hc : Reads c test) (hy : Reads y yes)
      (hv : Consequent y v) (hn : Reads n no) :
      Reads (.keyword "if" :: c ++ v ++ .keyword "else" :: n) (.cond test yes (some no))
  | function {word : String} {params : List String} {w b : List Lexeme} {body : Expr}
      (hword : IsLambda word) (hw : Listed "," (params.map fun n => [.name n]) w)
      (hb : Reads b body) :
      Reads (.keyword word :: .mark "(" :: w ++ .mark ")" :: b) (.lambda params body)
  | call {u w : List Lexeme} {callee : Expr} {ps : List (List Lexeme × Expr)}
      (hu : Reads u callee) (hps : ∀ p ∈ ps, Reads p.1 p.2)
      (hw : Listed "," (ps.map Prod.fst) w) :
      Reads (u ++ .mark "(" :: w ++ [.mark ")"]) (.call callee (ps.map Prod.snd))
  | assign {u v : List Lexeme} {n : String} {value : Expr} (hu : Reads u (.name n))
      (hv : Reads v value) : Reads (u ++ .operator "=" :: v) (.assign (.name n) value)
  | binary {u v : List Lexeme} {op : String} {left right : Expr} (hop : IsOperator op)
      (hne : op ≠ "=") (hu : Reads u left) (hv : Reads v right) :
      Reads (u ++ .operator op :: v) (.binary op left right)

namespace Listed
variable {sep : String} {us : List (List Lexeme)} {u w : List Lexeme}

theorem nil : Listed sep [] [] := .inl rfl

theorem intercalate_snoc (hus : us ≠ []) : List.intercalate [.mark sep] (us ++ [u]) =
    List.intercalate [.mark sep] us ++ .mark sep :: u := by
  induction us with
  | nil => exact absurd rfl hus
  | cons v us ih =>
    cases us with
    | nil => simp
    | cons v' us =>
      have := ih (by simp)
      simp_all

theorem cons_inv (h : Listed sep (u :: us) w) :
    us = [] ∧ w = u ∨ ∃ w', w = u ++ .mark sep :: w' ∧ Listed sep us w' := by
  cases us with
  | nil =>
    rcases h with h | ⟨-, h⟩
    · exact .inl ⟨rfl, by simpa using h⟩
    · exact .inr ⟨[], by simpa using h, .nil⟩
  | cons v us =>
    refine .inr ?_
    rcases h with h | ⟨-, h⟩
    · exact ⟨List.intercalate [.mark sep] (v :: us), by simpa using h, .inl rfl⟩
    · exact ⟨List.intercalate [.mark sep] (v :: us) ++ [.mark sep], by simpa using h,
        .inr ⟨by simp, rfl⟩⟩

theorem nil_inv (h : Listed sep [] w) : w = [] := by
  rcases h with h | ⟨h, -⟩
  · exact h
  · exact absurd rfl h

end Listed

namespace Derives
variable {u v w : List Lexeme} {vs : List (List Lexeme)} {op : String}

/-- Argument lists may follow any expression: they belong to its last operand. -/
theorem expression_call (hu : Derives .expression u) (hvs : ∀ v ∈ vs, Derives .expression v)
    (hw : Listed "," vs w) : Derives .expression (u ++ .mark "(" :: w ++ [.mark ")"]) := by
  cases hu with
  | operand hu => exact .operand (.call hu hvs hw)
  | operation hu hop hv => simpa using operation hu hop (.call hv hvs hw)

/-- Chains of operators can be put one after another. -/
theorem expression_operation (hu : Derives .expression u) (hop : IsOperator op)
    (hv : Derives .expression v) : Derives .expression (u ++ .operator op :: v) := by
  generalize hp : Phrase.expression = p at hv
  induction hv with
  | operand hv => exact .operation hu hop hv
  | operation _ hop' hv' ih => simpa using operation (ih hp) hop' hv'
  | _ => cases hp

end Derives

theorem Derives.ne_nil {p : Phrase} {u : List Lexeme} (h : Derives p u) : u ≠ [] := by
  induction h <;> simp_all

theorem Reads.derives {u : List Lexeme} {e : Expr} (h : Reads u e) : Derives .expression u := by
  induction h with
  | number x => exact .operand (.plain (.number x))
  | text s => exact .operand (.plain (.text s))
  | name n => exact .operand (.plain (.name n))
  | yes => exact .operand (.plain .yes)
  | no => exact .operand (.plain .no)
  | group _ ih => exact .operand (.plain (.group ih))
  | block _ hw ih =>
    refine .operand (.plain (.block (fun v hv => ?_) hw))
    obtain ⟨p, hp, rfl⟩ := List.mem_map.1 hv
    exact ih p hp
  | cond _ _ hv ihc ihy => exact .operand (.plain (.cond ihc ihy hv))
  | condElse _ _ hv _ ihc ihy ihn => exact .operand (.plain (.condElse ihc ihy hv ihn))
  | function hword hw _ ih => exact .operand (.plain (.function hword hw ih))
  | call _ _ hw ihu ih =>
    refine Derives.expression_call ihu (fun v hv => ?_) hw
    obtain ⟨p, hp, rfl⟩ := List.mem_map.1 hv
    exact ih p hp
  | assign _ _ ihu ihv => exact ihu.expression_operation rfl ihv
  | binary hop _ _ _ ihu ihv => exact ihu.expression_operation hop ihv

end ExprLang
