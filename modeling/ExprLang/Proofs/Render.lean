import ExprLang.Proofs.Depth
import ExprLang.Proofs.LexemeText
import ExprLang.Proofs.Recognition

/-!
# Printing and parsing

`render` prints a program with no more parentheses than it takes to read it back. Parsing undoes
it, and what can be printed that way is all that parsing ever returns (`WellFormedProgram`).

The tree of a chain of operators comes back because its grouping is the one that precedence makes:
`Folds` says of the operators of a tree that they fold onto its first operand before any operator
behind the tree is looked at.
-/

namespace ExprLang
open Grammar Lexeme

/-- The trees that can stand inside a program. -/
inductive WellFormed : Expr → Prop
  | number {x : Float} (hx : IsWritable x) : WellFormed (.number x)
  | text (s : String) : WellFormed (.text s)
  | truth (b : Bool) : WellFormed (.truth b)
  | name {n : String} (hn : IsIdentifier n) : WellFormed (.name n)
  | lambda {params : List String} {body : Expr} (hp : ∀ n ∈ params, IsIdentifier n)
      (hb : WellFormed body) : WellFormed (.lambda params body)
  | call {callee : Expr} {args : List Expr} (hc : WellFormed callee)
      (ha : ∀ a ∈ args, WellFormed a) : WellFormed (.call callee args)
  | cond {test yes : Expr} {no : Option Expr} (ht : WellFormed test) (hy : WellFormed yes)
      (hn : ∀ e ∈ no, WellFormed e) : WellFormed (.cond test yes no)
  | assign {n : String} {value : Expr} (hn : IsIdentifier n) (hv : WellFormed value) :
      WellFormed (.assign (.name n) value)
  | binary {op : String} {left right : Expr} (hop : IsOperator op) (hne : op ≠ "=")
      (hl : WellFormed left) (hr : WellFormed right) : WellFormed (.binary op left right)
  | block {items : List Expr} (hlen : 2 ≤ items.length) (hi : ∀ e ∈ items, WellFormed e) :
      WellFormed (.block items)

def WellFormedProgram (p : Expr) : Prop := ∃ items, p = .block items ∧ ∀ e ∈ items, WellFormed e

namespace Expr

/-- Conditionals, functions and assignments take in all that follows them. -/
def reaches : Expr → Bool
  | .cond _ _ _ | .lambda _ _ | .assign _ _ => true
  | _ => false

/-- How tightly the operator of an operation binds. -/
def level : Expr → Option Nat
  | .binary op _ _ => some ((precedence op).getD 0)
  | _ => none

/-- Whether the right edge is a conditional without `else`. -/
def dangles : Expr → Bool
  | .cond _ _ none => true
  | .cond _ _ (some no) => no.dangles
  | .lambda _ body => body.dangles
  | .assign _ value => value.dangles
  | _ => false

end Expr

def parenthesized (b : Bool) (u : List Lexeme) : List Lexeme :=
  if b then .mark "(" :: u ++ [.mark ")"] else u

/-- Whether an operand of an operator that binds as tightly as `p` is printed in parentheses. -/
def parenthesizesLeft (p : Nat) (e : Expr) : Bool := e.reaches || e.level.any (· < p)

def parenthesizesRight (p : Nat) (e : Expr) : Bool := e.reaches || e.level.any (· ≤ p)

def parenthesizesCallee (e : Expr) : Bool := e.reaches || e.level.isSome

mutual

def words : Expr → List Lexeme
  | .number x => [.number x]
  | .text s => [.text s]
  | .truth b => [.keyword (if b then "true" else "false")]
  | .name n => [.name n]
  | .lambda params body =>
    .keyword "lambda" :: .mark "(" ::
      List.intercalate [.mark ","] (params.map fun n => [.name n]) ++ .mark ")" :: words body
  | .call callee args =>
    parenthesized (parenthesizesCallee callee) (words callee) ++
      .mark "(" :: List.intercalate [.mark ","] (wordsAll args) ++ [.mark ")"]
  | .cond test yes no =>
    .keyword "if" :: words test ++
      (.keyword "then" :: parenthesized (no.isSome && yes.dangles) (words yes)) ++ wordsElse no
  | .assign target value => words target ++ .operator "=" :: words value
  | .binary op left right =>
    let p := (precedence op).getD 0
    parenthesized (parenthesizesLeft p left) (words left) ++
      .operator op :: parenthesized (parenthesizesRight p right) (words right)
  | .block items => .mark "\x7b" :: List.intercalate [.mark ","] (wordsAll items) ++ [.mark "\x7d"]
  | .alien _ => []

def wordsAll : List Expr → List (List Lexeme)
  | [] => []
  | e :: es => words e :: wordsAll es

def wordsElse : Option Expr → List Lexeme
  | none => []
  | some e => .keyword "else" :: words e

end

def programWords : Expr → List Lexeme
  | .block items => List.intercalate [.mark ";"] (wordsAll items)
  | e => words e

def render (num : Numerals) (p : Expr) : String := String.ofList (spellings num (programWords p))

example : programWords (.block [.cond (.name "a") (.cond (.name "b") (.name "c") none)
    (some (.name "d"))]) = [.keyword "if", .name "a", .keyword "then", .mark "(", .keyword "if",
      .name "b", .keyword "then", .name "c", .mark ")", .keyword "else", .name "d"] := rfl

theorem wordsAll_eq_map (es : List Expr) : wordsAll es = es.map words := by
  induction es with
  | nil => rfl
  | cons e es ih => rw [wordsAll, ih, List.map_cons]

/-- The first of the operators binds no more tightly than `p`. -/
def HeadLe (p : Nat) (ops : List (String × Expr)) : Prop :=
  ∀ o ∈ ops.head?, ∃ q, precedence o.1 = some q ∧ q ≤ p

theorem HeadLe.groups {p : Nat} {ops : List (String × Expr)} (h : HeadLe p ops) (t : Expr) :
    Groups p t ops t ops := by
  cases ops with
  | nil => exact .nil
  | cons o ops =>
    obtain ⟨q, hq, hle⟩ := h o rfl
    exact .stop hq hle

/-- Before the operators of `more` come into play, `ops` fold onto `first` into `t`, whose own
operator, if it shows, binds as tightly as `level` says. -/
def Folds (level : Option Nat) (t first : Expr) (ops : List (String × Expr)) : Prop :=
  ∀ bound more t' rest, (∀ p ∈ level, bound < p ∧ HeadLe p more) →
    Groups bound t more t' rest → Groups bound first (ops ++ more) t' rest

/-- A chain that ends in an operand. -/
inductive Closed : Expr → List (String × Expr) → List Lexeme → Prop
  | single {t : Expr} {u : List Lexeme} (hu : Spells (.operand t) u) : Closed t [] u
  | more {t t' : Expr} {op : String} {ops : List (String × Expr)} {u v : List Lexeme}
      (hu : Spells (.operand t) u) (hop : IsOperator op) (hv : Closed t' ops v) :
      Closed t ((op, t') :: ops) (u ++ .operator op :: v)

theorem Closed.chain {t : Expr} {ops : List (String × Expr)} {u : List Lexeme} (h : Closed t ops u)
    (dangling : Bool) : Spells (.chain dangling t ops) u := by
  induction h with
  | single hu => exact .single hu
  | more hu hop _ ih => exact .more hu hop ih

theorem Closed.append {t t' : Expr} {op : String} {ops ops' : List (String × Expr)}
    {u v : List Lexeme} (h : Closed t ops u) (hop : IsOperator op) (h' : Closed t' ops' v) :
    Closed t (ops ++ (op, t') :: ops') (u ++ .operator op :: v) := by
  induction h with
  | single hu => exact .more hu hop h'
  | more hu hop' _ ih => simpa using more hu hop' ih

/-! ### The words of a tree spell it -/

/-- What the words of `t` are, by themselves and as a part of something else. -/
structure Written (t : Expr) : Prop where
  expression : Spells (.expression t.dangles t) (words t)
  operand : t.reaches = false → t.level = none → Spells (.operand t) (words t)
  closed : t.reaches = false → ∃ first ops, Closed first ops (words t) ∧ Folds t.level t first ops

theorem Spells.parenthesized {b : Bool} {t : Expr} {u : List Lexeme}
    (h : Spells (.expression b t) u) : Spells (.operand t) (parenthesized true u) :=
  Spells.of_base (.group h.weaken)

theorem Folds.refl (level : Option Nat) (t : Expr) : Folds level t t [] :=
  fun _ _ _ _ _ h => h

theorem Closed.spells {t first : Expr} {ops : List (String × Expr)} {u : List Lexeme}
    {level : Option Nat} (h : Closed first ops u) (hf : Folds level t first ops)
    (hlevel : ∀ p ∈ level, 0 < p) (dangling : Bool) : Spells (.expression dangling t) u := by
  have hgroups := hf 0 [] t [] (fun p hp => ⟨hlevel p hp, by simp [HeadLe]⟩) .nil
  rw [List.append_nil] at hgroups
  exact .expression (h.chain dangling) hgroups

/-- An operator that shows is not among those that are put in parentheses. -/
theorem not_of_mem_level {q : Nat} {e : Expr} {f : Nat → Bool}
    (h : q ∈ if e.reaches || e.level.any f then none else e.level) : f q = false := by
  split at h
  · cases h
  · rename_i hp
    have hany := (Bool.or_eq_false_iff.1 (Bool.eq_false_iff.2 hp)).2
    rwa [Option.mem_def.1 h] at hany

theorem HeadLe.mono {p q : Nat} {ops : List (String × Expr)} (h : HeadLe p ops) (hle : p ≤ q) :
    HeadLe q ops := by
  intro o ho
  obtain ⟨k, hk, hkp⟩ := h o ho
  exact ⟨k, hk, Nat.le_trans hkp hle⟩

namespace Written
variable {t e : Expr}

theorem of_operand (h : Spells (.operand t) (words t)) (hd : t.dangles = false) : Written t where
  expression := hd ▸ .expression (.single h) .nil
  operand _ _ := h
  closed _ := ⟨t, [], .single h, .refl t.level t⟩

theorem of_reaching (h : Spells (.reaching t.dangles t) (words t)) (hr : t.reaches = true) :
    Written t where
  expression := .expression (.last h) .nil
  operand hr' := by rw [hr] at hr'; cases hr'
  closed hr' := by rw [hr] at hr'; cases hr'

theorem operand_of (h : Written e) {b : Bool} (hb : b = false → e.reaches = false) :
    ∃ first ops, Closed first ops (parenthesized b (words e)) ∧
      Folds (if b then none else e.level) e first ops := by
  cases b with
  | true => exact ⟨e, [], .single h.expression.parenthesized, .refl none e⟩
  | false => exact h.closed (hb rfl)

theorem assign {n : String} {value : Expr} (h : Written value) :
    Written (.assign (.name n) value) where
  expression := by
    obtain ⟨first, ops, hv, ht⟩ : ∃ first ops,
        Spells (.chain value.dangles first ops) (words value) ∧ Groups 0 first ops value [] := by
      cases h.expression with
      | expression hv ht => exact ⟨_, _, hv, ht⟩
    exact .expression (.more (.of_base (.name n)) rfl hv) (.step rfl Nat.one_pos ht .nil)
  operand hr := by cases hr
  closed hr := by cases hr

theorem binary {op : String} {left right : Expr} {p : Nat} (hp : precedence op = some p)
    (hne : op ≠ "=") (hl : Written left) (hr : Written right) :
    Written (.binary op left right) := by
  have hgetD : (precedence op).getD 0 = p := by rw [hp]; rfl
  have hlevel : (Expr.binary op left right).level = some p := congrArg some hgetD
  have hop : IsOperator op := by rw [IsOperator, hp]; rfl
  obtain ⟨first, ops, hfirst, hfolds⟩ := hl.operand_of (b := parenthesizesLeft p left)
    fun h => (Bool.or_eq_false_iff.1 h).1
  obtain ⟨first', ops', hfirst', hfolds'⟩ := hr.operand_of (b := parenthesizesRight p right)
    fun h => (Bool.or_eq_false_iff.1 h).1
  have hwords : words (.binary op left right) =
      parenthesized (parenthesizesLeft p left) (words left) ++
        .operator op :: parenthesized (parenthesizesRight p right) (words right) := by
    rw [words, hgetD]
  have hclosed : Closed first (ops ++ (op, first') :: ops') (words (.binary op left right)) :=
    hwords ▸ hfirst.append hop hfirst'
  have hfold : Folds (some p) (.binary op left right) first (ops ++ (op, first') :: ops') := by
    intro bound more t' rest hbound hgroups
    obtain ⟨hb, hmore⟩ := hbound p rfl
    rw [List.append_assoc, List.cons_append]
    -- the operators of the left operand come first; `op` does not bind more tightly than they do
    refine hfolds bound _ t' rest (fun q hq => ?_) ?_
    · have hle : p ≤ q := by simpa using not_of_mem_level hq
      refine ⟨Nat.lt_of_lt_of_le hb hle, fun o ho => ?_⟩
      cases ho
      exact ⟨p, hp, hle⟩
    -- those of the right operand bind more tightly than `op`, and what follows does not
    have hright : Groups p first' (ops' ++ more) right more := by
      refine hfolds' p more right more (fun q hq => ?_) (hmore.groups right)
      have hlt : p < q := by simpa using not_of_mem_level hq
      exact ⟨hlt, hmore.mono (Nat.le_of_lt hlt)⟩
    have hbound' : rightBound op p = p := by simp [rightBound, hne]
    have hjoined : joined op left right = .binary op left right := by simp [joined, hne]
    exact .step hp hb (hbound'.symm ▸ hright) (hjoined.symm ▸ hgroups)
  refine ⟨hclosed.spells hfold (fun q hq => ?_) _, fun _ h => ?_, fun _ => ?_⟩
  · cases hq
    exact precedence_pos hp
  · rw [hlevel] at h
    cases h
  · exact ⟨first, _, hclosed, hlevel.symm ▸ hfold⟩

theorem items {es : List Expr} (h : ∀ e ∈ es, Written e) :
    ∃ ps : List (List Lexeme × Expr), (∀ p ∈ ps, Spells (.expression true p.2) p.1) ∧
      ps.map Prod.snd = es ∧ ps.map Prod.fst = wordsAll es := by
  refine ⟨es.map fun e => (words e, e), fun p hp => ?_, by simp [Function.comp_def],
    by simp [wordsAll_eq_map, Function.comp_def]⟩
  obtain ⟨e, he, rfl⟩ := List.mem_map.1 hp
  exact (h e he).expression.weaken

theorem call {callee : Expr} {args : List Expr} (hc : Written callee) (ha : ∀ a ∈ args, Written a) :
    Written (.call callee args) := by
  have hcallee : Spells (.operand callee)
      (parenthesized (parenthesizesCallee callee) (words callee)) := by
    cases hb : parenthesizesCallee callee with
    | true => exact hc.expression.parenthesized
    | false =>
      obtain ⟨hr, hlevel⟩ := Bool.or_eq_false_iff.1 hb
      exact hc.operand hr (by simpa using hlevel)
  obtain ⟨ps, hps, hsnd, hfst⟩ := items ha
  have hcall := hcallee.operand_call hps (.inl rfl)
  rw [hsnd, hfst] at hcall
  exact of_operand hcall rfl

theorem block {items : List Expr} (hlen : 2 ≤ items.length) (hi : ∀ e ∈ items, Written e) :
    Written (.block items) := by
  obtain ⟨ps, hps, hsnd, hfst⟩ := Written.items hi
  have hblock := Spells.block hps (.inl rfl)
  have hblockOf : blockOf items = .block items := by
    match items, hlen with
    | _ :: _ :: _, _ => rfl
  rw [hsnd, hfst, hblockOf] at hblock
  exact of_operand hblock.of_base rfl

theorem lambda {params : List String} {body : Expr} (hb : Written body) :
    Written (.lambda params body) :=
  of_reaching (.function (.inl rfl) (.inl rfl) hb.expression) rfl

theorem cond {test yes : Expr} {no : Option Expr} (ht : Written test) (hy : Written yes)
    (hn : ∀ e ∈ no, Written e) : Written (.cond test yes no) := by
  cases no with
  | none =>
    have hcond := Spells.cond ht.expression.weaken hy.expression.weaken (.inl rfl)
    refine of_reaching ?_ rfl
    rw [words, wordsElse, List.append_nil]
    exact hcond
  | some e =>
    -- an `else` at the end of the consequent would be taken for the one of this conditional
    have hyes : Spells (.expression false yes) (parenthesized yes.dangles (words yes)) := by
      cases hd : yes.dangles with
      | true => exact .expression (.single hy.expression.parenthesized) .nil
      | false =>
        have hexpr := hy.expression
        rw [hd] at hexpr
        exact hexpr
    exact of_reaching (.condElse ht.expression.weaken hyes (.inl rfl) (hn e rfl).expression) rfl

end Written

theorem WellFormed.written {t : Expr} (h : WellFormed t) : Written t := by
  induction h with
  | number hx => exact .of_operand (.of_base (.number _)) rfl
  | text s => exact .of_operand (.of_base (.text s)) rfl
  | truth b =>
    cases b with
    | true => exact .of_operand (.of_base .yes) rfl
    | false => exact .of_operand (.of_base .no) rfl
  | name hn => exact .of_operand (.of_base (.name _)) rfl
  | lambda _ _ ih => exact .lambda ih
  | call _ _ ihc iha => exact .call ihc iha
  | cond _ _ _ iht ihy ihn => exact .cond iht ihy ihn
  | assign _ _ ih => exact .assign ih
  | binary hop hne _ _ ihl ihr =>
    obtain ⟨p, hp⟩ := Option.isSome_iff_exists.1 hop
    exact .binary hp hne ihl ihr
  | block hlen _ ih => exact .block hlen ih

theorem Lexeme.valid_operator {op : String} (h : IsOperator op) : (Lexeme.operator op).Valid := by
  obtain ⟨p, hp⟩ := Option.isSome_iff_exists.1 h
  unfold precedence at hp
  split at hp <;> cases hp <;> exact ⟨by decide, List.all_eq_true.1 (by decide)⟩

theorem mem_intercalate {sep : Lexeme} {us : List (List Lexeme)} {l : Lexeme}
    (h : l ∈ List.intercalate [sep] us) : l = sep ∨ ∃ u ∈ us, l ∈ u := by
  induction us with
  | nil => cases h
  | cons u us ih =>
    cases us with
    | nil => exact .inr ⟨u, by simp, by simpa using h⟩
    | cons v us =>
      have h : l ∈ u ++ sep :: List.intercalate [sep] (v :: us) := by simpa using h
      rcases List.mem_append.1 h with h | h
      · exact .inr ⟨u, by simp, h⟩
      rcases List.mem_cons.1 h with h | h
      · exact .inl h
      rcases ih h with h | ⟨w, hw, h⟩
      · exact .inl h
      · exact .inr ⟨w, List.mem_cons_of_mem _ hw, h⟩

def AllValid (u : List Lexeme) : Prop := ∀ l ∈ u, l.Valid

namespace AllValid
variable {u v : List Lexeme} {l : Lexeme}

theorem nil : AllValid [] := by simp [AllValid]

theorem cons (hl : l.Valid) (hu : AllValid u) : AllValid (l :: u) := List.forall_mem_cons.2 ⟨hl, hu⟩

theorem append (hu : AllValid u) (hv : AllValid v) : AllValid (u ++ v) :=
  List.forall_mem_append.2 ⟨hu, hv⟩

theorem parenthesized (hu : AllValid u) (b : Bool) : AllValid (parenthesized b u) := by
  cases b with
  | true => exact cons ⟨'(', rfl, rfl⟩ (hu.append (cons ⟨')', rfl, rfl⟩ nil))
  | false => exact hu

theorem intercalate {sep : Lexeme} {us : List (List Lexeme)} (hsep : sep.Valid)
    (hus : ∀ u ∈ us, AllValid u) : AllValid (List.intercalate [sep] us) := by
  intro l hl
  rcases mem_intercalate hl with rfl | ⟨u, hu, hl⟩
  · exact hsep
  · exact hus u hu l hl

theorem wordsAll {es : List Expr} (h : ∀ e ∈ es, AllValid (words e)) :
    ∀ u ∈ wordsAll es, AllValid u := by
  intro u hu
  rw [wordsAll_eq_map] at hu
  obtain ⟨e, he, rfl⟩ := List.mem_map.1 hu
  exact h e he

end AllValid

theorem WellFormed.allValid {t : Expr} (h : WellFormed t) : AllValid (words t) := by
  have keyword : ∀ {k : String}, k ∈ keywords → (Lexeme.keyword k).Valid := fun h => h
  have comma : (Lexeme.mark ",").Valid := ⟨',', rfl, rfl⟩
  induction h with
  | number hx => exact .cons hx .nil
  | text s => exact .cons trivial .nil
  | truth b =>
    refine .cons (keyword ?_) .nil
    cases b <;> decide
  | name hn => exact .cons hn .nil
  | lambda hp _ ih =>
    refine .cons (keyword (by decide)) (.cons ⟨'(', rfl, rfl⟩ (.append ?_ ?_))
    case refine_2 => exact .cons ⟨')', rfl, rfl⟩ ih
    refine .intercalate comma fun u hu => ?_
    obtain ⟨n, hn, rfl⟩ := List.mem_map.1 hu
    exact .cons (hp n hn) .nil
  | call _ _ ihc iha =>
    refine .append (.append (ihc.parenthesized _) (.cons ⟨'(', rfl, rfl⟩ ?_))
      (.cons ⟨')', rfl, rfl⟩ .nil)
    exact .intercalate comma (.wordsAll iha)
  | @cond _ _ no _ _ _ iht ihy ihn =>
    refine .append (.append (.cons (keyword (by decide)) iht) (.cons (keyword (by decide))
      (ihy.parenthesized _))) ?_
    cases no with
    | none => exact .nil
    | some e => exact .cons (keyword (by decide)) (ihn e rfl)
  | assign hn _ ih => exact .cons hn (.cons (valid_operator rfl) ih)
  | binary hop _ _ _ ihl ihr =>
    exact .append (ihl.parenthesized _) (.cons (valid_operator hop) (ihr.parenthesized _))
  | block _ _ ih =>
    refine .append (.cons ⟨'{', rfl, rfl⟩ ?_) (.cons ⟨'}', rfl, rfl⟩ .nil)
    exact .intercalate comma (.wordsAll ih)

theorem WellFormed.validTargets {t : Expr} (h : WellFormed t) : ValidTargets t := by
  induction h with
  | number => exact .number _
  | text s => exact .text s
  | truth b => exact .truth b
  | name => exact .name _
  | lambda _ _ ih => exact .lambda ih
  | call _ _ ihc iha => exact .call ihc iha
  | cond _ _ _ iht ihy ihn => exact .cond iht ihy ihn
  | assign _ _ ih => exact .assign ih
  | binary _ _ _ _ ihl ihr => exact .binary ihl ihr
  | block _ _ ih => exact .block ih

/-! ### The trees of a text -/

theorem Listed.mem {sep : String} {us : List (List Lexeme)} {u w : List Lexeme} {l : Lexeme}
    (h : Listed sep us w) (hu : u ∈ us) (hl : l ∈ u) : l ∈ w := by
  induction us generalizing w with
  | nil => cases hu
  | cons v us ih =>
    rcases h.cons_inv with ⟨rfl, rfl⟩ | ⟨w', rfl, hw'⟩
    · exact List.mem_singleton.1 hu ▸ hl
    · rcases List.mem_cons.1 hu with rfl | hu
      · exact List.mem_append_left _ hl
      · exact List.mem_append_right _ (List.mem_cons_of_mem _ (ih hw' hu))

theorem wellFormed_blockOf {items : List Expr} (h : ∀ e ∈ items, WellFormed e) :
    WellFormed (blockOf items) := by
  match items with
  | [] => exact .truth false
  | [e] => exact h e (List.mem_singleton_self e)
  | e :: e' :: es => exact .block (Nat.le_add_left 2 es.length) h

theorem Reads.wellFormed {u : List Lexeme} {e : Expr} (h : Reads u e) (hu : AllValid u) :
    WellFormed e := by
  have items : ∀ {ps : List (List Lexeme × Expr)} {w : List Lexeme},
      (∀ p ∈ ps, AllValid p.1 → WellFormed p.2) → Listed "," (ps.map Prod.fst) w → AllValid w →
      ∀ e ∈ ps.map Prod.snd, WellFormed e := by
    intro ps w hps hlisted hw e he
    obtain ⟨p, hp, rfl⟩ := List.mem_map.1 he
    exact hps p hp fun l hl => hw l (hlisted.mem (List.mem_map_of_mem hp) hl)
  have consequent : ∀ {y v : List Lexeme}, Consequent y v → AllValid v → AllValid y := by
    intro y v hv hvalid
    rcases hv with rfl | ⟨rfl, -⟩
    · exact (List.forall_mem_cons.1 hvalid).2
    · exact hvalid
  induction h with
  | number x => exact .number (hu _ (List.mem_singleton_self _))
  | text s => exact .text s
  | name n => exact .name (hu _ (List.mem_singleton_self _))
  | yes => exact .truth true
  | no => exact .truth false
  | group _ ih => exact ih fun l hl => hu l (by simp [hl])
  | block _ hw ih =>
    exact wellFormed_blockOf (items ih hw fun l hl => hu l (by simp [hl]))
  | cond _ _ hv ihc ihy =>
    have hvalid := consequent hv fun l hl => hu l (by simp [hl])
    refine .cond (ihc fun l hl => hu l (by simp [hl])) (ihy hvalid) nofun
  | condElse _ _ hv _ ihc ihy ihn =>
    have hvalid := consequent hv fun l hl => hu l (by simp [hl])
    refine .cond (ihc fun l hl => hu l (by simp [hl])) (ihy hvalid) fun e he => ?_
    cases he
    exact ihn fun l hl => hu l (by simp [hl])
  | function _ hw _ ih =>
    refine .lambda (fun n hn => ?_) (ih fun l hl => hu l (by simp [hl]))
    have hmem := hw.mem (List.mem_map_of_mem hn) (List.mem_singleton_self (Lexeme.name n))
    exact hu (.name n) (by simp [hmem])
  | call _ _ hw ihu ih =>
    exact .call (ihu fun l hl => hu l (by simp [hl])) (items ih hw fun l hl => hu l (by simp [hl]))
  | assign _ _ ihu ihv =>
    cases ihu fun l hl => hu l (by simp [hl]) with
    | name hn => exact .assign hn (ihv fun l hl => hu l (by simp [hl]))
  | binary hop hne _ _ ihu ihv =>
    exact .binary hop hne (ihu fun l hl => hu l (by simp [hl]))
      (ihv fun l hl => hu l (by simp [hl]))

theorem wellFormedProgram_of_parse {limit : Nat} {text : String} {p : Expr}
    (h : parse limit text = .ok p) : WellFormedProgram p := by
  obtain ⟨ts, e, ps, hs, -, hps, rfl⟩ := reads_of_parse h
  refine ⟨ps.map Prod.snd, rfl, fun e he => ?_⟩
  obtain ⟨q, hq, rfl⟩ := List.mem_map.1 he
  refine (hps.items q hq).wellFormed fun l hl => ?_
  obtain ⟨t, ht, rfl⟩ := List.mem_map.1 (hps.listed.mem (List.mem_map_of_mem hq) hl)
  exact hs.valid (by simp [TokenStream.ofText]) t ht

theorem parse_render_eq (num : Numerals) {items : List Expr} (h : ∀ e ∈ items, WellFormed e)
    (limit : Nat) : parse limit (render num (.block items)) = .ok (.block items) ∨
      limit < 5 * (programWords (.block items)).length + 6 ∧
        parse limit (render num (.block items)) = .error .tooDeep := by
  obtain ⟨ps, hps, hsnd, hfst⟩ := Written.items fun e he => (h e he).written
  have hvalid : AllValid (programWords (.block items)) :=
    .intercalate ⟨';', rfl, rfl⟩ (.wordsAll fun e he => (h e he).allValid)
  obtain ⟨ts, e, hs, hlex, he⟩ := Holds.of_spellings num hvalid
  have hlisted : Listed ";" (ps.map Prod.fst) (programWords (.block items)) := by
    rw [hfst]
    exact .inl rfl
  have hparse : parse limit (render num (.block items)) =
      (Words.parse limit ⟨programWords (.block items), none⟩).mapError (e.locateStop ts) := by
    rw [render, hs.parse_eq, Words.ofTokens, hlex, he]
  rw [hparse]
  rcases Words.parse_of_spells limit hps hlisted with hw | ⟨err, hw, hdeep | ⟨hbad, -⟩⟩
  · rw [hw, hsnd]
    exact .inl rfl
  · refine .inr ⟨?_, ?_⟩
    · rcases Nat.lt_or_ge limit (5 * (programWords (.block items)).length + 6) with hlt | hge
      · exact hlt
      · rw [hdeep] at hw
        exact absurd hw (Words.parse_ne_tooDeep hge)
    · rw [hw, hdeep]
      rfl
  · rw [hsnd] at hbad
    exact absurd (.block fun e he => (h e he).validTargets) hbad

/-- Parsing undoes printing, up to the depth that it needs, and the trees that parsing returns are
exactly those that can be printed. -/
theorem parse_render (num : Numerals) :
    (∀ p, WellFormedProgram p →
      (∀ limit, parse limit (render num p) = .ok p ∨ parse limit (render num p) = .error .tooDeep) ∧
      ∃ depth, ∀ limit, depth ≤ limit → parse limit (render num p) = .ok p) ∧
    ∀ p, WellFormedProgram p ↔ ∃ limit text, parse limit text = .ok p := by
  have back : ∀ p, WellFormedProgram p →
      ∃ depth, ∀ limit, depth ≤ limit → parse limit (render num p) = .ok p := by
    rintro _ ⟨items, rfl, h⟩
    refine ⟨5 * (programWords (.block items)).length + 6, fun limit hle => ?_⟩
    exact (parse_render_eq num h limit).resolve_right fun hlt => absurd hlt.1 (Nat.not_lt.2 hle)
  refine ⟨fun p hp => ⟨fun limit => ?_, back p hp⟩, fun p => ⟨fun hp => ?_, ?_⟩⟩
  · obtain ⟨items, rfl, h⟩ := hp
    exact (parse_render_eq num h limit).imp_right And.right
  · obtain ⟨depth, hdepth⟩ := back p hp
    exact ⟨depth, render num p, hdepth depth (Nat.le_refl depth)⟩
  · rintro ⟨limit, text, h⟩
    exact wellFormedProgram_of_parse h

/-- Parentheses around a conditional before `else`, and around a sum that is multiplied. -/
theorem parse_render_nested : ∃ (num : Numerals) (p : Expr), WellFormedProgram p ∧
    p = .block [.cond (.name "a") (.cond (.name "b") (.name "c") none) (some (.name "d")),
      .assign (.name "a") (.binary "*" (.binary "+" (.name "b") (.name "c")) (.name "d"))] ∧
    ∃ depth, ∀ limit, depth ≤ limit → parse limit (render num p) = .ok p := by
  obtain ⟨num⟩ : Nonempty Numerals := inferInstance
  have ident : ∀ c : Char, isNameStart c → String.ofList [c] ∉ keywords →
      IsIdentifier (String.ofList [c]) := fun c hc hk => ⟨⟨c, [], by simp, hc, by simp⟩, hk⟩
  have a : IsIdentifier "a" := ident 'a' (by decide) (by decide)
  have b : IsIdentifier "b" := ident 'b' (by decide) (by decide)
  have c : IsIdentifier "c" := ident 'c' (by decide) (by decide)
  have d : IsIdentifier "d" := ident 'd' (by decide) (by decide)
  have hp : WellFormedProgram (.block [.cond (.name "a") (.cond (.name "b") (.name "c") none)
      (some (.name "d")), .assign (.name "a") (.binary "*" (.binary "+" (.name "b") (.name "c"))
        (.name "d"))]) := by
    refine ⟨_, rfl, List.forall_mem_cons.2 ⟨?_, List.forall_mem_cons.2 ⟨?_, by simp⟩⟩⟩
    · exact .cond (.name a) (.cond (.name b) (.name c) nofun) fun e he => by cases he; exact .name d
    · exact .assign a (.binary rfl (by decide)
        (.binary rfl (by decide) (.name b) (.name c)) (.name d))
  exact ⟨num, _, hp, rfl, ((parse_render num).1 _ hp).2⟩

end ExprLang
