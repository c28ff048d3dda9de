import ExprLang.Proofs.Soundness

/-!
# Two readings side by side

The productions are written over any source of tokens, and ask little of it: to look at the next
token, to take it, and to complain. A `Comparison` relates computations over some source to
computations over bare words, perhaps with another depth, by one law for each such step. A
`Simulation` has laws for the complaints as well, and every production is then related to itself
(`Simulation.program`): what goes through all steps of the productions goes through the grammar by
the one induction that is done here.

Where a complaint is placed depends on what was looked at before, so the laws of a simulation are
about whole steps such as `skipMark`. A relation for which it does not matter has only to relate
complaints as such (`Stepwise`).
-/

namespace ExprLang
open TokenSource Grammar

/-- How computations over `σ` compare to computations over words. `rel V` is for those whose results
are as `V` says. -/
structure Comparison (σ : Type) [TokenSource σ] where
  rel : {α β : Type} → (α → β → Prop) → Reading σ α → Reading Words β → Prop
  /-- A token, and the one that is found in its place. -/
  token : Token → Token → Prop
  lexeme : ∀ {t t'}, token t t' → t'.lexeme = t.lexeme
  /-- The depths with which productions are compared. -/
  depths : Nat → Nat → Prop
  depths_le : ∀ {d d'}, depths d d' → d ≤ d'
  depths_pred : ∀ {d d'}, depths (d + 1) (d' + 1) → depths d d'
  pure : ∀ {α β : Type} {V : α → β → Prop} {a b}, V a b → rel V (pure a) (pure b)
  bind : ∀ {α β α' β' : Type} {V : α → β → Prop} {V' : α' → β' → Prop} {x y} {f : α → Reading σ α'}
    {g : β → Reading Words β'}, rel V x y → (∀ a b, V a b → rel V' (f a) (g b)) →
    rel V' (x >>= f) (y >>= g)
  tooDeep : ∀ {α β : Type} {V : α → β → Prop} {d d'} {y : Reading Words β}, depths d d' →
    (d' = d → y = throw .tooDeep) → rel V (throw .tooDeep) y
  peek : rel (Option.Rel token) peek peek
  next : rel (Option.Rel token) next next
  loop : ∀ {α : Type} {step : α → Reading σ (Option α)} {step' : α → Reading Words (Option α)} a,
    (∀ a, rel Eq (step a) (step' a)) → Progresses step' → rel Eq (loop step a) (loop step' a)

theorem lexeme_of_eq {t t' : Token} (h : t = t') : t'.lexeme = t.lexeme :=
  congrArg Token.lexeme h.symm

/-- Tokens compare to themselves. -/
theorem optionRel_refl {r : Token → Token → Prop} (h : ∀ t, r t t) (t : Option Token) :
    Option.Rel r t t := by
  cases t with
  | none => exact .none
  | some t => exact .some (h t)

namespace Comparison
variable {σ : Type} [TokenSource σ] (S : Comparison σ) {α β α' : Type} {V : α → β → Prop}

theorem step {x : Reading σ α'} {y : Reading Words α'} {f : α' → Reading σ α}
    {g : α' → Reading Words β} (h : S.rel Eq x y) (hf : ∀ a, S.rel V (f a) (g a)) :
    S.rel V (x >>= f) (y >>= g) := by
  refine S.bind h fun a b hab => ?_
  subst hab
  exact hf a

theorem ite {c : Prop} [Decidable c] {x x' : Reading σ α} {y y' : Reading Words β}
    (h : c → S.rel V x y) (h' : ¬ c → S.rel V x' y') :
    S.rel V (if c then x else x') (if c then y else y') := by
  split
  · exact h ‹_›
  · exact h' ‹_›

theorem map_lexeme {t t' : Option Token} (h : Option.Rel S.token t t') :
    t'.map Token.lexeme = t.map Token.lexeme := by
  cases h with
  | none => rfl
  | some h => exact congrArg some (S.lexeme h)

theorem discard : S.rel Eq (discard TokenSource.next) (discard TokenSource.next) := by
  rw [discard_eq, discard_eq]
  exact S.bind S.next fun _ _ _ => S.pure rfl

theorem atEnd : S.rel Eq atEnd atEnd :=
  S.bind S.peek fun _ _ h => S.pure (by cases h <;> rfl)

theorem peekIf (p : Lexeme → Bool) : S.rel (Option.Rel S.token) (peekIf p) (peekIf p) := by
  refine S.bind S.peek fun a b h => S.pure ?_
  cases h with
  | none => exact .none
  | some h =>
    simp only [Option.filter, S.lexeme h]
    split
    · exact .some h
    · exact .none

theorem atMark (m : String) : S.rel Eq (atMark m) (atMark m) :=
  S.bind (S.peekIf _) fun _ _ h => S.pure (by cases h <;> rfl)

theorem atKeyword (k : String) : S.rel Eq (atKeyword k) (atKeyword k) :=
  S.bind (S.peekIf _) fun _ _ h => S.pure (by cases h <;> rfl)

end Comparison

/-- A comparison that relates the steps that may complain as well. -/
structure Simulation (σ : Type) [TokenSource σ] extends Comparison σ where
  skipMark : ∀ m, rel Eq (skipMark m) (skipMark m)
  skipKeyword : ∀ k, rel Eq (skipKeyword k) (skipKeyword k)
  variableName : rel Eq variableName variableName
  unexpected : ∀ {α β : Type} {V : α → β → Prop}, rel V unexpected unexpected
  badTarget : ∀ {α β : Type} {V : α → β → Prop} {t t'} (e : Expr), token t t' →
    rel V (fail (.badTarget e) (some t)) (fail (.badTarget e) (some t'))

/-- A comparison that relates complaints, wherever they arise. -/
structure Stepwise (σ : Type) [TokenSource σ] extends Comparison σ where
  fail : ∀ {α β : Type} {V : α → β → Prop} (c : Complaint) {t t'}, Option.Rel token t t' →
    rel V (fail c t) (fail c t')

namespace Stepwise
variable {σ : Type} [TokenSource σ] (S : Stepwise σ) {α β : Type} {V : α → β → Prop}

theorem skipMark (m : String) : S.rel Eq (skipMark m) (skipMark m) :=
  S.step (S.atMark m) fun _ => S.ite (fun _ => S.discard) fun _ => S.fail _ .none

theorem skipKeyword (k : String) : S.rel Eq (skipKeyword k) (skipKeyword k) :=
  S.step (S.atKeyword k) fun _ => S.ite (fun _ => S.discard) fun _ => S.fail _ .none

theorem unexpected : S.rel V unexpected unexpected := by
  refine S.bind S.peek fun t t' ht => ?_
  rw [S.map_lexeme ht]
  exact S.fail _ ht

theorem variableName : S.rel Eq variableName variableName := by
  refine S.bind S.next fun t t' ht => ?_
  rw [S.map_lexeme ht]
  split
  · exact S.pure rfl
  · exact S.fail _ ht

def simulation : Simulation σ where
  toComparison := S.toComparison
  skipMark := S.skipMark
  skipKeyword := S.skipKeyword
  variableName := S.variableName
  unexpected := S.unexpected
  badTarget _ h := S.fail _ (.some h)

end Stepwise

namespace Simulation
variable {σ : Type} [TokenSource σ] (S : Simulation σ) {α : Type}

theorem truth : S.rel Eq truth truth := by
  refine S.bind S.next fun a b hab => ?_
  cases hab with
  | none => exact S.unexpected
  | some h =>
    refine S.pure ?_
    rw [S.lexeme h]

theorem nextItem {stop sep : String} {item : Reading σ α} {item' : Reading Words α}
    (h : S.rel Eq item item') (items : List α) :
    S.rel Eq (nextItem stop sep item items) (nextItem stop sep item' items) := by
  refine S.step S.atEnd fun _ => S.ite (fun _ => S.pure rfl) fun _ => ?_
  refine S.step (S.atMark stop) fun _ => S.ite (fun _ => S.pure rfl) fun _ => ?_
  have hseparator : S.rel Eq (skipSeparator sep items.isEmpty) (skipSeparator sep items.isEmpty) :=
    S.ite (fun _ => S.pure rfl) fun _ => S.skipMark sep
  refine S.step hseparator fun _ => S.step (S.atMark stop) fun _ => ?_
  exact S.ite (fun _ => S.pure rfl) fun _ => S.step h fun _ => S.pure rfl

theorem items {stop sep : String} {item : Reading σ α} {item' : Reading Words α}
    (h : S.rel Eq item item') (hitem : Takes item' fun u _ => u ≠ []) :
    S.rel Eq (TokenSource.loop (Grammar.nextItem stop sep item) [])
      (TokenSource.loop (Grammar.nextItem stop sep item') []) :=
  S.loop [] (S.nextItem h) (progresses_nextItem stop sep hitem)

theorem delimited {start stop sep : String} {item : Reading σ α} {item' : Reading Words α}
    (h : S.rel Eq item item') (hitem : Takes item' fun u _ => u ≠ []) :
    S.rel Eq (delimited start stop sep item) (delimited start stop sep item') := by
  refine S.step (S.skipMark start) fun _ => S.step (S.items h hitem) fun items => ?_
  exact S.step (S.skipMark stop) fun _ => S.pure rfl

theorem names (start stop sep : String) :
    S.rel Eq (Grammar.delimited start stop sep Grammar.variableName)
      (Grammar.delimited start stop sep Grammar.variableName) :=
  S.delimited S.variableName takes_variableName_ne_nil

theorem join {d d' : Nat} {t t' : Token} {op : String} (hd : S.depths d d') (h : S.token t t')
    (left right : Expr) : S.rel Eq (join d t op left right) (join d' t' op left right) := by
  unfold Grammar.join
  refine S.ite (fun _ => ?_) fun _ => S.pure rfl
  split
  · exact S.pure rfl
  unfold refuse
  by_cases hn : left.nesting ≤ d
  · rw [if_pos hn, if_pos (Nat.le_trans hn (S.depths_le hd))]
    exact S.badTarget _ h
  · rw [if_neg hn]
    refine S.tooDeep hd ?_
    rintro rfl
    exact if_neg hn

/-- The productions that nest to depth `d` are related to those that nest to depth `d'`. -/
structure Agree (d d' : Nat) : Prop where
  depths : S.depths d d'
  expression : S.rel Eq (expression d) (expression d')
  atom : S.rel Eq (atom d) (atom d')
  primary : S.rel Eq (primary d) (primary d')
  block : S.rel Eq (block d) (block d')
  conditional : S.rel Eq (conditional d) (conditional d')
  function : S.rel Eq (function d) (function d')
  arguments : ∀ callee, S.rel Eq (arguments d callee) (arguments d' callee)
  calls : ∀ callee, S.rel Eq (calls d callee) (calls d' callee)
  climb : ∀ bound left, S.rel Eq (climb d bound left) (climb d' bound left)

namespace Agree
variable {S} {d d' : Nat}

theorem expression_succ (h : S.Agree d d') :
    S.rel Eq (Grammar.expression (d + 1)) (Grammar.expression (d' + 1)) := by
  unfold Grammar.expression
  refine S.step h.atom fun left => ?_
  exact S.step (h.climb 0 left) fun e => h.calls e

theorem atom_succ (h : S.Agree d d') :
    S.rel Eq (Grammar.atom (d + 1)) (Grammar.atom (d' + 1)) := by
  unfold Grammar.atom
  exact S.step h.primary fun e => h.calls e

theorem primary_succ (h : S.Agree d d') :
    S.rel Eq (Grammar.primary (d + 1)) (Grammar.primary (d' + 1)) := by
  unfold Grammar.primary
  refine S.bind S.peek fun a b hab => ?_
  rw [S.map_lexeme hab]
  split
  · refine S.step S.discard fun _ => S.step h.expression fun e => ?_
    exact S.step (S.skipMark ")") fun _ => S.pure rfl
  · exact h.block
  · exact h.conditional
  · exact S.truth
  · exact S.truth
  · exact S.step S.discard fun _ => h.function
  · exact S.step S.discard fun _ => h.function
  · exact S.step S.discard fun _ => S.pure rfl
  · exact S.step S.discard fun _ => S.pure rfl
  · exact S.step S.discard fun _ => S.pure rfl
  · exact S.unexpected

theorem expressions (h : S.Agree d d') (start stop sep : String) :
    S.rel Eq (Grammar.delimited start stop sep (Grammar.expression d))
      (Grammar.delimited start stop sep (Grammar.expression d')) :=
  S.delimited h.expression (takes_expression_ne_nil d')

theorem block_succ (h : S.Agree d d') :
    S.rel Eq (Grammar.block (d + 2)) (Grammar.block (d' + 2)) := by
  unfold Grammar.block
  exact S.step (h.expressions _ _ _) fun _ => S.pure rfl

theorem conditional_succ (h : S.Agree d d') :
    S.rel Eq (Grammar.conditional (d + 1)) (Grammar.conditional (d' + 1)) := by
  unfold Grammar.conditional
  refine S.step (S.skipKeyword "if") fun _ => S.step h.expression fun test => ?_
  have rest : S.rel Eq
      (do let yes ← Grammar.expression d
          if ← Grammar.atKeyword "else" then
            Functor.discard TokenSource.next
            return Expr.cond test yes (some (← Grammar.expression d))
          return Expr.cond test yes none)
      (do let yes ← Grammar.expression d'
          if ← Grammar.atKeyword "else" then
            Functor.discard TokenSource.next
            return Expr.cond test yes (some (← Grammar.expression d'))
          return Expr.cond test yes none) := by
    refine S.step h.expression fun yes => S.step (S.atKeyword "else") fun b => ?_
    refine S.ite (fun _ => ?_) fun _ => S.pure rfl
    exact S.step S.discard fun _ => S.step h.expression fun no => S.pure rfl
  refine S.step (S.atMark "\x7b") fun b => S.ite (fun _ => rest) fun _ => ?_
  exact S.step (S.skipKeyword "then") fun _ => rest

theorem function_succ (h : S.Agree d d') :
    S.rel Eq (Grammar.function (d + 1)) (Grammar.function (d' + 1)) := by
  unfold Grammar.function
  refine S.step (S.names _ _ _) fun params => ?_
  exact S.step h.expression fun body => S.pure rfl

theorem arguments_succ (h : S.Agree d d') (callee : Expr) :
    S.rel Eq (Grammar.arguments (d + 2) callee) (Grammar.arguments (d' + 2) callee) := by
  unfold Grammar.arguments
  exact S.step (h.expressions _ _ _) fun _ => S.pure rfl

theorem nextCall (h : S.Agree d d') (callee : Expr) :
    S.rel Eq (nextCall (Grammar.arguments d) callee) (nextCall (Grammar.arguments d') callee) := by
  refine S.step (S.atMark "(") fun b => S.ite (fun _ => ?_) fun _ => S.pure rfl
  exact S.step (h.arguments callee) fun f => S.pure rfl

theorem calls_succ (h : S.Agree d d') (callee : Expr) :
    S.rel Eq (Grammar.calls (d + 1) callee) (Grammar.calls (d' + 1) callee) :=
  S.loop callee h.nextCall (progresses_nextCall d')

theorem nextOperation (h : S.Agree d d') (bound : Nat) (left : Expr) :
    S.rel Eq (nextOperation d (Grammar.atom d) (Grammar.climb d) bound left)
      (nextOperation d' (Grammar.atom d') (Grammar.climb d') bound left) := by
  refine S.bind (S.peekIf _) fun a b hab => ?_
  cases hab with
  | none => exact S.pure rfl
  | @some t t' ht =>
    simp only [S.lexeme ht]
    split
    · exact S.pure rfl
    refine S.ite (fun _ => S.pure rfl) fun _ => S.step S.discard fun _ => ?_
    refine S.step h.atom fun operand => S.step (h.climb _ operand) fun right => ?_
    exact S.step (S.join h.depths ht left right) fun e => S.pure rfl

theorem climb_succ (h : S.Agree d d') (bound : Nat) (left : Expr) :
    S.rel Eq (Grammar.climb (d + 1) bound left) (Grammar.climb (d' + 1) bound left) :=
  S.loop left (h.nextOperation bound) (progresses_nextOperation d' bound)

theorem nextStatement (h : S.Agree d d') (items : List Expr) :
    S.rel Eq (nextStatement (Grammar.expression d) items)
      (nextStatement (Grammar.expression d') items) := by
  refine S.step S.atEnd fun _ => S.ite (fun _ => S.pure rfl) fun _ => ?_
  refine S.step h.expression fun e => S.step S.atEnd fun _ => ?_
  exact S.ite (fun _ => S.pure rfl) fun _ => S.step (S.skipMark ";") fun _ => S.pure rfl

end Agree

theorem agree {d d' : Nat} (h : S.depths d d') : S.Agree d d' := by
  induction d using Nat.strongRecOn generalizing d' with
  | ind d ih =>
    have hle := S.depths_le h
    match d, d' with
    | 0, d' =>
      constructor
      case depths => exact h
      all_goals
        intros
        refine S.tooDeep h ?_
        rintro rfl
        rfl
    | 1, d' + 1 =>
      have hd := ih 0 (by omega) (S.depths_pred h)
      have hblock : S.rel Eq (Grammar.block 1) (Grammar.block (d' + 1)) := by
        refine S.tooDeep h ?_
        rintro ⟨⟩
        rfl
      have harguments : ∀ callee,
          S.rel Eq (Grammar.arguments 1 callee) (Grammar.arguments (d' + 1) callee) := by
        intro callee
        refine S.tooDeep h ?_
        rintro ⟨⟩
        rfl
      exact ⟨h, hd.expression_succ, hd.atom_succ, hd.primary_succ, hblock, hd.conditional_succ,
        hd.function_succ, harguments, hd.calls_succ, hd.climb_succ⟩
    | d + 2, d' + 2 =>
      have hd := ih (d + 1) (by omega) (S.depths_pred h)
      have hd' := ih d (by omega) (S.depths_pred (S.depths_pred h))
      exact ⟨h, hd.expression_succ, hd.atom_succ, hd.primary_succ, hd'.block_succ,
        hd.conditional_succ, hd.function_succ, hd'.arguments_succ, hd.calls_succ, hd.climb_succ⟩

theorem program {d d' : Nat} (h : S.depths d d') : S.rel Eq (program d) (program d') := by
  have hle := S.depths_le h
  match d, d' with
  | 0, d' =>
    refine S.tooDeep h ?_
    rintro rfl
    rfl
  | d + 1, d' + 1 =>
    have hrounds := (S.agree (S.depths_pred h)).nextStatement
    exact S.step (S.loop [] hrounds (progresses_nextStatement d')) fun items => S.pure rfl

end Simulation

end ExprLang
