import ExprLang.Proofs.Bindings
import Mathlib.Data.List.Forall2

/-!
# Two evaluations side by side

A tree is evaluated in two stores. A `Naming` says which scopes and which identities of the one
stand for which of the other; values correspond if they are the same up to the naming. A
`Correspondence` says which stores correspond under a naming, and has one law for each step of
evaluation; a step may add to the naming. Two evaluations of one tree from corresponding stores then
end alike, at every depth and through every call (`Correspondence.pairs_evaluate`): with
corresponding values or the same kind of error, and in corresponding stores. Native functions that
depend on their arguments alone (`Host.IgnoresScopes`) go along with every such correspondence.
-/

namespace ExprLang

/-- Which scopes and which identities of one store stand for which of another. -/
structure Naming where
  scope : ScopeId → ScopeId → Prop
  identity : Nat → Nat → Prop

/-- The later naming has all that the earlier one has. -/
structure Naming.Grows (w w' : Naming) : Prop where
  scope : ∀ {s s'}, w.scope s s' → w'.scope s s'
  identity : ∀ {i i'}, w.identity i i' → w'.identity i i'

/-- Functions that are different stand for functions that are different. -/
def Naming.TellsApart (w : Naming) : Prop :=
  ∀ ⦃i i' j j'⦄, w.identity i i' → w.identity j j' → (i = j ↔ i' = j')

theorem Naming.Grows.refl (w : Naming) : w.Grows w := ⟨id, id⟩

theorem Naming.Grows.trans {w w' w'' : Naming} (h : w.Grows w') (h' : w'.Grows w'') : w.Grows w'' :=
  ⟨fun hs => h'.scope (h.scope hs), fun hi => h'.identity (h.identity hi)⟩

/-- The same value up to the naming; the bodies of closures are as `T` says. -/
inductive Value.Corresponds (T : Expr → Prop) (w : Naming) : Value → Value → Prop
  | number (n : Number) : Corresponds T w (.number n) (.number n)
  | text (s : String) : Corresponds T w (.text s) (.text s)
  | truth (b : Bool) : Corresponds T w (.truth b) (.truth b)
  | closure {i i' : Nat} {params : List String} {body : Expr} {s s' : ScopeId}
      (hi : w.identity i i') (hs : w.scope s s') (hbody : T body) :
      Corresponds T w (.closure i params body s) (.closure i' params body s')
  | native {i i' : Nat} {f : Native} (hi : w.identity i i') :
      Corresponds T w (.native i f) (.native i' f)

namespace Value.Corresponds
variable {T : Expr → Prop} {w w' : Naming} {u u' v v' : Value}

theorem grows (h : Corresponds T w v v') (hw : w.Grows w') : Corresponds T w' v v' := by
  cases h with
  | number n => exact .number n
  | text s => exact .text s
  | truth b => exact .truth b
  | closure hi hs hbody => exact .closure (hw.identity hi) (hw.scope hs) hbody
  | native hi => exact .native (hw.identity hi)

theorem isTruthy (h : Corresponds T w v v') : v.isTruthy = v'.isTruthy := by cases h <;> rfl

theorem display (h : Corresponds T w v v') : v.display = v'.display := by cases h <;> rfl

theorem equals (hw : w.TellsApart) (h : Corresponds T w u u') (h' : Corresponds T w v v') :
    u.equals v = u'.equals v' := by
  have same : ∀ {i i' j j' : Nat}, w.identity i i' → w.identity j j' → (i == j) = (i' == j') := by
    intro i i' j j' hi hj
    rw [Bool.eq_iff_iff, beq_iff_eq, beq_iff_eq]
    exact hw hi hj
  cases h with
  | number | text | truth => cases h' <;> rfl
  | closure hi =>
    cases h' with
    | closure hj => exact same hi hj
    | _ => rfl
  | native hi =>
    cases h' with
    | native hj => exact same hi hj
    | _ => rfl

end Value.Corresponds

/-- The same error, about corresponding values. -/
inductive EvalError.Corresponds (T : Expr → Prop) (w : Naming) : EvalError → EvalError → Prop
  | undefined (n : String) : Corresponds T w (.undefined n) (.undefined n)
  | notNumber {v v' : Value} (h : v.Corresponds T w v') :
      Corresponds T w (.notNumber v) (.notNumber v')
  | divideByZero : Corresponds T w .divideByZero .divideByZero
  | notCallable {v v' : Value} (h : v.Corresponds T w v') :
      Corresponds T w (.notCallable v) (.notCallable v')
  | badTarget (target : Expr) : Corresponds T w (.badTarget target) (.badTarget target)
  | unknownOperator (op : String) {u u' v v' : Value} (h : u.Corresponds T w u')
      (h' : v.Corresponds T w v') :
      Corresponds T w (.unknownOperator op u v) (.unknownOperator op u' v')
  | notExpression (e : Expr) : Corresponds T w (.notExpression e) (.notExpression e)
  | overflow (o : Overflow) : Corresponds T w (.overflow o) (.overflow o)

inductive Stop.Corresponds (T : Expr → Prop) (w : Naming) : Stop EvalError → Stop EvalError → Prop
  | tooDeep : Corresponds T w .tooDeep .tooDeep
  | error {e e' : EvalError} (h : e.Corresponds T w e') : Corresponds T w (.error e) (.error e')

/-- Two runs that began with the naming `w` end alike. -/
inductive Paired {α β : Type} (store : Naming → Store → Store → Prop) (tree : Expr → Prop)
    (P : Naming → α → β → Prop) (w : Naming) :
    EStateM.Result (Stop EvalError) Store α → EStateM.Result (Stop EvalError) Store β → Prop
  | ok {w' : Naming} {a : α} {b : β} {st st' : Store} (hw : w.Grows w') (ha : P w' a b)
      (hst : store w' st st') : Paired store tree P w (.ok a st) (.ok b st')
  | error {w' : Naming} {e e' : Stop EvalError} {st st' : Store} (hw : w.Grows w')
      (he : e.Corresponds tree w' e') (hst : store w' st st') :
      Paired store tree P w (.error e st) (.error e' st')

theorem Paired.grows {α β : Type} {store : Naming → Store → Store → Prop} {tree : Expr → Prop}
    {P : Naming → α → β → Prop} {w w' : Naming} {r : EStateM.Result (Stop EvalError) Store α}
    {r' : EStateM.Result (Stop EvalError) Store β} (h : Paired store tree P w' r r')
    (hw : w.Grows w') : Paired store tree P w r r' := by
  cases h with
  | ok hw' ha hst => exact .ok (hw.trans hw') ha hst
  | error hw' he hst => exact .error (hw.trans hw') he hst

structure Correspondence (host : Host) where
  store : Naming → Store → Store → Prop
  tree : Expr → Prop
  tree_part : ∀ {e e'}, tree e → e' ∈ e.parts → tree e'
  tree_body : ∀ {params body}, tree (.lambda params body) → tree body
  identity : ∀ {w st st'}, store w st st' → w.TellsApart
  read : ∀ {w st st' s s' n}, store w st st' → w.scope s s' → tree (.name n) →
    Option.Rel (Value.Corresponds tree w) (st.get? s n) (st'.get? s' n)
  assigned : ∀ {w st st' s s' n e v v'}, store w st st' → w.scope s s' →
    tree (.assign (.name n) e) → v.Corresponds tree w v' →
    Option.Rel (fun j j' => store w (st.define j n v) (st'.define j' n v')) (st.target? s n)
      (st'.target? s' n)
  fresh : ∀ {w st st'}, store w st st' → ∃ w', w.Grows w' ∧ store w' st.fresh.2 st'.fresh.2 ∧
    w'.identity st.identities st'.identities
  enter : ∀ {w st st' s s' args args'} params, store w st st' → w.scope s s' →
    List.Forall₂ (Value.Corresponds tree w) args args' → ∃ w', w.Grows w' ∧
    store w' (st.entered s params args) (st'.entered s' params args') ∧
    w'.scope st.scopes.size st'.scopes.size
  native : ∀ {w st st' f args args'}, store w st st' →
    List.Forall₂ (Value.Corresponds tree w) args args' →
    Paired store tree (Value.Corresponds tree) w (host f args st) (host f args' st')

/-! ### Native functions -/

/-- The store with more written. -/
def Store.append (st : Store) (written : Array Piece) : Store :=
  { st with output := st.output ++ written }

theorem Store.write_eq_append (st : Store) (t : String) :
    st.write .program t = st.append #[⟨.program, t⟩] := by
  rw [Store.write, Store.append, Array.push_eq_append]

theorem Store.append_empty (st : Store) : st.append #[] = st := by
  rw [Store.append, Array.append_empty]

/-- Two calls end alike, and have written the same and done nothing else to the stores. -/
inductive SameCall (T : Expr → Prop) (w : Naming) (st st' : Store) :
    EStateM.Result (Stop EvalError) Store Value → EStateM.Result (Stop EvalError) Store Value → Prop
  | ok (written : Array Piece) {v v' : Value} (hv : v.Corresponds T w v') :
      SameCall T w st st' (.ok v (st.append written)) (.ok v' (st'.append written))
  | error (written : Array Piece) {e e' : Stop EvalError} (he : e.Corresponds T w e') :
      SameCall T w st st' (.error e (st.append written)) (.error e' (st'.append written))

namespace SameCall
variable {T : Expr → Prop} {w : Naming} {v v' : Value} {e e' : Stop EvalError}

theorem answer (st st' : Store) (hv : v.Corresponds T w v') :
    SameCall T w st st' (.ok v st) (.ok v' st') := by
  have hcall : SameCall T w st st' (.ok v (st.append #[])) (.ok v' (st'.append #[])) := .ok #[] hv
  rw [Store.append_empty, Store.append_empty] at hcall
  exact hcall

theorem stop (st st' : Store) (he : e.Corresponds T w e') :
    SameCall T w st st' (.error e st) (.error e' st') := by
  have hcall : SameCall T w st st' (.error e (st.append #[])) (.error e' (st'.append #[])) :=
    .error #[] he
  rw [Store.append_empty, Store.append_empty] at hcall
  exact hcall

theorem write (st st' : Store) (t : String) (hv : v.Corresponds T w v') :
    SameCall T w st st' (.ok v (st.write .program t)) (.ok v' (st'.write .program t)) := by
  rw [Store.write_eq_append, Store.write_eq_append]
  exact .ok _ hv

end SameCall

/-- What a call does depends on its arguments alone: it can tell functions apart, but sees neither
the scopes they were made in nor the store. -/
def Host.IgnoresScopes (host : Host) : Prop :=
  ∀ ⦃T : Expr → Prop⦄ ⦃w : Naming⦄ (f : Native) ⦃args args' : List Value⦄ (st st' : Store),
    w.TellsApart → List.Forall₂ (Value.Corresponds T w) args args' →
    SameCall T w st st' (host f args st) (host f args' st')

namespace Host

theorem IgnoresScopes.paired {host : Host} (h : host.IgnoresScopes)
    {store : Naming → Store → Store → Prop} {tree : Expr → Prop} {w : Naming} {st st' : Store}
    {f : Native} {args args' : List Value} (hw : w.TellsApart)
    (hst : ∀ written, store w (st.append written) (st'.append written))
    (hargs : List.Forall₂ (Value.Corresponds tree w) args args') :
    Paired store tree (Value.Corresponds tree) w (host f args st) (host f args' st') := by
  have hcall := h f st st' hw hargs
  generalize host f args st = r, host f args' st' = r' at hcall
  cases hcall with
  | ok written hv => exact .ok (.refl w) hv (hst written)
  | error written he => exact .error (.refl w) he (hst written)

theorem displayAll_eq {T : Expr → Prop} {w : Naming} {args args' : List Value}
    (h : List.Forall₂ (Value.Corresponds T w) args args') :
    Eval.displayAll args = Eval.displayAll args' := by
  induction h with
  | nil => rfl
  | cons hv _ ih => rw [Eval.displayAll, Eval.displayAll, hv.display, ih]

theorem ignoresScopes_builtins : builtins.IgnoresScopes := by
  intro T w f args args' st st' _ hargs
  rw [builtins, Eval.print, Eval.print, displayAll_eq hargs]
  cases Eval.displayAll args' with
  | error o => exact .stop st st' (.error (.overflow o))
  | ok shown => exact .write st st' _ (.truth false)

theorem corresponds_getLastD {T : Expr → Prop} {w : Naming} {args args' : List Value} {v v' : Value}
    (hargs : List.Forall₂ (Value.Corresponds T w) args args') (hv : v.Corresponds T w v') :
    (args.getLastD v).Corresponds T w (args'.getLastD v') := by
  induction hargs generalizing v v' with
  | nil => exact hv
  | cons hu _ ih =>
    rw [List.getLastD_cons, List.getLastD_cons]
    exact ih hu

theorem ignoresScopes_last : last.IgnoresScopes := by
  intro T w f args args' st st' hw hargs
  rw [last, last]
  split
  · exact ignoresScopes_builtins f st st' hw hargs
  · exact .answer st st' (corresponds_getLastD hargs (.truth false))

end Host

namespace Correspondence
variable {host : Host} {R : Correspondence host} {α β α' β' : Type} {w w' : Naming}

/-- From stores that correspond under `w`, the computations end alike. -/
def Pairs (R : Correspondence host) (P : Naming → α → β → Prop) (w : Naming) (x : Eval α)
    (y : Eval β) : Prop :=
  ∀ st st', R.store w st st' → Paired R.store R.tree P w (x st) (y st')

/-- Computations of values that correspond. -/
def PairsValues (R : Correspondence host) : Naming → Eval Value → Eval Value → Prop :=
  R.Pairs (Value.Corresponds R.tree)

variable {P : Naming → α → β → Prop} {Q : Naming → α' → β' → Prop}

theorem Pairs.bind {x : Eval α} {y : Eval β} {f : α → Eval α'} {g : β → Eval β'}
    (h : R.Pairs P w x y)
    (hf : ∀ w' a b, w.Grows w' → P w' a b → R.Pairs Q w' (f a) (g b)) :
    R.Pairs Q w (x >>= f) (y >>= g) := by
  intro st st' hst
  have hxy := h st st' hst
  cases hx : x st with
  | ok a st₁ =>
    cases hy : y st' with
    | ok b st₁' =>
      rw [hx, hy] at hxy
      cases hxy with
      | ok hw ha hst₁ =>
        rw [bind_of_ok hx, bind_of_ok hy]
        exact (hf _ a b hw ha st₁ st₁' hst₁).grows hw
    | error e' st₁' =>
      rw [hx, hy] at hxy
      cases hxy
  | error e st₁ =>
    cases hy : y st' with
    | ok b st₁' =>
      rw [hx, hy] at hxy
      cases hxy
    | error e' st₁' =>
      rw [hx, hy] at hxy
      cases hxy with
      | error hw he hst₁ =>
        rw [bind_of_error hx, bind_of_error hy]
        exact .error hw he hst₁

theorem Pairs.pure {a : α} {b : β} (h : P w a b) : R.Pairs P w (pure a) (pure b) :=
  fun _ _ hst => .ok (.refl w) h hst

theorem Pairs.tooDeep : R.Pairs P w (throw .tooDeep) (throw .tooDeep) :=
  fun _ _ hst => .error (.refl w) .tooDeep hst

theorem Pairs.fail {e e' : EvalError} (h : e.Corresponds R.tree w e') :
    R.Pairs P w (Eval.fail e) (Eval.fail e') :=
  fun _ _ hst => .error (.refl w) (.error h) hst

theorem Pairs.get {f : Store → Eval α} {g : Store → Eval β}
    (h : ∀ st st', R.store w st st' → Paired R.store R.tree P w (f st st) (g st' st')) :
    R.Pairs P w (get >>= f) (get >>= g) := h

/-- Results of operators that correspond. -/
inductive Answers (R : Correspondence host) (P : α → β → Prop) (w : Naming) :
    Except EvalError α → Except EvalError β → Prop
  | ok {a : α} {b : β} (h : P a b) : Answers R P w (.ok a) (.ok b)
  | error {e e' : EvalError} (h : e.Corresponds R.tree w e') : Answers R P w (.error e) (.error e')

theorem Answers.bind {P : α → β → Prop} {Q : α' → β' → Prop} {r : Except EvalError α}
    {r' : Except EvalError β} {f : α → Except EvalError α'} {g : β → Except EvalError β'}
    (h : R.Answers P w r r') (hf : ∀ a b, P a b → R.Answers Q w (f a) (g b)) :
    R.Answers Q w (r >>= f) (r' >>= g) := by
  cases h with
  | ok h => exact hf _ _ h
  | error h => exact .error h

section
variable {u u' v v' : Value}

theorem answers_operand (h : v.Corresponds R.tree w v') :
    R.Answers Eq w (Operator.operand v) (Operator.operand v') := by
  cases h with
  | number n => exact .ok rfl
  | text s => exact .error (.notNumber (.text s))
  | truth b => exact .error (.notNumber (.truth b))
  | closure hi hs hbody => exact .error (.notNumber (.closure hi hs hbody))
  | native hi => exact .error (.notNumber (.native hi))

theorem answers_divisor (h : v.Corresponds R.tree w v') :
    R.Answers Eq w (Operator.divisor v) (Operator.divisor v') := by
  refine (answers_operand h).bind fun m n hmn => ?_
  subst hmn
  cases m.isZero with
  | true => exact .error .divideByZero
  | false => exact .ok rfl

theorem answers_calculated (r : Except Overflow Number) :
    R.Answers (Value.Corresponds R.tree w) w (Operator.calculated r) (Operator.calculated r) := by
  cases r with
  | ok n => exact .ok (.number n)
  | error o => exact .error (.overflow o)

theorem answers_apply {st st' : Store} (hst : R.store w st st') (o : Operator)
    (hu : u.Corresponds R.tree w u') (hv : v.Corresponds R.tree w v') :
    R.Answers (Value.Corresponds R.tree w) w (o.apply u v) (o.apply u' v') := by
  -- arithmetic: both operands are numbers, and the same ones on either side
  have two : ∀ (f : Number → Number → Except Overflow Number)
      {second : Value → Except EvalError Number}, R.Answers Eq w (second v) (second v') →
      R.Answers (Value.Corresponds R.tree w) w
        (do Operator.calculated (f (← Operator.operand u) (← second v)))
        (do Operator.calculated (f (← Operator.operand u') (← second v'))) := by
    intro f second hsecond
    refine (answers_operand hu).bind fun m m' hm => hsecond.bind fun n n' hn => ?_
    subst hm hn
    exact answers_calculated (f m n)
  have ordered : ∀ accepts, R.Answers (Value.Corresponds R.tree w) w
      (Operator.ordered accepts u v) (Operator.ordered accepts u' v') := by
    intro accepts
    refine (answers_operand hu).bind fun m m' hm => (answers_operand hv).bind fun n n' hn => ?_
    subst hm hn
    exact .ok (.truth _)
  have hequals := Value.Corresponds.equals (R.identity hst) hu hv
  cases o with
  | add => exact two Number.add (answers_operand hv)
  | sub => exact two Number.sub (answers_operand hv)
  | mul => exact two Number.mul (answers_operand hv)
  | div => exact two Number.div (answers_divisor hv)
  | mod => exact two Number.mod (answers_divisor hv)
  | and =>
    refine .ok ?_
    rw [hu.isTruthy]
    split
    · exact hv
    · exact .truth false
  | or =>
    refine .ok ?_
    rw [hu.isTruthy]
    split
    · exact hu
    · exact hv
  | lt | gt | le | ge => exact ordered _
  | eq =>
    refine .ok ?_
    rw [hequals]
    exact .truth _
  | ne =>
    refine .ok ?_
    rw [hequals]
    exact .truth _

theorem answers_applyText {st st' : Store} (hst : R.store w st st') (op : String)
    (hu : u.Corresponds R.tree w u') (hv : v.Corresponds R.tree w v') :
    R.Answers (Value.Corresponds R.tree w) w (Operator.applyText op u v)
      (Operator.applyText op u' v') := by
  rw [Operator.applyText, Operator.applyText]
  cases Operator.ofText? op with
  | none => exact .error (.unknownOperator op hu hv)
  | some o => exact answers_apply hst o hu hv

end

/-- The two computations evaluate any tree alike, from any scopes that correspond. -/
def PairsTrees (R : Correspondence host) (x : Expr → ScopeId → Eval Value) : Prop :=
  ∀ {w e s s'}, R.tree e → w.scope s s' → R.PairsValues w (x e s) (x e s')

theorem pairs_callWith {body : Expr → ScopeId → Eval Value} (hbody : R.PairsTrees body)
    {f f' : Value} {args args' : List Value} (hf : f.Corresponds R.tree w f')
    (hargs : List.Forall₂ (Value.Corresponds R.tree w) args args') :
    R.PairsValues w (Eval.callWith host body f args) (Eval.callWith host body f' args') := by
  cases hf with
  | @closure i i' params e s s' hi hs he =>
    intro st st' hst
    have henter : ∀ (st : Store) s args, Eval.enter s params args st =
        .ok st.scopes.size (st.entered s params args) := fun _ _ _ => rfl
    obtain ⟨w', hw, hst₁, hscope⟩ := R.enter params hst hs hargs
    rw [Eval.callWith, Eval.callWith, bind_of_ok (henter st s args),
      bind_of_ok (henter st' s' args')]
    exact (hbody he hscope _ _ hst₁).grows hw
  | @native i i' f hi => exact fun _ _ hst => R.native hst hargs
  | number n => exact .fail (.notCallable (.number n))
  | text s => exact .fail (.notCallable (.text s))
  | truth b => exact .fail (.notCallable (.truth b))

section
variable {x : Expr → ScopeId → Eval Value} {s s' : ScopeId} {es : List Expr}

theorem pairs_mapM (hx : R.PairsTrees x) (hes : ∀ e ∈ es, R.tree e) (hs : w.scope s s') :
    R.Pairs (fun w => List.Forall₂ (Value.Corresponds R.tree w)) w (es.mapM fun e => x e s)
      (es.mapM fun e => x e s') := by
  induction es generalizing w with
  | nil => exact .pure .nil
  | cons e es ih =>
    obtain ⟨he, hes⟩ := List.forall_mem_cons.1 hes
    rw [List.mapM_cons, List.mapM_cons]
    refine (hx he hs).bind fun w₁ v v' hw₁ hv => ?_
    refine (ih hes (hw₁.scope hs)).bind fun w₂ vs vs' hw₂ hvs => ?_
    exact .pure (.cons (hv.grows hw₂) hvs)

theorem pairs_foldlM (hx : R.PairsTrees x) (hes : ∀ e ∈ es, R.tree e) (hs : w.scope s s')
    {v v' : Value} (hv : v.Corresponds R.tree w v') : R.PairsValues w
      (es.foldlM (fun _ e => x e s) v) (es.foldlM (fun _ e => x e s') v') := by
  induction es generalizing w v v' with
  | nil => exact .pure hv
  | cons e es ih =>
    obtain ⟨he, hes⟩ := List.forall_mem_cons.1 hes
    rw [List.foldlM_cons, List.foldlM_cons]
    exact (hx he hs).bind fun w₁ v v' hw₁ hv => ih hes (hw₁.scope hs) hv

end

/-! ### Evaluation -/

theorem pairs_evaluate (R : Correspondence host) (limit : Nat) :
    R.PairsTrees (evaluate host limit) := by
  induction limit using Nat.strongRecOn with
  | ind limit ih =>
  match limit with
  | 0 | 1 =>
    intro w e s s' _ _
    exact .tooDeep
  | d + 2 =>
    have hd : R.PairsTrees (evaluate host d) := ih d (by omega)
    intro w e s s' he hs
    have part : ∀ e' ∈ e.parts, R.tree e' := fun e' => R.tree_part he
    cases e with
    | number x => exact .pure (.number _)
    | text t => exact .pure (.text t)
    | truth b => exact .pure (.truth b)
    | name n =>
      refine Pairs.get fun st st' hst => ?_
      have hread := R.read hst hs he
      generalize st.get? s n = found, st'.get? s' n = found' at hread
      cases hread with
      | none => exact .error (.refl w) (.error (.undefined n)) hst
      | some hv => exact .ok (.refl w) hv hst
    | lambda params body =>
      intro st st' hst
      obtain ⟨w', hw, hst₁, hi⟩ := R.fresh hst
      exact .ok hw (.closure hi (hw.scope hs) (R.tree_body he)) hst₁
    | call callee args =>
      rw [evaluate_call, evaluate_call]
      refine (hd (part callee (List.mem_cons_self ..)) hs).bind fun w₁ f f' hw₁ hf => ?_
      have hargs : ∀ a ∈ args, R.tree a := fun a ha => part a (List.mem_cons_of_mem _ ha)
      refine (pairs_mapM hd hargs (hw₁.scope hs)).bind fun w₂ vs vs' hw₂ hvs => ?_
      exact pairs_callWith (ih (d - 1) (by omega)) (hf.grows hw₂) hvs
    | cond test yes no =>
      obtain ⟨htest, hrest⟩ := List.forall_mem_cons.1 part
      obtain ⟨hyes, hno⟩ := List.forall_mem_cons.1 hrest
      show R.PairsValues w (evaluate host d test s >>= _) (evaluate host d test s' >>= _)
      refine (hd htest hs).bind fun w₁ v v' hw₁ hv => ?_
      rw [hv.isTruthy]
      split
      · exact hd hyes (hw₁.scope hs)
      · cases no with
        | none => exact .pure (.truth false)
        | some e' => exact hd (hno e' (by simp)) (hw₁.scope hs)
    | assign target x =>
      by_cases htarget : ∃ n, target = .name n
      · obtain ⟨n, rfl⟩ := htarget
        have hx : R.tree x := part x (List.mem_singleton_self x)
        rw [evaluate, evaluate]
        refine (hd hx hs).bind fun w₁ v v' hw₁ hv => Pairs.get fun st st' hst => ?_
        have hassigned := R.assigned hst (hw₁.scope hs) he hv
        generalize st.target? s n = target, st'.target? s' n = target' at hassigned
        cases hassigned with
        | none => exact .error (.refl w₁) (.error (.undefined n)) hst
        | some hst₁ => exact .ok (.refl w₁) hv hst₁
      · rw [evaluate_assign_of_ne (not_exists.1 htarget), evaluate_assign_of_ne (not_exists.1 htarget),
          Eval.refuse]
        split
        · exact .fail (.badTarget _)
        · exact .tooDeep
    | binary op left right =>
      rw [evaluate, evaluate]
      refine (hd (part left (by simp [Expr.parts])) hs).bind fun w₁ a a' hw₁ ha => ?_
      refine (hd (part right (by simp [Expr.parts])) (hw₁.scope hs)).bind fun w₂ b b' hw₂ hb => ?_
      intro st st' hst
      have hanswers := answers_applyText hst op (ha.grows hw₂) hb
      generalize Operator.applyText op a b = r, Operator.applyText op a' b' = r' at hanswers
      cases hanswers with
      | ok hv => exact .ok (.refl w₂) hv hst
      | error he => exact .error (.refl w₂) (.error he) hst
    | block items =>
      rw [evaluate, evaluate]
      exact pairs_foldlM hd part hs (.truth false)
    | alien written => exact .fail (.notExpression _)

end Correspondence

end ExprLang
