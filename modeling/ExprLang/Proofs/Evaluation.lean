import ExprLang.Proofs.Scopes

/-!
# What evaluation keeps

A `Discipline` says which stores may occur, which values and trees are fit in a store, which errors
may stop a run, and how a store relates to those that come after it. Each of its laws is about one
step. The evaluation of a fit tree then stays within the discipline, at every depth and through
every call (`Discipline.wp_evaluate`); the induction is done here once. What native functions do is
the host's to say, and the law about them is about the host.
-/

namespace ExprLang

/-- The parts of a tree that may be evaluated with it, in the same scope. -/
def Expr.parts : Expr → List Expr
  | .call callee args => callee :: args
  | .cond test yes no => test :: yes :: no.toList
  | .assign (.name _) value => [value]
  | .binary _ left right => [left, right]
  | .block items => items
  | _ => []

/-- The result satisfies `P`, or the error `E`. -/
def Yields {ε α : Type} (P : α → Prop) (E : ε → Prop) : Except ε α → Prop
  | .ok a => P a
  | .error e => E e

theorem Yields.bind {ε α β : Type} {P : α → Prop} {P' : β → Prop} {E : ε → Prop} {r : Except ε α}
    {f : α → Except ε β} (h : Yields P E r) (hf : ∀ a, P a → Yields P' E (f a)) :
    Yields P' E (r >>= f) := by
  cases r with
  | ok a => exact hf a h
  | error e => exact h

/-- What operators calculate with. -/
def Number.arithmetic : List (Number → Number → Except Overflow Number) := [add, sub, mul, div, mod]

/-- The body of a closure is evaluated one level below the call's callee and arguments. -/
theorem evaluate_call (host : Host) (d : Nat) (callee : Expr) (args : List Expr) (s : ScopeId) :
    evaluate host (d + 2) (.call callee args) s = (do
      let f ← evaluate host d callee s
      let vs ← args.mapM fun a => evaluate host d a s
      Eval.callWith host (evaluate host (d - 1)) f vs) := by
  cases d with
  | zero =>
    have hzero : evaluate host 0 = fun _ _ => throw .tooDeep := by
      funext e s
      rw [evaluate]
      exact nofun
    rw [evaluate, hzero]
  | succ d => rw [evaluate, Nat.add_sub_cancel]

theorem evaluate_assign_of_ne {host : Host} {target : Expr} (h : ∀ n, target ≠ .name n) (d : Nat)
    (x : Expr) (s : ScopeId) : evaluate host (d + 2) (.assign target x) s = Eval.refuse d target := by
  rw [evaluate]
  exact h

/-- How a run may stop. -/
def StopsWith (error : EvalError → Prop) (store : Store → Prop) : Stop EvalError → Store → Prop
  | .tooDeep, st => store st
  | .error e, st => error e ∧ store st

structure Discipline (host : Host) where
  store : Store → Prop
  later : Store → Store → Prop
  value : Value → Store → Prop
  tree : Expr → ScopeId → Store → Prop
  error : EvalError → Prop
  later_refl : ∀ st, later st st
  later_trans : ∀ {st st' st''}, later st st' → later st' st'' → later st st''
  value_later : ∀ {v st st'}, value v st → later st st' → value v st'
  tree_later : ∀ {e s st st'}, tree e s st → later st st' → tree e s st'
  tree_part : ∀ {e e' s st}, tree e s st → e' ∈ e.parts → tree e' s st
  number : ∀ x st, value (.number (.real x)) st
  text : ∀ t st, value (.text t) st
  truth : ∀ b st, value (.truth b) st
  -- names
  read : ∀ {n s st v}, store st → tree (.name n) s st → st.get? s n = some v → value v st
  unread : ∀ {n s st}, store st → tree (.name n) s st → st.get? s n = none → error (.undefined n)
  assigned : ∀ {n e s st v j}, store st → tree (.assign (.name n) e) s st → value v st →
    st.target? s n = some j → store (st.define j n v) ∧ later st (st.define j n v)
  unassigned : ∀ {n e s st}, store st → tree (.assign (.name n) e) s st → st.target? s n = none →
    error (.undefined n)
  badTarget : ∀ {target e s st}, tree (.assign target e) s st → (∀ n, target ≠ .name n) →
    error (.badTarget target)
  -- functions
  closure : ∀ {params body s st}, store st → tree (.lambda params body) s st →
    value (.closure st.identities params body s) st.fresh.2 ∧ store st.fresh.2 ∧ later st st.fresh.2
  enter : ∀ {i params body scope args st}, store st → value (.closure i params body scope) st →
    (∀ a ∈ args, value a st) →
    let st' := Eval.bindParams st.scopes.size params args (st.extend scope).2
    tree body st.scopes.size st' ∧ store st' ∧ later st st'
  native : ∀ {i f args st}, store st → value (.native i f) st → (∀ a ∈ args, value a st) →
    wp (host f args) (fun v st' => value v st' ∧ store st' ∧ later st st') (StopsWith error store) st
  notCallable : ∀ v, error (.notCallable v)
  -- operators
  notNumber : ∀ v, error (.notNumber v)
  divideByZero : error .divideByZero
  calculated : ∀ {f m n st}, f ∈ Number.arithmetic → value (.number m) st → value (.number n) st →
    Yields (fun k => value (.number k) st) (fun o => error (.overflow o)) (f m n)
  unknownOperator : ∀ {op left right s st}, tree (.binary op left right) s st →
    Operator.ofText? op = none → ∀ a b, error (.unknownOperator op a b)
  alien : ∀ {w s st}, tree (.alien w) s st → error (.notExpression (.alien w))

namespace Discipline
variable {host : Host} {D : Discipline host} {st st' st'' : Store} {v a b : Value}

theorem yields_operand (ha : D.value a st) :
    Yields (fun n => D.value (.number n) st) D.error (Operator.operand a) := by
  cases a with
  | number n => exact ha
  | text | truth | closure | native => exact D.notNumber _

theorem yields_divisor (ha : D.value a st) :
    Yields (fun n => D.value (.number n) st) D.error (Operator.divisor a) := by
  refine (yields_operand ha).bind fun n hn => ?_
  cases n.isZero with
  | true => exact D.divideByZero
  | false => exact hn

theorem yields_calculated {f : Number → Number → Except Overflow Number} {m n : Number}
    (hf : f ∈ Number.arithmetic) (hm : D.value (.number m) st) (hn : D.value (.number n) st) :
    Yields (D.value · st) D.error (Operator.calculated (f m n)) := by
  have h := D.calculated hf hm hn
  cases hr : f m n with
  | ok k =>
    rw [hr] at h
    exact h
  | error o =>
    rw [hr] at h
    exact h

theorem yields_ordered (accepts : Ordering → Bool) (ha : D.value a st) (hb : D.value b st) :
    Yields (D.value · st) D.error (Operator.ordered accepts a b) :=
  (yields_operand ha).bind fun _ _ => (yields_operand hb).bind fun _ _ => D.truth _ st

theorem yields_apply (o : Operator) (ha : D.value a st) (hb : D.value b st) :
    Yields (D.value · st) D.error (o.apply a b) := by
  have two : ∀ {f} {second : Value → Except EvalError Number}, f ∈ Number.arithmetic →
      Yields (fun n => D.value (.number n) st) D.error (second b) →
      Yields (D.value · st) D.error
        (do Operator.calculated (f (← Operator.operand a) (← second b))) := by
    intro f second hf hs
    refine (yields_operand ha).bind fun m hm => ?_
    exact hs.bind fun n hn => yields_calculated hf hm hn
  cases o with
  | add | sub | mul => exact two (by simp [Number.arithmetic]) (yields_operand hb)
  | div | mod => exact two (by simp [Number.arithmetic]) (yields_divisor hb)
  | and =>
    show D.value (if a.isTruthy then b else .nothing) st
    split
    · exact hb
    · exact D.truth false st
  | or =>
    show D.value (if a.isTruthy then a else b) st
    split
    · exact ha
    · exact hb
  | lt | gt | le | ge => exact yields_ordered _ ha hb
  | eq | ne => exact D.truth _ st

theorem yields_applyText {op : String} {left right : Expr} {s : ScopeId}
    (he : D.tree (.binary op left right) s st) (ha : D.value a st) (hb : D.value b st) :
    Yields (D.value · st) D.error (Operator.applyText op a b) := by
  rw [Operator.applyText]
  cases hop : Operator.ofText? op with
  | none => exact D.unknownOperator he hop a b
  | some o => exact yields_apply o ha hb

/-- What a run that began in `st` may end with. -/
structure Done (D : Discipline host) (st : Store) (v : Value) (st' : Store) : Prop where
  value : D.value v st'
  store : D.store st'
  later : D.later st st'

abbrev Stopped (D : Discipline host) : Stop EvalError → Store → Prop := StopsWith D.error D.store

theorem Done.trans (h : D.Done st' v st'') (hl : D.later st st') : D.Done st v st'' :=
  ⟨h.value, h.store, D.later_trans hl h.later⟩

theorem wp_callWith {body : Expr → ScopeId → Eval Value}
    (hbody : ∀ e s st, D.store st → D.tree e s st → wp (body e s) (D.Done st) D.Stopped st)
    (hst : D.store st) {f : Value} {args : List Value} (hf : D.value f st)
    (hargs : ∀ a ∈ args, D.value a st) :
    wp (Eval.callWith host body f args) (D.Done st) D.Stopped st := by
  cases f with
  | closure i params e scope =>
    obtain ⟨htree, hst', hl⟩ := D.enter hst hf hargs
    rw [Eval.callWith, wp_bind, Eval.enter, wp_modifyGet]
    exact wp_mono (hbody e _ _ hst' htree) (fun v st'' h => h.trans hl) fun _ _ h => h
  | native i f =>
    refine wp_mono (D.native hst hf hargs) ?_ fun _ _ h => h
    rintro v st' ⟨hv, hst', hl⟩
    exact ⟨hv, hst', hl⟩
  | number | text | truth => exact ⟨D.notCallable _, hst⟩

theorem wp_evaluateAll {f : Expr → Eval Value} {s : ScopeId} {as : List Expr}
    (hf : ∀ e st, D.store st → D.tree e s st → wp (f e) (D.Done st) D.Stopped st)
    (hst : D.store st) (has : ∀ a ∈ as, D.tree a s st) :
    wp (as.mapM f) (fun vs st' => (∀ v ∈ vs, D.value v st') ∧ D.store st' ∧ D.later st st')
      D.Stopped st := by
  -- what is later than the first store is all that the trees need
  have hstep : ∀ a ∈ as, ∀ st', D.store st' ∧ D.later st st' →
      wp (f a) (fun v st'' => D.value v st'' ∧ (D.store st'' ∧ D.later st st'') ∧ D.later st' st'')
        D.Stopped st' := by
    rintro a ha st' ⟨hst', hl⟩
    refine wp_mono (hf a st' hst' (D.tree_later (has a ha) hl)) ?_ fun _ _ h => h
    intro v st'' h
    exact ⟨h.value, ⟨h.store, D.later_trans hl h.later⟩, h.later⟩
  refine wp_mono (wp_mapM (I := fun st' => D.store st' ∧ D.later st st') (P := D.value)
    D.later_refl D.later_trans D.value_later hstep ⟨hst, D.later_refl st⟩) ?_ fun _ _ h => h
  rintro vs st' ⟨hvs, ⟨hst', hl⟩, -⟩
  exact ⟨hvs, hst', hl⟩

theorem wp_evaluateItems {f : Expr → Eval Value} {s : ScopeId} {es : List Expr}
    (hf : ∀ e st, D.store st → D.tree e s st → wp (f e) (D.Done st) D.Stopped st)
    (hst : D.store st) (hes : ∀ e ∈ es, D.tree e s st) :
    wp (es.foldlM (fun _ e => f e) .nothing) (D.Done st) D.Stopped st := by
  have hstep : ∀ e ∈ es, ∀ (_ : Value) st', D.store st' ∧ D.later st st' →
      wp (f e) (fun v st'' => D.value v st'' ∧ (D.store st'' ∧ D.later st st'')) D.Stopped st' := by
    rintro e he - st' ⟨hst', hl⟩
    refine wp_mono (hf e st' hst' (D.tree_later (hes e he) hl)) ?_ fun _ _ h => h
    intro v st'' h
    exact ⟨h.value, h.store, D.later_trans hl h.later⟩
  refine wp_mono (wp_foldlM (I := fun st' => D.store st' ∧ D.later st st') (P := D.value) hstep
    (D.truth false st) ⟨hst, D.later_refl st⟩) ?_ fun _ _ h => h
  rintro v st' ⟨hv, hst', hl⟩
  exact ⟨hv, hst', hl⟩

/-- A computation that goes on from a run of `x` with what that run kept. -/
theorem wp_bind_done {α : Type} {x : Eval Value} {f : Value → Eval α} {R : α → Store → Prop}
    {B : Stop EvalError → Store → Prop} (hx : wp x (D.Done st) B st)
    (hf : ∀ v st', D.Done st v st' → wp (f v) R B st') : wp (x >>= f) R B st := by
  rw [wp_bind]
  exact wp_mono hx hf fun _ _ h => h

theorem wp_evaluate (limit : Nat) (e : Expr) (s : ScopeId) (st : Store) (hst : D.store st)
    (he : D.tree e s st) : wp (evaluate host limit e s) (D.Done st) D.Stopped st := by
  induction limit using Nat.strongRecOn generalizing e s st with
  | ind limit ih =>
  match limit with
  | 0 | 1 => exact hst
  | d + 2 =>
    have hd : ∀ e s st, D.store st → D.tree e s st →
        wp (evaluate host d e s) (D.Done st) D.Stopped st := ih d (by omega)
    cases e with
    | number x => exact ⟨D.number x st, hst, D.later_refl st⟩
    | text t => exact ⟨D.text t st, hst, D.later_refl st⟩
    | truth b => exact ⟨D.truth b st, hst, D.later_refl st⟩
    | name n =>
      exact wp_valueOf (fun v hv => ⟨D.read hst he hv, hst, D.later_refl st⟩)
        fun hn => ⟨D.unread hst he hn, hst⟩
    | lambda params body =>
      obtain ⟨hv, hst', hl⟩ := D.closure hst he
      exact ⟨hv, hst', hl⟩
    | call callee args =>
      rw [evaluate_call]
      refine wp_bind_done (hd callee s st hst (D.tree_part he (List.mem_cons_self ..))) ?_
      intro f st₁ h₁
      have hargs : ∀ a ∈ args, D.tree a s st₁ := fun a ha =>
        D.tree_later (D.tree_part he (List.mem_cons_of_mem _ ha)) h₁.later
      rw [wp_bind]
      refine wp_mono (wp_evaluateAll (fun e => hd e s) h₁.store hargs) ?_ fun _ _ h => h
      rintro vs st₂ ⟨hvs, hst₂, hl₂⟩
      exact wp_mono (wp_callWith (ih (d - 1) (by omega)) hst₂ (D.value_later h₁.value hl₂) hvs)
        (fun v st₃ h => (h.trans hl₂).trans h₁.later) fun _ _ h => h
    | cond test yes no =>
      have hpart : ∀ e' ∈ test :: yes :: no.toList, D.tree e' s st := fun e' => D.tree_part he
      obtain ⟨htest, hpart⟩ := List.forall_mem_cons.1 hpart
      obtain ⟨hyes, hno⟩ := List.forall_mem_cons.1 hpart
      show wp (evaluate host d test s >>= _) _ _ _
      refine wp_bind_done (hd test s st hst htest) ?_
      intro c st₁ h₁
      have branch : ∀ e', D.tree e' s st → wp (evaluate host d e' s) (D.Done st) D.Stopped st₁ :=
        fun e' he' => wp_mono (hd e' s st₁ h₁.store (D.tree_later he' h₁.later))
          (fun v st₂ h => h.trans h₁.later) fun _ _ h => h
      split
      · exact branch yes hyes
      · cases no with
        | none => exact ⟨D.truth false st₁, h₁.store, h₁.later⟩
        | some e' => exact branch e' (hno e' (by simp))
    | assign target x =>
      by_cases htarget : ∃ n, target = .name n
      · obtain ⟨n, rfl⟩ := htarget
        rw [evaluate]
        refine wp_bind_done (hd x s st hst (D.tree_part he (List.mem_singleton_self x))) ?_
        intro v st₁ h₁
        have he₁ := D.tree_later he h₁.later
        refine wp_assign (fun j hj => ?_) fun hn => ⟨D.unassigned h₁.store he₁ hn, h₁.store⟩
        obtain ⟨hst₂, hl₂⟩ := D.assigned h₁.store he₁ h₁.value hj
        exact ⟨D.value_later h₁.value hl₂, hst₂, D.later_trans h₁.later hl₂⟩
      · have hne : ∀ n, target ≠ .name n := not_exists.1 htarget
        rw [evaluate_assign_of_ne hne, Eval.refuse, wp_ite]
        split
        · exact ⟨D.badTarget he hne, hst⟩
        · exact hst
    | binary op left right =>
      rw [evaluate]
      refine wp_bind_done (hd left s st hst (D.tree_part he (by simp [Expr.parts]))) ?_
      intro a st₁ h₁
      have he₁ := D.tree_later he h₁.later
      refine wp_bind_done (hd right s st₁ h₁.store (D.tree_part he₁ (by simp [Expr.parts]))) ?_
      intro b st₂ h₂
      have he₂ := D.tree_later he₁ h₂.later
      have ha := D.value_later h₁.value h₂.later
      have happ := yields_applyText he₂ ha h₂.value
      cases hr : Operator.applyText op a b with
      | ok v =>
        rw [hr] at happ
        exact ⟨happ, h₂.store, D.later_trans h₁.later h₂.later⟩
      | error err =>
        rw [hr] at happ
        exact ⟨happ, h₂.store⟩
    | block items =>
      rw [evaluate]
      exact wp_evaluateItems (fun e => hd e s) hst fun e' => D.tree_part he
    | alien w => exact ⟨D.alien he, hst⟩

end Discipline

end ExprLang
