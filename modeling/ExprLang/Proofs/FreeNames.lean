import ExprLang.Proofs.Evaluation

/-!
# Names that are free stay bound

A closure is closed in a store if every free name of its body, its parameters apart, is known in the
scope it was made in or around it. Names are never forgotten, so a closure that is closed stays so;
and a call runs the body where the parameters are known too. Evaluating a tree whose free names are
known therefore never asks for an undefined one, if native functions touch no scope and answer one
of their arguments or false.
-/

namespace ExprLang

namespace Expr

mutual

/-- The names read or assigned to in a tree that no function inside it binds. -/
def freeNames : Expr → List String
  | number _ | text _ | truth _ | alien _ => []
  | name n => [n]
  | lambda params body => body.freeNames.filter (· ∉ params)
  | call callee args => callee.freeNames ++ freeNamesAll args
  | cond test yes no => test.freeNames ++ yes.freeNames ++ freeNamesElse no
  | assign target value => target.freeNames ++ value.freeNames
  | binary _ left right => left.freeNames ++ right.freeNames
  | block items => freeNamesAll items

def freeNamesAll : List Expr → List String
  | [] => []
  | e :: es => e.freeNames ++ freeNamesAll es

def freeNamesElse : Option Expr → List String
  | none => []
  | some e => e.freeNames

end

variable {e e' : Expr} {es : List Expr} {n : String}

theorem mem_freeNamesAll (he : e ∈ es) (hn : n ∈ e.freeNames) : n ∈ freeNamesAll es := by
  induction es with
  | nil => cases he
  | cons e' es ih =>
    rw [freeNamesAll]
    rcases List.mem_cons.1 he with rfl | he
    · exact List.mem_append_left _ hn
    · exact List.mem_append_right _ (ih he)

theorem mem_freeNames_of_parts (he' : e' ∈ e.parts) (hn : n ∈ e'.freeNames) : n ∈ e.freeNames := by
  cases e with
  | number | text | truth | name | lambda | alien => cases he'
  | call callee args =>
    rw [freeNames]
    rcases List.mem_cons.1 he' with rfl | he'
    · exact List.mem_append_left _ hn
    · exact List.mem_append_right _ (mem_freeNamesAll he' hn)
  | cond test yes no =>
    rw [freeNames]
    rcases List.mem_cons.1 he' with rfl | he'
    · exact List.mem_append_left _ (List.mem_append_left _ hn)
    rcases List.mem_cons.1 he' with rfl | he'
    · exact List.mem_append_left _ (List.mem_append_right _ hn)
    · obtain rfl := Option.mem_toList.1 he'
      exact List.mem_append_right _ hn
  | assign target value =>
    cases target with
    | name m =>
      rw [List.mem_singleton.1 he'] at hn
      exact List.mem_append_right _ hn
    | _ => cases he'
  | binary op left right =>
    rw [freeNames]
    rcases List.mem_cons.1 he' with rfl | he'
    · exact List.mem_append_left _ hn
    · rw [List.mem_singleton.1 he'] at hn
      exact List.mem_append_right _ hn
  | block items => exact mem_freeNamesAll he' hn

end Expr

/-- Every free name of a closure is known where the closure was made. -/
def Value.ClosedIn (st : Store) : Value → Prop
  | .closure _ params body scope => ∀ n ∈ body.freeNames, n ∉ params → st.Defined scope n
  | _ => True

theorem Value.ClosedIn.grows {st st' : Store} {v : Value} (h : v.ClosedIn st) (hst : st.Grows st') :
    v.ClosedIn st' := by
  cases v with
  | closure i params body scope => exact fun n hn hp => hst scope n (h n hn hp)
  | number | text | truth | native => exact trivial

def Store.Closed (st : Store) : Prop := st.All (Value.ClosedIn st)

namespace Store
variable {st st' : Store} {i : ScopeId} {n : String} {v : Value}

theorem closed_of_grows (h : st'.All (Value.ClosedIn st)) (hst : st.Grows st') : st'.Closed :=
  h.mono fun _ hv => hv.grows hst

theorem Closed.of_scopes (h : st.Closed) (hscopes : st'.scopes = st.scopes) : st'.Closed := by
  refine closed_of_grows (fun i sc hsc => h i sc ?_) (grows_of_scopes hscopes)
  rw [← hscopes, hsc]

theorem Closed.define (h : st.Closed) (hv : v.ClosedIn st) : (st.define i n v).Closed :=
  closed_of_grows (All.define h hv) grows_define

/-- The free names of a body are known in the scope of a call. -/
theorem defined_enter {params : List String} {body : Expr} {k : Nat} {args : List Value}
    (h : (Value.closure k params body i).ClosedIn st) (hn : n ∈ body.freeNames) :
    (Eval.bindParams st.scopes.size params args (st.extend i).2).Defined st.scopes.size n := by
  by_cases hp : n ∈ params
  · refine defined_bindParams ?_ args hp
    rw [extend, Array.size_push]
    exact Nat.lt_succ_self _
  · exact grows_bindParams params args _ n (defined_child (h n hn hp))

theorem Closed.enter (h : st.Closed) {params : List String} {args : List Value}
    (hargs : ∀ a ∈ args, a.ClosedIn st) :
    (Eval.bindParams st.scopes.size params args (st.extend i).2).Closed ∧
      st.Grows (Eval.bindParams st.scopes.size params args (st.extend i).2) := by
  have hgrows : st.Grows (Eval.bindParams st.scopes.size params args (st.extend i).2) :=
    (grows_extend i).trans (grows_bindParams params args)
  exact ⟨closed_of_grows ((All.extend h i).bindParams hargs trivial) hgrows, hgrows⟩

end Store

/-- Only a native function may itself fail with an undefined name. -/
def Discipline.closed {host : Host} (hscopes : host.KeepsScopes) (hanswers : host.AnswersArguments) :
    Discipline host where
  store := Store.Closed
  later := Store.Grows
  value v st := v.ClosedIn st
  tree e s st := ∀ n ∈ e.freeNames, st.Defined s n
  error err := ∀ n, err = .undefined n → host.Raises (.undefined n)
  later_refl := Store.Grows.refl
  later_trans h h' := h.trans h'
  value_later hv h := hv.grows h
  tree_later he h n hn := h _ n (he n hn)
  tree_part he he' n hn := he n (Expr.mem_freeNames_of_parts he' hn)
  number _ _ := trivial
  text _ _ := trivial
  truth _ _ := trivial
  read hst _ hv := hst.get? hv
  unread _ he hnone := by
    obtain ⟨v, hv⟩ := Store.get?_of_defined (he _ (List.mem_singleton_self _))
    rw [hnone] at hv
    cases hv
  assigned hst _ hv _ := ⟨hst.define hv, Store.grows_define⟩
  unassigned _ he hnone := by
    have hn := he _ (List.mem_append_left _ (List.mem_singleton_self _))
    obtain ⟨j, hj⟩ := Store.target?_of_defined hn
    rw [hnone] at hj
    cases hj
  badTarget _ _ _ := nofun
  closure hst he := by
    have hgrows : ∀ st : Store, st.Grows st.fresh.2 := fun _ => Store.grows_of_scopes rfl
    refine ⟨fun n hn hp => ?_, hst.of_scopes rfl, hgrows _⟩
    exact hgrows _ _ n (he n (List.mem_filter.2 ⟨hn, decide_eq_true hp⟩))
  enter hst hv hargs := ⟨fun n hn => Store.defined_enter hv hn, hst.enter hargs⟩
  native {_ f args st} hst _ hargs := by
    have hrun := hscopes.wp f args st
    cases hr : host f args st with
    | ok v st' =>
      obtain ⟨-, hsame⟩ := (wp_iff_of_ok hr).1 hrun
      have hgrows : st.Grows st' := Store.grows_of_scopes hsame
      refine (wp_iff_of_ok hr).2 ⟨?_, hst.of_scopes hsame, hgrows⟩
      rcases hanswers hr with hv | rfl
      · exact (hargs v hv).grows hgrows
      · exact trivial
    | error err st' =>
      have hst' : st'.Closed := hst.of_scopes ((wp_iff_of_error hr).1 hrun)
      refine (wp_iff_of_error hr).2 ?_
      cases err with
      | tooDeep => exact hst'
      | error e =>
        refine ⟨fun n hn => ?_, hst'⟩
        subst hn
        exact ⟨f, args, st, st', hr⟩
  notCallable _ _ := nofun
  notNumber _ _ := nofun
  divideByZero _ := nofun
  calculated {f m n _} _ _ _ := by
    cases f m n with
    | ok k => exact trivial
    | error o => exact fun _ => nofun
  unknownOperator _ _ _ _ _ := nofun
  alien _ _ := nofun

/-- With every closure closed and every free name known, no name is ever undefined, unless a native
function itself says so; and every closure is closed again, however the evaluation ends. -/
theorem evaluate_never_undefined (host : Host) (hscopes : host.KeepsScopes)
    (hanswers : host.AnswersArguments) (limit : Nat) (e : Expr) (s : ScopeId) (st : Store)
    (hst : st.Closed) (hfree : ∀ n ∈ e.freeNames, st.Defined s n) :
    match evaluate host limit e s st with
    | .ok v st' => v.ClosedIn st' ∧ st'.Closed
    | .error err st' =>
      (∀ n, ¬ host.Raises (.undefined n) → err ≠ .error (.undefined n)) ∧ st'.Closed := by
  have hrun := (Discipline.closed hscopes hanswers).wp_evaluate limit e s st hst hfree
  cases hr : evaluate host limit e s st with
  | ok v st' =>
    have hdone := (wp_iff_of_ok hr).1 hrun
    exact ⟨hdone.value, hdone.store⟩
  | error err st' =>
    have hstop := (wp_iff_of_error hr).1 hrun
    cases err with
    | tooDeep => exact ⟨fun n _ => nofun, hstop⟩
    | error err => exact ⟨fun n hhost hn => hhost (hstop.1 n (Stop.error.inj hn)), hstop.2⟩

/-- `f = pick("a", lambda (y) y); f()`, where `pick` answers the last of its arguments and `f` calls
`print` before. -/
theorem evaluate_never_undefined_closure :
    ∃ (st : Store) (e : Expr), st = (Store.initial.define Store.root "f"
        (.closure 1 ["x"] (.call (.name "print") [.name "x"]) Store.root)).define Store.root "pick"
        (.native 2 ⟨some "pick", "<function pick>"⟩) ∧
      e = .block [.assign (.name "f")
        (.call (.name "pick") [.text "a", .lambda ["y"] (.name "y")]), .call (.name "f") []] ∧
      st.Closed ∧ (∀ n ∈ e.freeNames, st.Defined Store.root n) ∧
      Host.last.KeepsScopes ∧ Host.last.AnswersArguments ∧
      (∀ n, ¬ Host.last.Raises (.undefined n)) ∧
      ∃ v st', evaluate .last 9 e Store.root st = .ok v st' ∧ v.ClosedIn st' ∧ st'.Closed ∧
        st'.get? Store.root "f" = some (.closure 1 ["y"] (.name "y") Store.root) := by
  have hf : Value.ClosedIn Store.initial
      (.closure 1 ["x"] (.call (.name "print") [.name "x"]) Store.root) := by
    intro n hn hp
    simp only [Expr.freeNames, Expr.freeNamesAll, List.mem_append, List.mem_singleton,
      List.not_mem_nil, or_false] at hn hp
    rw [hn.resolve_right hp]
    exact ⟨0, by decide, by decide⟩
  have hst : ((Store.initial.define Store.root "f" _).define Store.root "pick"
      (.native 2 ⟨some "pick", "<function pick>"⟩)).Closed :=
    (Store.Closed.define (Store.all_initial trivial) hf).define trivial
  have hfree : ∀ u v, ∀ n ∈ (Expr.block [.assign (.name "f")
      (.call (.name "pick") [.text "a", .lambda ["y"] (.name "y")]), .call (.name "f") []]).freeNames,
      ((Store.initial.define Store.root "f" u).define Store.root "pick" v).Defined Store.root n := by
    intro u v n hn
    have hn : n = "f" ∨ n = "pick" := by
      simp only [Expr.freeNames, Expr.freeNamesAll, List.mem_append, List.mem_singleton,
        List.mem_filter, decide_eq_true_eq, List.not_mem_nil, or_false, and_not_self] at hn
      rcases hn with (hn | hn) | hn
      · exact .inl hn
      · exact .inr hn
      · exact .inl hn
    have hroot : Store.root < (Store.initial.define Store.root "f" u).scopes.size := by
      rw [Store.size_define]
      decide
    rcases hn with rfl | rfl
    · exact Store.grows_define _ _
        (Store.defined_of_defines (Store.defines_define_self (by decide)))
    · exact Store.defined_of_defines (Store.defines_define_self hroot)
  have hrun := evaluate_never_undefined .last Host.keepsScopes_last Host.answersArguments_last 9 _ _ _
    hst (hfree _ _)
  exact ⟨_, _, rfl, rfl, hst, hfree _ _, Host.keepsScopes_last, Host.answersArguments_last,
    Host.not_raises_last, _, _, rfl, hrun.1, hrun.2, rfl⟩

end ExprLang
