import ExprLang.Interpret
import ExprLang.Proofs.Correspondence
import ExprLang.Proofs.Render

/-!
# Names that no text mentions

Texts are interpreted one after another in a scope `r`, once as it is and once with a further
binding of `b`. If none of them mentions `b`, the two sessions go alike: no lookup and no assignment
of theirs asks for `b`, so the two stores differ all along in nothing but that binding.

The value bound to `b` may be a function, with scopes of its own. Programs never come to those: they
go on in `r` and in scopes that were opened since, and what they find there leads nowhere else
(`Store.Confined`).
-/

namespace ExprLang
open Grammar

/-- The name stands nowhere in the tree, the bodies of functions included. -/
inductive Expr.Avoids (b : String) : Expr → Prop
  | number (x : Float) : Avoids b (.number x)
  | text (s : String) : Avoids b (.text s)
  | truth (v : Bool) : Avoids b (.truth v)
  | name {n : String} (hn : n ≠ b) : Avoids b (.name n)
  | lambda {params : List String} {body : Expr} (hb : Avoids b body) : Avoids b (.lambda params body)
  | call {callee : Expr} {args : List Expr} (hc : Avoids b callee) (ha : ∀ a ∈ args, Avoids b a) :
      Avoids b (.call callee args)
  | cond {test yes : Expr} {no : Option Expr} (ht : Avoids b test) (hy : Avoids b yes)
      (hn : ∀ e, no = some e → Avoids b e) : Avoids b (.cond test yes no)
  | assign {target value : Expr} (ht : Avoids b target) (hv : Avoids b value) :
      Avoids b (.assign target value)
  | binary {op : String} {left right : Expr} (hl : Avoids b left) (hr : Avoids b right) :
      Avoids b (.binary op left right)
  | block {items : List Expr} (hi : ∀ e ∈ items, Avoids b e) : Avoids b (.block items)

theorem Expr.Avoids.name_ne {b n : String} (h : (Expr.name n).Avoids b) : n ≠ b := by
  cases h with
  | name hn => exact hn

theorem Expr.Avoids.body {b : String} {params : List String} {body : Expr}
    (h : (Expr.lambda params body).Avoids b) : body.Avoids b := by
  cases h with
  | lambda hb => exact hb

theorem Expr.Avoids.target {b : String} {target value : Expr}
    (h : (Expr.assign target value).Avoids b) : target.Avoids b := by
  cases h with
  | assign ht _ => exact ht

theorem Expr.Avoids.of_mem_parts {b : String} {e e' : Expr} (h : e.Avoids b) (he' : e' ∈ e.parts) :
    e'.Avoids b := by
  cases h with
  | number | text | truth | name | lambda => cases he'
  | call hc ha =>
    rcases List.mem_cons.1 he' with rfl | he'
    · exact hc
    · exact ha e' he'
  | cond ht hy hn =>
    rcases List.mem_cons.1 he' with rfl | he'
    · exact ht
    rcases List.mem_cons.1 he' with rfl | he'
    · exact hy
    · exact hn e' (Option.mem_toList.1 he')
  | @assign target value ht hv =>
    cases target with
    | name n =>
      rw [List.mem_singleton.1 he']
      exact hv
    | _ => cases he'
  | binary hl hr =>
    rcases List.mem_cons.1 he' with rfl | he'
    · exact hl
    · rw [List.mem_singleton.1 he']
      exact hr
  | block hi => exact hi e' he'

theorem avoids_blockOf {b : String} {items : List Expr} (h : ∀ e ∈ items, e.Avoids b) :
    (blockOf items).Avoids b := by
  match items with
  | [] => exact .truth false
  | [e] => exact h e (List.mem_singleton_self e)
  | e :: e' :: es => exact .block h

theorem Reads.avoids {b : String} {u : List Lexeme} {e : Expr} (h : Reads u e)
    (hu : .name b ∉ u) : e.Avoids b := by
  have items : ∀ {ps : List (List Lexeme × Expr)} {w : List Lexeme},
      (∀ p ∈ ps, .name b ∉ p.1 → p.2.Avoids b) → Listed "," (ps.map Prod.fst) w → .name b ∉ w →
      ∀ e ∈ ps.map Prod.snd, e.Avoids b := by
    intro ps w hps hlisted hw e he
    obtain ⟨p, hp, rfl⟩ := List.mem_map.1 he
    exact hps p hp fun hmem => hw (hlisted.mem (List.mem_map_of_mem hp) hmem)
  have consequent : ∀ {y v : List Lexeme}, Consequent y v → .name b ∉ v → .name b ∉ y := by
    intro y v hv hmem
    rcases hv with rfl | ⟨rfl, -⟩
    · exact fun hy => hmem (List.mem_cons_of_mem _ hy)
    · exact hmem
  induction h with
  | number x => exact .number x
  | text s => exact .text s
  | name n => exact .name fun hn => hu (hn ▸ List.mem_singleton_self _)
  | yes => exact .truth true
  | no => exact .truth false
  | group _ ih => exact ih fun h => hu (by simp [h])
  | block _ hw ih => exact avoids_blockOf (items ih hw fun h => hu (by simp [h]))
  | cond _ _ hv ihc ihy =>
    have hyes := consequent hv fun h => hu (by simp [h])
    exact .cond (ihc fun h => hu (by simp [h])) (ihy hyes) nofun
  | condElse _ _ hv _ ihc ihy ihn =>
    have hyes := consequent hv fun h => hu (by simp [h])
    refine .cond (ihc fun h => hu (by simp [h])) (ihy hyes) fun e he => ?_
    cases he
    exact ihn fun h => hu (by simp [h])
  | function _ _ _ ih => exact .lambda (ih fun h => hu (by simp [h]))
  | call _ _ hw ihu ih =>
    exact .call (ihu fun h => hu (by simp [h])) (items ih hw fun h => hu (by simp [h]))
  | assign _ _ ihu ihv =>
    exact .assign (ihu fun h => hu (by simp [h])) (ihv fun h => hu (by simp [h]))
  | binary _ _ _ _ ihu ihv =>
    exact .binary (ihu fun h => hu (by simp [h])) (ihv fun h => hu (by simp [h]))

/-- Some token of the text is the name. -/
def Mentions (text b : String) : Prop :=
  ∃ ts, tokenize text = .ok ts ∧ ∃ t ∈ ts, t.lexeme = .name b

instance (text b : String) : Decidable (Mentions text b) :=
  decidable_of_iff ((tokenize text).toOption.any fun ts => ts.any fun t => t.lexeme == .name b) <| by
    cases h : tokenize text <;> simp [Mentions, h, Except.toOption]

theorem avoids_of_parse {limit : Nat} {text b : String} {p : Expr} (hb : ¬ Mentions text b)
    (h : parse limit text = .ok p) : p.Avoids b := by
  obtain ⟨ts, e, ps, hs, he, hps, rfl⟩ := reads_of_parse h
  have hts : tokenize text = .ok ts := by rw [hs.tokenize_eq, he]
  refine .block fun e he => ?_
  obtain ⟨q, hq, rfl⟩ := List.mem_map.1 he
  refine (hps.items q hq).avoids fun hmem => hb ⟨ts, hts, ?_⟩
  obtain ⟨t, ht, hname⟩ := List.mem_map.1 (hps.listed.mem (List.mem_map_of_mem hq) hmem)
  exact ⟨t, ht, hname⟩

namespace Scope
variable {b n : String} {vars : List (String × Value)}

/-- The bindings of other names. -/
def without (b : String) (vars : List (String × Value)) : List (String × Value) :=
  vars.filter (·.1 != b)

theorem without_cons_self (v : Value) : without b ((b, v) :: vars) = without b vars :=
  List.filter_cons_of_neg (by simp)

theorem without_cons_of_ne (hn : n ≠ b) (v : Value) :
    without b ((n, v) :: vars) = (n, v) :: without b vars :=
  List.filter_cons_of_pos (by simpa using hn)

theorem bind_cons_self (v x : Value) : bind n v ((n, x) :: vars) = (n, v) :: vars := by simp [bind]

theorem bind_cons_of_ne {m : String} (hm : m ≠ n) (v x : Value) :
    bind n v ((m, x) :: vars) = (m, x) :: bind n v vars := by
  simp [bind, hm]

theorem lookup_without (hn : n ≠ b) : (without b vars).lookup n = vars.lookup n := by
  induction vars with
  | nil => rfl
  | cons w vars ih =>
    obtain ⟨m, x⟩ := w
    by_cases hm : m = b
    · subst hm
      have hne : (n == m) = false := by simpa using hn
      rw [without_cons_self, List.lookup_cons, hne, ih]
    · rw [without_cons_of_ne hm, List.lookup_cons, List.lookup_cons, ih]

theorem without_bind (hn : n ≠ b) (v : Value) :
    without b (bind n v vars) = bind n v (without b vars) := by
  induction vars with
  | nil => exact without_cons_of_ne hn v
  | cons w vars ih =>
    obtain ⟨m, x⟩ := w
    by_cases hm : m = n
    · subst hm
      rw [bind_cons_self, without_cons_of_ne hn, without_cons_of_ne hn, bind_cons_self]
    rw [bind_cons_of_ne hm]
    by_cases hmb : m = b
    · subst hmb
      rw [without_cons_self, without_cons_self, ih]
    · rw [without_cons_of_ne hmb, without_cons_of_ne hmb, bind_cons_of_ne hm, ih]

end Scope

namespace Store
variable {r s j : ScopeId} {b m : String} {u v : Value} {st st' : Store}

/-! ### Stores that differ in one binding -/

/-- The second store has `b` bound to `v` in its scope `r`, which is a root; the first is the same
without that. -/
structure DiffersAt (r : ScopeId) (b : String) (v : Value) (st st' : Store) : Prop where
  root : ∃ vars, st.scopes[r]? = some ⟨Scope.without b vars, none⟩ ∧
    st'.scopes[r]? = some ⟨vars, none⟩ ∧ vars.lookup b = some v
  others : ∀ i ≠ r, st'.scopes[i]? = st.scopes[i]?
  size : st'.scopes.size = st.scopes.size
  identities : st'.identities = st.identities
  output : st'.output = st.output

namespace DiffersAt

theorem parent (h : DiffersAt r b v st st') (i : ScopeId) :
    st'.scopes[i]?.map Scope.parent = st.scopes[i]?.map Scope.parent := by
  by_cases hi : i = r
  · obtain ⟨vars, hst, hst', -⟩ := h.root
    rw [hi, hst, hst']
    rfl
  · rw [h.others i hi]

theorem binding (h : DiffersAt r b v st st') (hm : m ≠ b) (i : ScopeId) :
    st'.scopes[i]?.bind (·.get? m) = st.scopes[i]?.bind (·.get? m) := by
  by_cases hi : i = r
  · obtain ⟨vars, hst, hst', -⟩ := h.root
    rw [hi, hst, hst']
    exact (Scope.lookup_without hm).symm
  · rw [h.others i hi]

theorem lookup? (h : DiffersAt r b v st st') (hm : m ≠ b) : st'.lookup? s m = st.lookup? s m := by
  have hdefines : st'.defines m = st.defines m := by
    funext i
    have hi := congrArg Option.isSome (h.binding hm i)
    rw [Option.isSome_bind, Option.isSome_bind] at hi
    exact hi
  have hchain : st'.chain s = st.chain s := chain_eq_of_parents h.parent
  rw [Store.lookup?, Store.lookup?, hdefines, hchain]

theorem get? (h : DiffersAt r b v st st') (hm : m ≠ b) : st'.get? s m = st.get? s m := by
  have hbinding := h.binding hm
  simp only [Store.get?, h.lookup? hm, Option.bind_eq_bind, hbinding]

theorem target? (h : DiffersAt r b v st st') (hm : m ≠ b) : st'.target? s m = st.target? s m := by
  rw [Store.target?, Store.target?, h.lookup? hm, isRoot_eq, isRoot_eq, h.parent]

theorem define (h : DiffersAt r b v st st') (hm : j = r → m ≠ b) :
    DiffersAt r b v (st.define j m u) (st'.define j m u) where
  root := by
    obtain ⟨vars, hst, hst', hv⟩ := h.root
    by_cases hj : j = r
    · refine ⟨Scope.bind m u vars, ?_, ?_, ?_⟩
      · rw [Store.define, Array.getElem?_modify, if_pos hj, hst, Scope.without_bind (hm hj)]
        rfl
      · rw [Store.define, Array.getElem?_modify, if_pos hj, hst']
        rfl
      · rw [Scope.lookup_bind_of_ne (hm hj).symm, hv]
    · refine ⟨vars, ?_, ?_, hv⟩
      · rw [Store.define, Array.getElem?_modify, if_neg hj, hst]
      · rw [Store.define, Array.getElem?_modify, if_neg hj, hst']
  others i hi := by
    rw [Store.define, Store.define, Array.getElem?_modify, Array.getElem?_modify, h.others i hi]
  size := by rw [size_define, size_define, h.size]
  identities := h.identities
  output := h.output

theorem lt (h : DiffersAt r b v st st') : r < st.scopes.size := by
  obtain ⟨vars, hst, -⟩ := h.root
  exact (Array.getElem?_eq_some_iff.1 hst).1

theorem extend (h : DiffersAt r b v st st') (p : ScopeId) :
    DiffersAt r b v (st.extend p).2 (st'.extend p).2 where
  root := by
    obtain ⟨vars, hst, hst', hv⟩ := h.root
    refine ⟨vars, ?_, ?_, hv⟩
    · rw [getElem?_extend p h.lt, hst]
    · rw [getElem?_extend p (h.size ▸ h.lt), hst']
  others i hi := by
    rw [Store.extend, Store.extend, Array.getElem?_push, Array.getElem?_push, h.size, h.others i hi]
  size := by rw [Store.extend, Store.extend, Array.size_push, Array.size_push, h.size]
  identities := h.identities
  output := h.output

theorem bindParams (h : DiffersAt r b v st st') (hj : j ≠ r) (params : List String)
    (args : List Value) :
    DiffersAt r b v (Eval.bindParams j params args st) (Eval.bindParams j params args st') := by
  induction params generalizing st st' args with
  | nil => exact h
  | cons p params ih =>
    cases args with
    | nil => exact ih (h.define fun hr => absurd hr hj) []
    | cons a args => exact ih (h.define fun hr => absurd hr hj) args

theorem entered (h : DiffersAt r b v st st') (p : ScopeId) (params : List String)
    (args : List Value) : DiffersAt r b v (st.entered p params args) (st'.entered p params args) := by
  rw [Store.entered, Store.entered, h.size]
  exact (h.extend p).bindParams (Nat.ne_of_gt h.lt) params args

end DiffersAt

end Store

/-- The scope `r`, or one that was opened after the first `n`. -/
def Reachable (r : ScopeId) (n : Nat) (i : ScopeId) : Prop := i = r ∨ n ≤ i

/-- A function made in such a scope, with a body that does not mention `b`; or no closure. -/
def Value.Inside (r : ScopeId) (n : Nat) (b : String) : Value → Prop
  | .closure _ _ body scope => Reachable r n scope ∧ body.Avoids b
  | _ => True

namespace Store
variable {r i j p : ScopeId} {n : Nat} {b m : String} {u : Value} {st st' : Store}

/-- From `r` and the scopes opened since, parents and closures lead to no others. -/
structure Confined (r : ScopeId) (n : Nat) (b : String) (st : Store) : Prop where
  size : n ≤ st.scopes.size
  parents : ∀ i p, Reachable r n i → st.scopes[i]?.map Scope.parent = some (some p) → Reachable r n p
  values : ∀ i sc x, Reachable r n i → st.scopes[i]? = some sc → x ∈ sc.vars → x.2.Inside r n b

namespace Confined

theorem of_scopes (h : Confined r n b st) (hscopes : st'.scopes = st.scopes) : Confined r n b st' := by
  obtain ⟨hsize, hparents, hvalues⟩ := h
  rw [← hscopes] at hsize hparents hvalues
  exact ⟨hsize, hparents, hvalues⟩

theorem define (h : Confined r n b st) (hu : u.Inside r n b) : Confined r n b (st.define j m u) where
  size := by rw [size_define]; exact h.size
  parents i p hi hp := h.parents i p hi (by rw [← hp, parent_define])
  values i sc x hi hsc hx := by
    rw [Store.define, Array.getElem?_modify] at hsc
    split at hsc
    · obtain ⟨sc', hsc', rfl⟩ := Option.map_eq_some_iff.1 hsc
      rcases Scope.mem_bind hx with rfl | hx
      · exact hu
      · exact h.values i sc' x hi hsc' hx
    · exact h.values i sc x hi hsc hx

theorem extend (h : Confined r n b st) (hp : Reachable r n p) : Confined r n b (st.extend p).2 where
  size := by
    rw [Store.extend, Array.size_push]
    exact Nat.le_succ_of_le h.size
  parents i q hi hq := by
    rw [Store.extend, Array.getElem?_push] at hq
    split at hq
    · cases hq
      exact hp
    · exact h.parents i q hi hq
  values i sc x hi hsc hx := by
    rw [Store.extend, Array.getElem?_push] at hsc
    split at hsc
    · cases hsc
      cases hx
    · exact h.values i sc x hi hsc hx

theorem bindParams (h : Confined r n b st) (params : List String) {args : List Value}
    (hargs : ∀ a ∈ args, a.Inside r n b) : Confined r n b (Eval.bindParams j params args st) :=
  bindParams_induction (I := Confined r n b) (P := Value.Inside r n b) (fun _ _ _ h hu => h.define hu)
    trivial h params hargs

theorem chain (h : Confined r n b st) (hi : Reachable r n i) (hj : j ∈ st.chain i) :
    Reachable r n j := by
  refine mem_chain_of_closed (fun i sc p hi hsc hp => h.parents i p hi ?_) hi hj
  rw [hsc, Option.map_some, hp]

theorem get? (h : Confined r n b st) (hi : Reachable r n i) (hu : st.get? i m = some u) :
    u.Inside r n b := by
  obtain ⟨j, hj, sc, hsc, hmem⟩ := mem_of_get? hu
  exact h.values j sc (m, u) (h.chain hi hj) hsc hmem

end Confined

end Store

/-! ### Two sessions -/

/-- Scopes that programs come to stand for themselves, and so do identities. -/
def Naming.same (r : ScopeId) (n : Nat) : Naming where
  scope i i' := i' = i ∧ Reachable r n i
  identity k k' := k' = k

theorem corresponds_same_iff {r : ScopeId} {n : Nat} {b : String} {u u' : Value} :
    u.Corresponds (Expr.Avoids b) (.same r n) u' ↔ u' = u ∧ u.Inside r n b := by
  constructor
  · intro h
    cases h with
    | number | text | truth => exact ⟨rfl, trivial⟩
    | closure hi hs hbody =>
      obtain ⟨rfl, hscope⟩ := hs
      cases hi
      exact ⟨rfl, hscope, hbody⟩
    | native hi =>
      cases hi
      exact ⟨rfl, trivial⟩
  · rintro ⟨rfl, hu⟩
    cases u' with
    | number x => exact .number x
    | text t => exact .text t
    | truth t => exact .truth t
    | closure k params body scope => exact .closure rfl ⟨rfl, hu.1⟩ hu.2
    | native k f => exact .native rfl

theorem forall₂_same {r : ScopeId} {n : Nat} {b : String} {us us' : List Value}
    (h : List.Forall₂ (Value.Corresponds (Expr.Avoids b) (.same r n)) us us') :
    us' = us ∧ ∀ u ∈ us, u.Inside r n b := by
  induction h with
  | nil => exact ⟨rfl, by simp⟩
  | cons hu _ ih =>
    obtain ⟨rfl, hinside⟩ := corresponds_same_iff.1 hu
    obtain ⟨rfl, hrest⟩ := ih
    exact ⟨rfl, List.forall_mem_cons.2 ⟨hinside, hrest⟩⟩

def Correspondence.unmentioned (r : ScopeId) (n : Nat) (b : String) (v : Value) :
    Correspondence .builtins where
  store w st st' := w = .same r n ∧ st.DiffersAt r b v st' ∧ st.Confined r n b
  tree := Expr.Avoids b
  tree_part := Expr.Avoids.of_mem_parts
  tree_body := Expr.Avoids.body
  identity := by
    rintro w st st' ⟨rfl, -⟩ i i' j j' rfl rfl
    exact Iff.rfl
  read := by
    rintro w st st' s s' m ⟨rfl, hdiff, hconf⟩ ⟨rfl, hs⟩ hm
    rw [hdiff.get? hm.name_ne]
    cases hu : st.get? s' m with
    | none => exact .none
    | some u => exact .some (corresponds_same_iff.2 ⟨rfl, hconf.get? hs hu⟩)
  assigned := by
    rintro w st st' s s' m e u u' ⟨rfl, hdiff, hconf⟩ ⟨rfl, hs⟩ he hu
    have hm : m ≠ b := he.target.name_ne
    obtain ⟨rfl, hinside⟩ := corresponds_same_iff.1 hu
    rw [hdiff.target? hm]
    cases st.target? s' m with
    | none => exact .none
    | some j => exact .some ⟨rfl, hdiff.define fun _ => hm, hconf.define hinside⟩
  fresh := by
    rintro w st st' ⟨rfl, hdiff, hconf⟩
    refine ⟨_, .refl _, ⟨rfl, ?_, hconf.of_scopes rfl⟩, hdiff.identities⟩
    exact { hdiff with identities := congrArg (· + 1) hdiff.identities }
  enter := by
    rintro w st st' s s' args args' params ⟨rfl, hdiff, hconf⟩ ⟨rfl, hs⟩ hargs
    obtain ⟨rfl, hinside⟩ := forall₂_same hargs
    refine ⟨_, .refl _, ⟨rfl, hdiff.entered s' params args', ?_⟩, hdiff.size, .inr hconf.size⟩
    exact (hconf.extend hs).bindParams params hinside
  native := by
    rintro w st st' f args args' ⟨rfl, hdiff, hconf⟩ hargs
    refine Host.ignoresScopes_builtins.paired ?_ (fun written => ?_) hargs
    · rintro i i' j j' rfl rfl
      exact Iff.rfl
    · refine ⟨rfl, { hdiff with output := ?_ }, hconf.of_scopes rfl⟩
      exact congrArg (· ++ written) hdiff.output

theorem stop_corresponds_same {r : ScopeId} {n : Nat} {b : String} {e e' : Stop EvalError}
    (h : e.Corresponds (Expr.Avoids b) (.same r n) e') : e' = e := by
  cases h with
  | tooDeep => rfl
  | error h =>
    cases h with
    | undefined | divideByZero | badTarget | notExpression | overflow => rfl
    | notNumber h | notCallable h =>
      obtain ⟨rfl, -⟩ := corresponds_same_iff.1 h
      rfl
    | unknownOperator op h h' =>
      obtain ⟨rfl, -⟩ := corresponds_same_iff.1 h
      obtain ⟨rfl, -⟩ := corresponds_same_iff.1 h'
      rfl

/-- The same value or the same failure, in stores that differ as `D` says. -/
inductive SameOutcome (D : Store → Store → Prop) : EStateM.Result Failure Store Value →
    EStateM.Result Failure Store Value → Prop
  | ok {u : Value} {st st' : Store} (h : D st st') : SameOutcome D (.ok u st) (.ok u st')
  | error {f : Failure} {st st' : Store} (h : D st st') : SameOutcome D (.error f st) (.error f st')

theorem SameOutcome.mono {D D' : Store → Store → Prop} {r r' : EStateM.Result Failure Store Value}
    (h : SameOutcome D r r') (hD : ∀ st st', D st st' → D' st st') : SameOutcome D' r r' := by
  cases h with
  | ok h => exact .ok (hD _ _ h)
  | error h => exact .error (hD _ _ h)

theorem interpret_sameOutcome (limit : Nat) {text b : String} (hb : ¬ Mentions text b)
    {r : ScopeId} {n : Nat} {v : Value} {st st' : Store} (hdiff : st.DiffersAt r b v st')
    (hconf : st.Confined r n b) :
    SameOutcome (fun st st' => st.DiffersAt r b v st' ∧ st.Confined r n b)
      (interpret .builtins limit text r st) (interpret .builtins limit text r st') := by
  unfold interpret
  cases hp : parse limit text with
  | error e => exact .error ⟨hdiff, hconf⟩
  | ok p =>
    have hpairs := (Correspondence.unmentioned r n b v).pairs_evaluate limit
      (avoids_of_parse hb hp) (w := .same r n) ⟨rfl, .inl rfl⟩ st st' ⟨rfl, hdiff, hconf⟩
    simp only [EStateM.run]
    generalize evaluate .builtins limit p r st = res, evaluate .builtins limit p r st' = res' at hpairs
    cases hpairs with
    | ok hw hu hst =>
      obtain ⟨rfl, hst⟩ := hst
      obtain ⟨rfl, -⟩ := corresponds_same_iff.1 hu
      exact .ok hst
    | error hw he hst =>
      obtain ⟨rfl, hst⟩ := hst
      obtain rfl := stop_corresponds_same he
      exact .error hst

/-- What interpreting texts one after another in scope `r` gives, text by text, each within its own
depth; one that fails leaves what it did before. -/
def transcript (r : ScopeId) : List (Nat × String) → Store →
    List (EStateM.Result Failure Store Value)
  | [], _ => []
  | (limit, text) :: runs, st =>
    interpret .builtins limit text r st ::
      transcript r runs (leaves (interpret .builtins limit text r) st)

theorem transcript_sameOutcome {b : String} {r : ScopeId} {n : Nat} {v : Value}
    {runs : List (Nat × String)} (hruns : ∀ run ∈ runs, ¬ Mentions run.2 b) {st st' : Store}
    (hdiff : st.DiffersAt r b v st') (hconf : st.Confined r n b) :
    List.Forall₂ (SameOutcome (Store.DiffersAt r b v)) (transcript r runs st)
      (transcript r runs st') := by
  induction runs generalizing st st' with
  | nil => exact .nil
  | cons run runs ih =>
    obtain ⟨limit, text⟩ := run
    obtain ⟨hrun, hruns⟩ := List.forall_mem_cons.1 hruns
    have hsame := interpret_sameOutcome limit hrun hdiff hconf
    refine .cons (hsame.mono fun _ _ h => h.1) ?_
    cases hr : interpret .builtins limit text r st with
    | ok u st₁ =>
      rw [hr] at hsame
      generalize hr' : interpret .builtins limit text r st' = res at hsame
      cases hsame with
      | ok h =>
        rw [leaves_of_ok hr, leaves_of_ok hr']
        exact ih hruns h.1 h.2
    | error f st₁ =>
      rw [hr] at hsame
      generalize hr' : interpret .builtins limit text r st' = res at hsame
      cases hsame with
      | error h =>
        rw [leaves_of_error hr, leaves_of_error hr']
        exact ih hruns h.1 h.2

/-- A fresh root holds `print` alone. -/
def Store.FreshRoot (st : Store) (r : ScopeId) : Prop :=
  ∃ k, st.scopes[r]? = some ⟨[("print", .native k .print)], none⟩

theorem Store.FreshRoot.differsAt {st : Store} {r : ScopeId} (h : st.FreshRoot r) {b : String}
    (hb : b ≠ "print") (v : Value) : st.DiffersAt r b v (st.define r b v) := by
  obtain ⟨k, hr⟩ := h
  have hdefine : (st.define r b v).scopes[r]? =
      some ⟨[("print", .native k .print), (b, v)], none⟩ := by
    rw [Store.define, Array.getElem?_modify, if_pos rfl, hr, Option.map_some, Scope.define,
      Scope.bind_cons_of_ne hb.symm, Scope.bind]
  refine ⟨⟨[("print", .native k .print), (b, v)], ?_, hdefine, ?_⟩, fun i hi => ?_, size_define,
    rfl, rfl⟩
  · rw [hr, Scope.without_cons_of_ne hb.symm, Scope.without_cons_self, Scope.without, List.filter_nil]
  · have hne : (b == "print") = false := by simpa using hb
    rw [List.lookup_cons, hne, List.lookup_cons_self]
  · rw [Store.define, Array.getElem?_modify, if_neg hi.symm]

theorem Store.FreshRoot.confined {st : Store} {r : ScopeId} (h : st.FreshRoot r) (b : String) :
    st.Confined r st.scopes.size b := by
  obtain ⟨k, hr⟩ := h
  -- of the scopes there are, programs can come to the root alone
  have only : ∀ i sc, Reachable r st.scopes.size i → st.scopes[i]? = some sc →
      sc = ⟨[("print", .native k .print)], none⟩ := by
    rintro i sc (rfl | hi) hsc
    · exact Option.some.inj (hsc.symm.trans hr)
    · exact absurd (Array.getElem?_eq_some_iff.1 hsc).1 (Nat.not_lt.2 hi)
  refine ⟨Nat.le_refl _, fun i p hi hp => ?_, fun i sc x hi hsc hx => ?_⟩
  · obtain ⟨sc, hsc, hparent⟩ := Option.map_eq_some_iff.1 hp
    rw [only i sc hi hsc] at hparent
    cases hparent
  · rw [only i sc hi hsc] at hx
    rw [List.mem_singleton.1 hx]
    trivial

/-- Interpreting texts one after another in a fresh root gives the same, text by text, as
interpreting them in the same root with a further binding of a name that none of them mentions. -/
theorem transcript_ignores_unmentioned (st : Store) (r : ScopeId) (hr : st.FreshRoot r)
    (b : String) (hb : b ≠ "print") (v : Value) (runs : List (Nat × String))
    (hruns : ∀ run ∈ runs, ¬ Mentions run.2 b) :
    List.Forall₂ (SameOutcome (Store.DiffersAt r b v)) (transcript r runs st)
      (transcript r runs (st.define r b v)) :=
  transcript_sameOutcome hruns (hr.differsAt hb v) (hr.confined b)

/-- The further binding is a function that was made in the root itself; of the texts, the second
fails, and the third calls what the first has left. -/
theorem transcript_ignores_unmentioned_function :
    Store.initial.FreshRoot Store.root ∧ "spare" ≠ "print" ∧
    (∀ run ∈ [(60, "keep = lambda(x) \x7b last = x, x \x7d; last = keep"), (60, "keep(print)(absent)"),
      (60, "print(last == print); keep(keep)")], ¬ Mentions run.2 "spare") ∧
    List.Forall₂ (SameOutcome (Store.DiffersAt Store.root "spare"
        (.closure 7 ["x"] (.name "last") Store.root)))
      (transcript Store.root [(60, "keep = lambda(x) \x7b last = x, x \x7d; last = keep"),
        (60, "keep(print)(absent)"), (60, "print(last == print); keep(keep)")] Store.initial)
      (transcript Store.root [(60, "keep = lambda(x) \x7b last = x, x \x7d; last = keep"),
        (60, "keep(print)(absent)"), (60, "print(last == print); keep(keep)")]
        (Store.initial.define Store.root "spare" (.closure 7 ["x"] (.name "last") Store.root))) := by
  have hroot : Store.initial.FreshRoot Store.root := ⟨0, rfl⟩
  have hne : "spare" ≠ "print" := by decide
  have hruns : ∀ run ∈ [(60, "keep = lambda(x) \x7b last = x, x \x7d; last = keep"),
      (60, "keep(print)(absent)"), (60, "print(last == print); keep(keep)")],
      ¬ Mentions run.2 "spare" := by decide +kernel
  exact ⟨hroot, hne, hruns, transcript_ignores_unmentioned _ _ hroot _ hne _ _ hruns⟩

end ExprLang
