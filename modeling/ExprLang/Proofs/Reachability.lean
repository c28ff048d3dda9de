import ExprLang.Proofs.Bindings

/-!
# Scopes that an evaluation can come to

A scope leads to its parent, and to the scopes that the functions bound in it were made in
(`Store.Reaches`). An evaluation in the scope `s` goes on in scopes that `s` led to before and in
scopes that were opened since (`Store.Within`). What it finds in them leads to no others, and what
it binds in them was found in them or made there: every store on its way is `Store.Framed`.
-/

namespace ExprLang

/-- The function was made in one of the scopes of `A`; or the value is no closure. -/
def Value.StaysIn (A : ScopeId → Prop) : Value → Prop
  | .closure _ _ _ scope => A scope
  | _ => True

theorem Value.StaysIn.mono {A B : ScopeId → Prop} {v : Value} (h : v.StaysIn A)
    (hAB : ∀ i, A i → B i) : v.StaysIn B := by
  cases v with
  | closure k params body scope => exact hAB scope h
  | number | text | truth | native => exact trivial

namespace Store
variable {st st' : Store} {s i j p : ScopeId} {n m : String} {u v : Value}

/-- The scope itself, the parent of any scope it leads to, and the scope that a function bound in
any of them was made in. -/
inductive Reaches (st : Store) (s : ScopeId) : ScopeId → Prop
  | self : Reaches st s s
  | parent {i p : ScopeId} {sc : Scope} (h : Reaches st s i) (hsc : st.scopes[i]? = some sc)
      (hp : sc.parent = some p) : Reaches st s p
  | captured {i scope : ScopeId} {sc : Scope} {n : String} {k : Nat} {params : List String}
      {body : Expr} (h : Reaches st s i) (hsc : st.scopes[i]? = some sc)
      (hn : sc.get? n = some (.closure k params body scope)) : Reaches st s scope

/-- Scopes that hold nothing that leads out of them. -/
structure Encloses (st : Store) (A : ScopeId → Prop) : Prop where
  parents : ∀ i sc p, A i → st.scopes[i]? = some sc → sc.parent = some p → A p
  values : ∀ i sc n v, A i → st.scopes[i]? = some sc → sc.get? n = some v → v.StaysIn A

theorem encloses_reaches (st : Store) (s : ScopeId) : st.Encloses (st.Reaches s) where
  parents i sc p hi hsc hp := hi.parent hsc hp
  values i sc n v hi hsc hn := by
    cases v with
    | closure k params body scope => exact hi.captured hsc hn
    | number | text | truth | native => exact trivial

namespace Encloses
variable {A : ScopeId → Prop}

/-- Nothing leads out of them in many steps either. -/
theorem reaches (h : st.Encloses A) (hi : A i) (hij : st.Reaches i j) : A j := by
  induction hij with
  | self => exact hi
  | parent _ hsc hp ih => exact h.parents _ _ _ ih hsc hp
  | captured _ hsc hn ih => exact h.values _ _ _ _ ih hsc hn

theorem mem_chain (h : st.Encloses A) (hi : A i) (hj : j ∈ st.chain i) : A j :=
  mem_chain_of_closed h.parents hi hj

theorem get? (h : st.Encloses A) (hi : A i) (hv : st.get? i n = some v) : v.StaysIn A := by
  simp only [Store.get?, Option.bind_eq_bind, Option.bind_eq_some_iff] at hv
  obtain ⟨j, hj, sc, hsc, hv⟩ := hv
  exact h.values j sc n v (h.mem_chain hi (List.mem_of_find?_eq_some hj)) hsc hv

theorem target? (h : st.Encloses A) (hi : A i) (hj : st.target? i n = some j) : A j := by
  rw [Store.target?] at hj
  cases hlookup : st.lookup? i n with
  | some k =>
    rw [hlookup] at hj
    cases hj
    exact h.mem_chain hi (List.mem_of_find?_eq_some hlookup)
  | none =>
    rw [hlookup] at hj
    simp only [Option.ite_none_right_eq_some, Option.some.injEq] at hj
    exact hj.2 ▸ hi

/-- A scope after a definition holds what it held before, or what was defined. -/
theorem define (h : st.Encloses A) (hv : v.StaysIn A) : (st.define j n v).Encloses A where
  parents i sc p hi hsc hp := by
    obtain ⟨sc', hsc', hsame⟩ := exists_scope_of_define hsc
    exact h.parents i sc' p hi hsc' (hsame.trans hp)
  values i sc m u hi hsc hu := by
    rw [Store.define, Array.getElem?_modify] at hsc
    split at hsc
    · obtain ⟨sc', hsc', rfl⟩ := Option.map_eq_some_iff.1 hsc
      by_cases hm : m = n
      · subst hm
        rw [Scope.get?_define_self] at hu
        cases hu
        exact hv
      · rw [Scope.get?_define_of_ne hm] at hu
        exact h.values i sc' m u hi hsc' hu
    · exact h.values i sc m u hi hsc hu

theorem bindParams (h : st.Encloses A) (params : List String) {args : List Value}
    (hargs : ∀ a ∈ args, a.StaysIn A) : (Eval.bindParams j params args st).Encloses A :=
  bindParams_induction (I := (Encloses · A)) (P := Value.StaysIn A) (fun _ _ _ h hv => h.define hv)
    trivial h params hargs

/-- A new scope inside one of them is one more of them. -/
theorem extend {B : ScopeId → Prop} (h : st.Encloses A) (hp : A p) (hAB : ∀ i, A i → B i)
    (hBA : ∀ i, B i → A i ∨ i = st.scopes.size) : (st.extend p).2.Encloses B where
  parents i sc q hi hsc hq := by
    rw [Store.extend, Array.getElem?_push] at hsc
    split at hsc
    · cases hsc
      cases hq
      exact hAB p hp
    · rename_i hne
      exact hAB q (h.parents i sc q ((hBA i hi).resolve_right hne) hsc hq)
  values i sc n v hi hsc hv := by
    rw [Store.extend, Array.getElem?_push] at hsc
    split at hsc
    · cases hsc
      cases hv
    · rename_i hne
      exact (h.values i sc n v ((hBA i hi).resolve_right hne) hsc hv).mono hAB

end Encloses

/-- The scope is one that `s` led to in `st`, or one of those opened since up to the number `m`. -/
def Within (st : Store) (s : ScopeId) (m : Nat) (i : ScopeId) : Prop :=
  st.Reaches s i ∨ st.scopes.size ≤ i ∧ i < m

theorem Within.mono {m m' : Nat} (h : st.Within s m i) (hm : m ≤ m') : st.Within s m' i :=
  h.imp_right fun hi => ⟨hi.1, Nat.lt_of_lt_of_le hi.2 hm⟩

/-- The second store comes from the first by an evaluation in the scope `s`. -/
structure Framed (s : ScopeId) (st st' : Store) : Prop where
  size : st.scopes.size ≤ st'.scopes.size
  frame : ∀ i < st.scopes.size, ¬ st.Reaches s i → st'.scopes[i]? = st.scopes[i]?
  encloses : st'.Encloses (st.Within s st'.scopes.size)

namespace Framed

theorem refl (s : ScopeId) (st : Store) : Framed s st st where
  size := Nat.le_refl _
  frame _ _ _ := rfl
  encloses := by
    have hwithin : st.Within s st.scopes.size = st.Reaches s := by
      funext i
      refine propext (or_iff_left fun hi => ?_)
      exact absurd hi.2 (Nat.not_lt.2 hi.1)
    rw [hwithin]
    exact encloses_reaches st s

theorem of_scopes {st'' : Store} (h : Framed s st st') (hscopes : st''.scopes = st'.scopes) :
    Framed s st st'' := by
  obtain ⟨hsize, hframe, hparents, hvalues⟩ := h
  rw [← hscopes] at hsize hframe hparents hvalues
  exact ⟨hsize, hframe, hparents, hvalues⟩

theorem define (h : Framed s st st') (hj : st.Within s st'.scopes.size j)
    (hv : v.StaysIn (st.Within s st'.scopes.size)) : Framed s st (st'.define j n v) where
  size := by rw [size_define]; exact h.size
  frame i hi hreach := by
    have hne : j ≠ i := by
      rintro rfl
      exact hj.elim hreach fun hj => absurd hi (Nat.not_lt.2 hj.1)
    rw [Store.define, Array.getElem?_modify, if_neg hne]
    exact h.frame i hi hreach
  encloses := by
    rw [size_define]
    exact h.encloses.define hv

theorem entered (h : Framed s st st') (hp : st.Within s st'.scopes.size p) (params : List String)
    {args : List Value} (hargs : ∀ a ∈ args, a.StaysIn (st.Within s st'.scopes.size)) :
    Framed s st (st'.entered p params args) where
  size := by
    rw [size_entered]
    exact Nat.le_succ_of_le h.size
  frame i hi hreach := by
    have hi' : i < st'.scopes.size := Nat.lt_of_lt_of_le hi h.size
    rw [getElem?_entered p params args hi']
    exact h.frame i hi hreach
  encloses := by
    have hgrow : ∀ i, st.Within s st'.scopes.size i → st.Within s (st'.scopes.size + 1) i :=
      fun i hi => hi.mono (Nat.le_succ _)
    rw [size_entered]
    refine (h.encloses.extend hp hgrow ?_).bindParams params fun a ha => (hargs a ha).mono hgrow
    rintro i (hi | ⟨hle, hlt⟩)
    · exact .inl (.inl hi)
    · exact (Nat.lt_succ_iff_lt_or_eq.1 hlt).imp_left fun hlt => .inr ⟨hle, hlt⟩

end Framed

end Store

open Store

/-- Evaluation in the scope `s` from the store `st`. -/
def Discipline.framed {host : Host} (hscopes : host.KeepsScopes) (hanswers : host.AnswersArguments)
    (s : ScopeId) (st : Store) : Discipline host where
  store := Framed s st
  later st₁ st₂ := st₁.scopes.size ≤ st₂.scopes.size
  value v st₁ := v.StaysIn (st.Within s st₁.scopes.size)
  tree _ i st₁ := st.Within s st₁.scopes.size i
  error _ := True
  later_refl _ := Nat.le_refl _
  later_trans := Nat.le_trans
  value_later hv h := hv.mono fun _ hi => hi.mono h
  tree_later he h := he.mono h
  tree_part he _ := he
  number _ _ := trivial
  text _ _ := trivial
  truth _ _ := trivial
  read hst he hv := hst.encloses.get? he hv
  unread _ _ _ := trivial
  assigned hst he hv htarget :=
    ⟨hst.define (hst.encloses.target? he htarget) hv, Nat.le_of_eq size_define.symm⟩
  unassigned _ _ _ := trivial
  badTarget _ _ := trivial
  closure hst he := ⟨he, hst.of_scopes rfl, Nat.le_refl _⟩
  enter {_ params _ scope args st₁} hst hv hargs := by
    have hsize : (st₁.entered scope params args).scopes.size = st₁.scopes.size + 1 :=
      size_entered scope params args
    refine ⟨?_, hst.entered hv params hargs, Nat.le.intro hsize.symm⟩
    exact .inr ⟨hst.size, Nat.lt_of_lt_of_eq (Nat.lt_succ_self _) hsize.symm⟩
  native {_ f args st₁} hst _ hargs := by
    have hrun := hscopes.wp f args st₁
    cases hr : host f args st₁ with
    | ok v st₂ =>
      obtain ⟨-, hsame⟩ := (wp_iff_of_ok hr).1 hrun
      refine (wp_iff_of_ok hr).2 ⟨?_, hst.of_scopes hsame, Nat.le_of_eq (by rw [hsame])⟩
      rw [hsame]
      rcases hanswers hr with hv | rfl
      · exact hargs v hv
      · exact trivial
    | error err st₂ =>
      have hst₂ : Framed s st st₂ := hst.of_scopes ((wp_iff_of_error hr).1 hrun)
      refine (wp_iff_of_error hr).2 ?_
      cases err with
      | tooDeep => exact hst₂
      | error e => exact ⟨trivial, hst₂⟩
  notCallable _ := trivial
  notNumber _ := trivial
  divideByZero := trivial
  calculated {f m n _} _ _ _ := by cases f m n <;> exact trivial
  unknownOperator _ _ _ _ := trivial
  alien _ := trivial

section
variable {host : Host} (hscopes : host.KeepsScopes) (hanswers : host.AnswersArguments)
include hscopes hanswers

theorem framed_of_evaluate (limit : Nat) (e : Expr) (s : ScopeId) (st : Store) :
    Framed s st (leaves (evaluate host limit e s) st) := by
  have hrun := (Discipline.framed hscopes hanswers s st).wp_evaluate limit e s st (.refl s st)
    (.inl .self)
  refine of_wp_leaves (wp_mono hrun (fun v st₁ h => h.store) fun stop st₁ h => ?_)
  cases stop with
  | tooDeep => exact h
  | error err => exact h.2

theorem staysIn_of_evaluate {limit : Nat} {e : Expr} {s : ScopeId} {st st' : Store} {v : Value}
    (h : evaluate host limit e s st = .ok v st') : v.StaysIn (st.Within s st'.scopes.size) := by
  have hrun := (Discipline.framed hscopes hanswers s st).wp_evaluate limit e s st (.refl s st)
    (.inl .self)
  exact ((wp_iff_of_ok h).1 hrun).value

end

end ExprLang
