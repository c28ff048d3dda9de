import ExprLang.Proofs.Evaluation

/-!
# Only the top level binds names

An assignment goes to a scope that has the name already, or to a root in which it stands itself. A
call opens a scope of its own, and native functions are assumed to touch none. So of the scopes that
were there before an evaluation, at most the one it goes on in gains names, and only if it is a root
(`Keeps`).

The scopes that an evaluation adds are those of its calls: `Calls` says which calls it makes, and
each scope that was not there before has the parent and the names that its call gave it (`Opened`).
-/

namespace ExprLang

namespace Expr

mutual

/-- The names that a tree assigns to outside the functions in it. -/
def assigned : Expr → List String
  | number _ | text _ | truth _ | name _ | alien _ | lambda _ _ => []
  | call callee args => callee.assigned ++ assignedAll args
  | cond test yes no => test.assigned ++ yes.assigned ++ assignedElse no
  | assign (name n) value => n :: value.assigned
  | assign target value => target.assigned ++ value.assigned
  | binary _ left right => left.assigned ++ right.assigned
  | block items => assignedAll items

def assignedAll : List Expr → List String
  | [] => []
  | e :: es => e.assigned ++ assignedAll es

def assignedElse : Option Expr → List String
  | none => []
  | some e => e.assigned

end

theorem assigned_subset_all {e : Expr} {es : List Expr} (he : e ∈ es) :
    e.assigned ⊆ assignedAll es := by
  induction es with
  | nil => cases he
  | cons e' es ih =>
    rw [assignedAll]
    rcases List.mem_cons.1 he with rfl | he
    · exact List.subset_append_left _ _
    · exact List.Subset.trans (ih he) (List.subset_append_right _ _)

theorem assigned_subset_of_parts {e e' : Expr} (he' : e' ∈ e.parts) :
    e'.assigned ⊆ e.assigned := by
  cases e with
  | number | text | truth | name | lambda | alien => cases he'
  | call callee args =>
    rw [assigned]
    rcases List.mem_cons.1 he' with rfl | he'
    · exact List.subset_append_left _ _
    · exact List.Subset.trans (assigned_subset_all he') (List.subset_append_right _ _)
  | cond test yes no =>
    intro n hn
    rw [assigned, List.mem_append, List.mem_append]
    rcases List.mem_cons.1 he' with rfl | he'
    · exact .inl (.inl hn)
    rcases List.mem_cons.1 he' with rfl | he'
    · exact .inl (.inr hn)
    · obtain rfl := Option.mem_toList.1 he'
      exact .inr hn
  | assign target value =>
    cases target with
    | name m =>
      rw [List.mem_singleton.1 he']
      exact List.subset_cons_self _ _
    | _ => cases he'
  | binary op left right =>
    rw [assigned]
    rcases List.mem_cons.1 he' with rfl | he'
    · exact List.subset_append_left _ _
    · rw [List.mem_singleton.1 he']
      exact List.subset_append_right _ _
  | block items => exact assigned_subset_all he'

end Expr

namespace Store
variable {st st' st'' : Store} {i j p s : ScopeId} {n name : String} {v : Value}

/-- Every closure of the store was made in a scope of the store. -/
def Live (st : Store) : Prop := st.All (Value.LivesIn st)

theorem isRoot_eq (st : Store) (i : ScopeId) :
    st.isRoot i = (st.scopes[i]?.map Scope.parent).any Option.isNone := by
  rw [isRoot]
  cases st.scopes[i]? <;> rfl

/-- Every scope of `st` is a scope of `st'`, with the same parent. -/
def KeepsParents (st st' : Store) : Prop :=
  ∀ i < st.scopes.size, st'.scopes[i]?.map Scope.parent = st.scopes[i]?.map Scope.parent

namespace KeepsParents

theorem refl (st : Store) : st.KeepsParents st := fun _ _ => rfl

theorem lt (h : st.KeepsParents st') (hi : i < st.scopes.size) : i < st'.scopes.size := by
  have hparent := h i hi
  rw [Array.getElem?_eq_getElem hi, Option.map_some] at hparent
  obtain ⟨sc, hsc, -⟩ := Option.map_eq_some_iff.1 hparent
  exact (Array.getElem?_eq_some_iff.1 hsc).1

theorem trans (h : st.KeepsParents st') (h' : st'.KeepsParents st'') : st.KeepsParents st'' :=
  fun i hi => (h' i (h.lt hi)).trans (h i hi)

theorem isRoot (h : st.KeepsParents st') (hi : i < st.scopes.size) : st'.isRoot i = st.isRoot i := by
  rw [isRoot_eq, isRoot_eq, h i hi]

theorem livesIn (h : st.KeepsParents st') (hv : v.LivesIn st) : v.LivesIn st' := by
  cases v with
  | closure k params body scope => exact h.lt hv
  | number | text | truth | native => exact trivial

theorem live (h : st.KeepsParents st') (hst : st'.All (Value.LivesIn st)) : st'.Live :=
  hst.mono fun _ hv => h.livesIn hv

theorem define : st.KeepsParents (st.define j n v) := fun _ _ => parent_define _

end KeepsParents

/-- Nothing happened to the scopes of `st` but that names were bound anew. -/
structure Untouched (st st' : Store) : Prop where
  parents : st.KeepsParents st'
  defines : ∀ i < st.scopes.size, ∀ n, st'.defines n i = st.defines n i

theorem untouched_of_scopes (h : st'.scopes = st.scopes) : st.Untouched st' where
  parents := fun i _ => by rw [h]
  defines := fun i _ n => by rw [Store.defines, Store.defines, h]

theorem Live.of_scopes (h : st.Live) (hscopes : st'.scopes = st.scopes) : st'.Live := by
  refine (untouched_of_scopes hscopes).parents.live fun i sc hsc => h i sc ?_
  rw [← hscopes, hsc]

theorem size_bindParams (params : List String) (args : List Value) :
    (Eval.bindParams j params args st).scopes.size = st.scopes.size :=
  bindParams_induction (I := fun st' => st'.scopes.size = st.scopes.size) (P := fun _ => True)
    (fun _ _ _ h _ => size_define.trans h) trivial rfl params fun _ _ => trivial

theorem parent_bindParams (params : List String) (args : List Value) (i : ScopeId) :
    (Eval.bindParams j params args st).scopes[i]?.map Scope.parent =
      st.scopes[i]?.map Scope.parent :=
  bindParams_induction (P := fun _ => True)
    (I := fun st' => st'.scopes[i]?.map Scope.parent = st.scopes[i]?.map Scope.parent)
    (fun _ _ _ h _ => (parent_define i).trans h) trivial rfl params fun _ _ => trivial

theorem defines_bindParams {params : List String} {args : List Value} :
    (Eval.bindParams j params args st).defines n i ↔
      st.defines n i ∨ i = j ∧ n ∈ params ∧ j < st.scopes.size := by
  induction params generalizing st args with
  | nil => simp [Eval.bindParams]
  | cons p params ih =>
    have step : ∀ v args, (Eval.bindParams j params args (st.define j p v)).defines n i ↔
        st.defines n i ∨ i = j ∧ n ∈ p :: params ∧ j < st.scopes.size := by
      intro v args
      rw [ih, defines_define, size_define, List.mem_cons, or_assoc, ← and_or_left, ← or_and_right]
    cases args with
    | nil => exact step .nothing []
    | cons a args => exact step a args

/-- The store when the body of a closure begins to be evaluated. -/
def entered (st : Store) (scope : ScopeId) (params : List String) (args : List Value) : Store :=
  Eval.bindParams st.scopes.size params args (st.extend scope).2

section
variable (scope : ScopeId) (params : List String) (args : List Value)

theorem size_entered : (st.entered scope params args).scopes.size = st.scopes.size + 1 := by
  rw [entered, size_bindParams, extend, Array.size_push]

theorem getElem?_extend (hi : i < st.scopes.size) :
    (st.extend scope).2.scopes[i]? = st.scopes[i]? := by
  rw [extend, Array.getElem?_push, if_neg (Nat.ne_of_lt hi)]

theorem getElem?_extend_self :
    (st.extend scope).2.scopes[st.scopes.size]? = some ⟨[], some scope⟩ := by
  rw [extend, Array.getElem?_push, if_pos rfl]

theorem getElem?_bindParams_of_ne (hi : i ≠ j) :
    (Eval.bindParams j params args st).scopes[i]? = st.scopes[i]? := by
  refine bindParams_induction (I := fun st' => st'.scopes[i]? = st.scopes[i]?) (P := fun _ => True)
    (fun st' n v h _ => ?_) trivial rfl params fun _ _ => trivial
  rw [Store.define, Array.getElem?_modify, if_neg hi.symm, h]

theorem getElem?_entered (hi : i < st.scopes.size) :
    (st.entered scope params args).scopes[i]? = st.scopes[i]? := by
  rw [entered, getElem?_bindParams_of_ne params args (Nat.ne_of_lt hi), getElem?_extend scope hi]

theorem untouched_entered : st.Untouched (st.entered scope params args) where
  parents := fun i hi => by rw [getElem?_entered scope params args hi]
  defines := fun i hi n => by rw [defines, defines, getElem?_entered scope params args hi]

theorem parent_entered : (st.entered scope params args).scopes[st.scopes.size]?.map Scope.parent =
    some (some scope) := by
  rw [entered, parent_bindParams, getElem?_extend_self]
  rfl

theorem defines_entered :
    (st.entered scope params args).defines n st.scopes.size ↔ n ∈ params := by
  have hempty : (st.extend scope).2.defines n st.scopes.size = false := by
    rw [defines, getElem?_extend_self]
    rfl
  have hlt : st.scopes.size < (st.extend scope).2.scopes.size := by
    rw [extend, Array.size_push]
    exact Nat.lt_succ_self _
  rw [entered, defines_bindParams, hempty]
  simp [hlt]

theorem Live.entered (h : st.Live) (hargs : ∀ a ∈ args, a.LivesIn st) :
    (st.entered scope params args).Live :=
  (untouched_entered scope params args).parents.live ((All.extend h scope).bindParams hargs trivial)

end

/-! ### What an evaluation leaves as it was -/

/-- The scopes of `st` are there in `st'`, with the same parents and at least the same names, and no
scope but `s` has gained any. That one may have gained some of `names`, if it is a root. -/
structure Keeps (s : ScopeId) (names : List String) (st st' : Store) : Prop where
  parents : st.KeepsParents st'
  defines : ∀ i < st.scopes.size, ∀ n, st.defines n i → st'.defines n i
  gained : ∀ i < st.scopes.size, ∀ n, st'.defines n i →
    st.defines n i ∨ i = s ∧ st.isRoot s ∧ n ∈ names

namespace Keeps
variable {names : List String}

theorem refl (s : ScopeId) (names : List String) (st : Store) : Keeps s names st st :=
  ⟨.refl st, fun _ _ _ h => h, fun _ _ _ h => .inl h⟩

theorem untouched (h : Keeps s names st st') (h' : st'.Untouched st'') : Keeps s names st st'' where
  parents := h.parents.trans h'.parents
  defines := fun i hi n hn => by
    rw [h'.defines i (h.parents.lt hi)]
    exact h.defines i hi n hn
  gained := fun i hi n hn => by
    rw [h'.defines i (h.parents.lt hi)] at hn
    exact h.gained i hi n hn

/-- An assignment gives a name only to a root in which it stands. -/
theorem target (h : Keeps s names st st') (htarget : st'.target? p n = some j)
    (hp : st'.isRoot p → p = s ∧ st.isRoot s ∧ n ∈ names) :
    Keeps s names st (st'.define j n v) where
  parents := h.parents.trans .define
  defines := fun i hi m hm => defines_define.2 (.inl (h.defines i hi m hm))
  gained := fun i hi m hm => by
    rcases defines_define.1 hm with hm | ⟨rfl, rfl, -⟩
    · exact h.gained i hi m hm
    rw [target?] at htarget
    cases hlookup : st'.lookup? p m with
    | some k =>
      obtain rfl : k = i := by simpa [hlookup] using htarget
      exact h.gained k hi m (List.find?_some hlookup)
    | none =>
      rw [hlookup] at htarget
      cases hroot : st'.isRoot p with
      | false => simp [hroot] at htarget
      | true =>
        obtain rfl : p = i := by simpa [hroot] using htarget
        exact .inr (hp hroot)

end Keeps

end Store

open Store

/-- Evaluation in the scope `s₀` from the store `st₀`, of trees that assign at most to `names`
there. -/
def Discipline.binding {host : Host} (hscopes : host.KeepsScopes) (st₀ : Store) (s₀ : ScopeId)
    (names : List String) : Discipline host where
  store st := Keeps s₀ names st₀ st ∧ st.Live
  later := KeepsParents
  value v st := v.LivesIn st
  tree e s st := s < st.scopes.size ∧
    (st.isRoot s → s = s₀ ∧ st₀.isRoot s₀ ∧ e.assigned ⊆ names)
  error _ := True
  later_refl := .refl
  later_trans h h' := h.trans h'
  value_later hv h := h.livesIn hv
  tree_later he h := ⟨h.lt he.1, fun hroot => he.2 (h.isRoot he.1 ▸ hroot)⟩
  tree_part he he' := ⟨he.1, fun hroot => by
    obtain ⟨hs, hroot₀, hnames⟩ := he.2 hroot
    exact ⟨hs, hroot₀, List.Subset.trans (Expr.assigned_subset_of_parts he') hnames⟩⟩
  number _ _ := trivial
  text _ _ := trivial
  truth _ _ := trivial
  read hst _ hv := hst.2.get? hv
  unread _ _ _ := trivial
  assigned hst he hv htarget := by
    refine ⟨⟨hst.1.target htarget fun hroot => ?_, ?_⟩, .define⟩
    · obtain ⟨hs, hroot₀, hnames⟩ := he.2 hroot
      exact ⟨hs, hroot₀, hnames (List.mem_cons_self ..)⟩
    · exact KeepsParents.define.live (All.define hst.2 hv)
  unassigned _ _ _ := trivial
  badTarget _ _ := trivial
  closure {_ _ _ st} hst he := by
    have h : st.Untouched st.fresh.2 := untouched_of_scopes rfl
    exact ⟨h.parents.lt he.1, ⟨hst.1.untouched h, h.parents.live hst.2⟩, h.parents⟩
  enter {_ params _ scope args st} hst hv hargs := by
    have h : st.Untouched (st.entered scope params args) := untouched_entered scope params args
    refine ⟨⟨?_, fun hroot => ?_⟩, ⟨hst.1.untouched h, hst.2.entered scope params args hargs⟩,
      h.parents⟩
    · exact Nat.lt_of_lt_of_eq (Nat.lt_succ_self _) (size_entered scope params args).symm
    · have hparent : (st.entered scope params args).scopes[st.scopes.size]?.map Scope.parent =
          some (some scope) := parent_entered scope params args
      rw [isRoot_eq] at hroot
      rw [entered] at hparent
      rw [hparent] at hroot
      cases hroot
  native {_ f args st} hst _ hargs := by
    refine wp_mono (hscopes.wp f args st) ?_ ?_
    · rintro v st' ⟨hv, hsame⟩
      have h : st.Untouched st' := untouched_of_scopes hsame
      refine ⟨h.parents.livesIn (hv.elim (hargs v) id), ⟨hst.1.untouched h, ?_⟩, h.parents⟩
      exact hst.2.of_scopes hsame
    · intro err st' hsame
      have hst' : Keeps s₀ names st₀ st' ∧ st'.Live :=
        ⟨hst.1.untouched (untouched_of_scopes hsame), hst.2.of_scopes hsame⟩
      cases err with
      | tooDeep => exact hst'
      | error e => exact ⟨trivial, hst'⟩
  notCallable _ := trivial
  notNumber _ := trivial
  divideByZero := trivial
  calculated {f m n _} _ _ _ := by cases f m n <;> exact trivial
  unknownOperator _ _ _ _ := trivial
  alien _ := trivial

/-- What an evaluation in scope `s` that began in `st` leaves. -/
structure Store.Bound (s : ScopeId) (names : List String) (st st' : Store) : Prop where
  keeps : Keeps s names st st'
  live : st'.Live

theorem wp_evaluate_bound {host : Host} (hscopes : host.KeepsScopes) (limit : Nat) (e : Expr)
    {s : ScopeId} {st : Store} (hst : st.Live) (hs : s < st.scopes.size) :
    wp (evaluate host limit e s)
      (fun v st' => v.LivesIn st' ∧ Bound s e.assigned st st')
      (fun _ st' => Bound s e.assigned st st') st := by
  have htree : (Discipline.binding hscopes st s e.assigned).tree e s st :=
    ⟨hs, fun hroot => ⟨rfl, hroot, List.Subset.refl _⟩⟩
  refine wp_mono ((Discipline.binding hscopes st s e.assigned).wp_evaluate limit e s st
    ⟨.refl s _ st, hst⟩ htree) ?_ ?_
  · intro v st' h
    exact ⟨h.value, h.store.1, h.store.2⟩
  · intro err st' h
    cases err with
    | tooDeep => exact ⟨h.1, h.2⟩
    | error err => exact ⟨h.2.1, h.2.2⟩

/-! ### The calls that an evaluation makes -/

/-- Evaluating the trees one after another by `f` leads from the first store to the second. -/
inductive Passes (f : Expr → Eval Value) : Store → List Expr → Store → Prop
  | nil {st : Store} : Passes f st [] st
  | cons {st st₁ st₂ : Store} {e : Expr} {es : List Expr} {v : Value} (he : f e st = .ok v st₁)
      (hes : Passes f st₁ es st₂) : Passes f st (e :: es) st₂

/-- In the course of evaluating a tree in a scope, from a store and within a depth, a value is
called with some arguments, in the store at the end. -/
inductive Calls (host : Host) : Nat → Expr → ScopeId → Store → Value → List Value → Store → Prop
  | part {d : Nat} {e e' : Expr} {before after : List Expr} {s : ScopeId} {st st₁ st' : Store}
      {f : Value} {args : List Value} (hcond : ∀ test yes no, e ≠ .cond test yes no)
      (hparts : e.parts = before ++ e' :: after)
      (hbefore : Passes (evaluate host d · s) st before st₁)
      (h : Calls host d e' s st₁ f args st') : Calls host (d + 2) e s st f args st'
  | test {d : Nat} {test yes : Expr} {no : Option Expr} {s : ScopeId} {st st' : Store} {f : Value}
      {args : List Value} (h : Calls host d test s st f args st') :
      Calls host (d + 2) (.cond test yes no) s st f args st'
  | yes {d : Nat} {test yes : Expr} {no : Option Expr} {s : ScopeId} {st st₁ st' : Store}
      {v f : Value} {args : List Value} (htest : evaluate host d test s st = .ok v st₁)
      (hv : v.isTruthy = true) (h : Calls host d yes s st₁ f args st') :
      Calls host (d + 2) (.cond test yes no) s st f args st'
  | no {d : Nat} {test yes no : Expr} {s : ScopeId} {st st₁ st' : Store} {v f : Value}
      {args : List Value} (htest : evaluate host d test s st = .ok v st₁) (hv : v.isTruthy = false)
      (h : Calls host d no s st₁ f args st') :
      Calls host (d + 2) (.cond test yes (some no)) s st f args st'
  | call {d : Nat} {callee : Expr} {es : List Expr} {s : ScopeId} {st st₁ st' : Store} {f : Value}
      {args : List Value} (hcallee : evaluate host d callee s st = .ok f st₁)
      (hargs : es.mapM (fun a => evaluate host d a s) st₁ = .ok args st') :
      Calls host (d + 2) (.call callee es) s st f args st'
  | body {d : Nat} {callee body : Expr} {es : List Expr} {s scope : ScopeId} {i : Nat}
      {params : List String} {st st₁ st₂ st' : Store} {f : Value} {vs args : List Value}
      (hcallee : evaluate host d callee s st = .ok (.closure i params body scope) st₁)
      (hargs : es.mapM (fun a => evaluate host d a s) st₁ = .ok vs st₂)
      (h : Calls host (d - 1) body st₂.scopes.size (st₂.entered scope params vs) f args st') :
      Calls host (d + 2) (.call callee es) s st f args st'

/-- Scope `j` of `st'` is the scope of a call of a closure among `C`: it stands inside the scope the
closure was made in, which is older, and has the names of the parameters. -/
def OpenedBy (C : Value → List Value → Store → Prop) (st' : Store) (j : ScopeId) : Prop :=
  ∃ i params body scope args st₁, C (.closure i params body scope) args st₁ ∧
    st₁.scopes.size = j ∧ scope < j ∧ st'.scopes[j]?.map Scope.parent = some (some scope) ∧
    ∀ n, st'.defines n j ↔ n ∈ params

/-- What comes between two stores of an evaluation that makes the calls `C`: every scope that was
added is the scope of a call, and the older ones keep their parents, and unless they are roots their
names. -/
structure Opens (C : Value → List Value → Store → Prop) (st st' : Store) : Prop where
  opened : ∀ j, st.scopes.size ≤ j → j < st'.scopes.size → OpenedBy C st' j
  parents : st.KeepsParents st'
  names : ∀ i < st.scopes.size, st.isRoot i = false → ∀ n, st'.defines n i ↔ st.defines n i

namespace Opens
variable {C C' : Value → List Value → Store → Prop} {st st₁ st₂ : Store}

theorem mono (h : Opens C st st₁) (hC : ∀ f args st', C f args st' → C' f args st') :
    Opens C' st st₁ := by
  refine ⟨fun j hj hj' => ?_, h.parents, h.names⟩
  obtain ⟨i, params, body, scope, args, st', hcall, hopened⟩ := h.opened j hj hj'
  exact ⟨i, params, body, scope, args, st', hC _ _ _ hcall, hopened⟩

theorem trans (h : Opens C st st₁) (h' : Opens C st₁ st₂) : Opens C st st₂ := by
  refine ⟨fun j hj hj' => ?_, h.parents.trans h'.parents, fun i hi hroot n => ?_⟩
  · rcases Nat.lt_or_ge j st₁.scopes.size with hlt | hge
    · obtain ⟨i, params, body, scope, args, st', hcall, hsize, hscope, hparent, hnames⟩ :=
        h.opened j hj hlt
      have hroot : st₁.isRoot j = false := by
        rw [isRoot_eq, hparent]
        rfl
      refine ⟨i, params, body, scope, args, st', hcall, hsize, hscope, ?_, fun n => ?_⟩
      · rw [h'.parents j hlt, hparent]
      · rw [h'.names j hlt hroot n, hnames n]
    · exact h'.opened j hge hj'
  · have hroot₁ : st₁.isRoot i = false := by rw [h.parents.isRoot hi, hroot]
    rw [h'.names i (h.parents.lt hi) hroot₁ n, h.names i hi hroot n]

theorem of_keeps {s : ScopeId} {names : List String} (h : Keeps s names st st₁)
    (hsize : st₁.scopes.size = st.scopes.size) : Opens C st st₁ := by
  refine ⟨fun j hj hj' => ?_, h.parents, fun i hi hroot n => ⟨fun hn => ?_, h.defines i hi n⟩⟩
  · omega
  rcases h.gained i hi n hn with hn | ⟨rfl, hroot', -⟩
  · exact hn
  · rw [hroot] at hroot'
    cases hroot'

theorem of_scopes (h : st₁.scopes = st.scopes) : Opens C st st₁ :=
  of_keeps (s := 0) ((Keeps.refl 0 [] st).untouched (untouched_of_scopes h)) (by rw [h])

theorem refl (C : Value → List Value → Store → Prop) (st : Store) : Opens C st st := of_scopes rfl

theorem bind {α β : Type} {x : Eval α} {f : α → Eval β} (hx : Opens C st (leaves x st))
    (hf : ∀ a st₁, x st = .ok a st₁ → Opens C st₁ (leaves (f a) st₁)) :
    Opens C st (leaves (x >>= f) st) := by
  cases hr : x st with
  | ok a st₁ =>
    rw [leaves_of_ok hr] at hx
    rw [leaves_bind_of_ok hr]
    exact hx.trans (hf a st₁ hr)
  | error err st₁ =>
    rw [leaves_of_error hr] at hx
    rw [leaves_bind_of_error hr]
    exact hx

/-- A call of a closure opens one scope. -/
theorem entered {i : Nat} {params : List String} {body : Expr} {scope : ScopeId} {args : List Value}
    (hcall : C (.closure i params body scope) args st) (hscope : scope < st.scopes.size) :
    Opens C st (st.entered scope params args) := by
  have h : st.Untouched (st.entered scope params args) := untouched_entered scope params args
  refine ⟨fun j hj hj' => ?_, h.parents, fun k hk _ n => by rw [h.defines k hk n]⟩
  rw [size_entered] at hj'
  obtain rfl : j = st.scopes.size := by omega
  exact ⟨i, params, body, scope, args, st, hcall, rfl, hscope, parent_entered scope params args,
    fun n => defines_entered scope params args⟩

theorem mapM {f : Expr → Eval Value} {es : List Expr} (hf : ∀ before e after st₁,
      es = before ++ e :: after → Passes f st before st₁ → Opens C st₁ (leaves (f e) st₁)) :
    Opens C st (leaves (es.mapM f) st) := by
  induction es generalizing st with
  | nil => exact .refl C st
  | cons e es ih =>
    rw [List.mapM_cons]
    refine bind (hf [] e es st rfl .nil) fun v st₁ he => bind (ih ?_) fun vs st₂ _ => .refl C st₂
    intro before e' after st₂ hes hbefore
    exact hf (e :: before) e' after st₂ (by rw [hes]; rfl) (.cons he hbefore)

theorem foldlM {f : Expr → Eval Value} {es : List Expr} (hf : ∀ before e after st₁,
      es = before ++ e :: after → Passes f st before st₁ → Opens C st₁ (leaves (f e) st₁))
    (v : Value) : Opens C st (leaves (es.foldlM (fun _ e => f e) v) st) := by
  induction es generalizing st v with
  | nil => exact .refl C st
  | cons e es ih =>
    rw [List.foldlM_cons]
    refine bind (hf [] e es st rfl .nil) fun v st₁ he => ?_
    refine ih (fun before e' after st₂ hes hbefore => ?_) v
    exact hf (e :: before) e' after st₂ (by rw [hes]; rfl) (.cons he hbefore)

end Opens

section
variable {host : Host} {d : Nat} {s : ScopeId} {st st₁ st₂ : Store}

theorem Passes.live (hscopes : host.KeepsScopes) {es : List Expr}
    (h : Passes (evaluate host d · s) st es st₁) (hst : st.Live) (hs : s < st.scopes.size) :
    st₁.Live ∧ s < st₁.scopes.size := by
  induction h with
  | nil => exact ⟨hst, hs⟩
  | cons he _ ih =>
    obtain ⟨-, hbound⟩ := (wp_iff_of_ok he).1 (wp_evaluate_bound hscopes d _ hst hs)
    exact ih hbound.live (hbound.keeps.parents.lt hs)

theorem live_of_mapM (hscopes : host.KeepsScopes) {es : List Expr} {vs : List Value}
    (h : es.mapM (fun a => evaluate host d a s) st = .ok vs st₁) (hst : st.Live)
    (hs : s < st.scopes.size) :
    (∀ v ∈ vs, v.LivesIn st₁) ∧ st₁.Live ∧ st.KeepsParents st₁ := by
  have hstep : ∀ a ∈ es, ∀ st₁ : Store, st₁.Live ∧ s < st₁.scopes.size → wp (evaluate host d a s)
      (fun v st₂ => v.LivesIn st₂ ∧ (st₂.Live ∧ s < st₂.scopes.size) ∧ st₁.KeepsParents st₂)
      (fun _ _ => True) st₁ := by
    rintro a - st₁ ⟨hst₁, hs₁⟩
    refine wp_mono (wp_evaluate_bound hscopes d a hst₁ hs₁) ?_ fun _ _ _ => trivial
    rintro v st₂ ⟨hv, hbound⟩
    exact ⟨hv, ⟨hbound.live, hbound.keeps.parents.lt hs₁⟩, hbound.keeps.parents⟩
  have hrun := wp_mapM (I := fun st₁ => st₁.Live ∧ s < st₁.scopes.size)
    (P := fun (v : Value) st₁ => v.LivesIn st₁) KeepsParents.refl KeepsParents.trans
    (fun hv hparents => KeepsParents.livesIn hparents hv) hstep ⟨hst, hs⟩
  obtain ⟨hvs, ⟨hst₁, -⟩, hparents⟩ := (wp_iff_of_ok h).1 hrun
  exact ⟨hvs, hst₁, hparents⟩

end

theorem opens_evaluate {host : Host} (hscopes : host.KeepsScopes) (limit : Nat) (e : Expr)
    (s : ScopeId) (st : Store) (hst : st.Live) (hs : s < st.scopes.size) :
    Opens (Calls host limit e s st) st (leaves (evaluate host limit e s) st) := by
  induction limit using Nat.strongRecOn generalizing e s st with
  | ind limit ih =>
  match limit with
  | 0 | 1 => exact .refl _ st
  | d + 2 =>
    have hd := ih d (by omega)
    -- the parts of a tree that is no conditional are evaluated from left to right
    have part : (∀ test yes no, e ≠ .cond test yes no) → ∀ before e' after st₁,
        e.parts = before ++ e' :: after → Passes (evaluate host d · s) st before st₁ →
        Opens (Calls host (d + 2) e s st) st₁ (leaves (evaluate host d e' s) st₁) := by
      intro hcond before e' after st₁ hparts hbefore
      obtain ⟨hst₁, hs₁⟩ := hbefore.live hscopes hst hs
      exact (hd e' s st₁ hst₁ hs₁).mono fun _ _ _ h => .part hcond hparts hbefore h
    cases e with
    | number | text | truth | alien => exact .refl _ st
    | name n =>
      have h : leaves (Eval.valueOf s n) st = st :=
        of_wp_leaves (P := (· = st)) (wp_valueOf (fun _ _ => rfl) fun _ => rfl)
      show Opens _ st (leaves (Eval.valueOf s n) st)
      rw [h]
      exact .refl _ st
    | lambda params body => exact .of_scopes rfl
    | call callee args =>
      rw [evaluate_call]
      refine .bind (part (by simp) [] callee args st rfl .nil) fun f st₁ hf => ?_
      have hf' := (wp_iff_of_ok hf).1 (wp_evaluate_bound hscopes d callee hst hs)
      have hs₁ := hf'.2.keeps.parents.lt hs
      refine .bind (.mapM fun before e' after st₂ hargs hbefore => ?_) fun vs st₂ hvs => ?_
      · have hparts : (Expr.call callee args).parts = (callee :: before) ++ e' :: after := by
          rw [Expr.parts, hargs]
          rfl
        exact part (by simp) (callee :: before) e' after st₂ hparts (.cons hf hbefore)
      obtain ⟨hlive, hst₂, hparents⟩ := live_of_mapM hscopes hvs hf'.2.live hs₁
      cases f with
      | closure i params body scope =>
        have hscope : scope < st₂.scopes.size := hparents.lt hf'.1
        have henter : Eval.enter scope params vs st₂ =
            .ok st₂.scopes.size (st₂.entered scope params vs) := rfl
        have hsize : st₂.scopes.size < (st₂.entered scope params vs).scopes.size := by
          rw [size_entered]
          exact Nat.lt_succ_self _
        have hbody := ih (d - 1) (by omega) body st₂.scopes.size _
          (hst₂.entered scope params vs hlive) hsize
        rw [Eval.callWith, leaves_bind_of_ok henter]
        exact .trans (.entered (.call hf hvs) hscope) (hbody.mono fun _ _ _ h => .body hf hvs h)
      | native i f => exact .of_scopes (hscopes.scopes f vs st₂)
      | number | text | truth => exact .refl _ st₂
    | cond test yes no =>
      show Opens _ st (leaves (evaluate host d test s >>= _) st)
      refine .bind ((hd test s st hst hs).mono fun _ _ _ h => .test h) fun v st₁ hv => ?_
      obtain ⟨-, hbound⟩ := (wp_iff_of_ok hv).1 (wp_evaluate_bound hscopes d test hst hs)
      have hs₁ := hbound.keeps.parents.lt hs
      cases htruthy : v.isTruthy with
      | true =>
        simp only [if_true]
        exact (hd yes s st₁ hbound.live hs₁).mono fun _ _ _ h => .yes hv htruthy h
      | false =>
        simp only [Bool.false_eq_true, if_false]
        cases no with
        | none => exact .refl _ st₁
        | some e' => exact (hd e' s st₁ hbound.live hs₁).mono fun _ _ _ h => .no hv htruthy h
    | assign target x =>
      by_cases htarget : ∃ n, target = .name n
      · obtain ⟨n, rfl⟩ := htarget
        rw [evaluate]
        refine .bind (part (by simp) [] x [] st rfl .nil) fun v st₁ hv => ?_
        refine of_wp_leaves (wp_assign (fun j hj => ?_) fun _ => .refl _ st₁)
        have hkeeps : Keeps s [n] st₁ (st₁.define j n v) :=
          (Keeps.refl s [n] st₁).target hj fun hroot => ⟨rfl, hroot, List.mem_singleton_self n⟩
        exact .of_keeps hkeeps size_define
      · rw [evaluate_assign_of_ne (not_exists.1 htarget), Eval.refuse]
        split <;> exact .refl _ st
    | binary op left right =>
      rw [evaluate]
      refine .bind (part (by simp) [] left [right] st rfl .nil) fun a st₁ ha => ?_
      refine .bind (part (by simp) [left] right [] st₁ rfl (.cons ha .nil)) fun b st₂ _ => ?_
      cases Operator.applyText op a b <;> exact .refl _ st₂
    | block items =>
      rw [evaluate]
      exact .foldlM (part (by simp)) .nothing

/-- However an evaluation ends, the scopes that were there keep their parents and their names; none
gains a name but the scope of the evaluation itself, and that only if it is a root and the tree
assigns to the name outside its functions. Every scope that was added is the scope of a call. -/
theorem evaluate_binds_at_top_level (host : Host) (hscopes : host.KeepsScopes) (limit : Nat)
    (e : Expr) (s : ScopeId) (st : Store) (hst : st.Live) (hs : s < st.scopes.size) :
    let st' := leaves (evaluate host limit e s) st
    (∀ i < st.scopes.size,
      st'.scopes[i]?.map Scope.parent = st.scopes[i]?.map Scope.parent ∧
      (∀ n, st.defines n i → st'.defines n i) ∧
      (i ≠ s ∨ st.isRoot s = false → ∀ n, st'.defines n i → st.defines n i)) ∧
    (st.isRoot s → ∀ n, st'.defines n s → st.defines n s ∨ n ∈ e.assigned) ∧
    ∀ j, st.scopes.size ≤ j → j < st'.scopes.size → OpenedBy (Calls host limit e s st) st' j := by
  intro st'
  have hbound : Bound s e.assigned st st' :=
    of_wp_leaves (wp_mono (wp_evaluate_bound hscopes limit e hst hs) (fun _ _ h => h.2) fun _ _ h => h)
  refine ⟨fun i hi => ⟨hbound.keeps.parents i hi, hbound.keeps.defines i hi, ?_⟩, ?_,
    (opens_evaluate hscopes limit e s st hst hs).opened⟩
  · intro hother n hn
    rcases hbound.keeps.gained i hi n hn with hn | ⟨his, hroot, -⟩
    · exact hn
    rcases hother with hne | hroot'
    · exact absurd his hne
    · rw [hroot] at hroot'
      cases hroot'
  · intro _ n hn
    exact (hbound.keeps.gained s hs n hn).imp_right fun h => h.2.2

/-- `y = pick("b", f); y()`, where `pick` answers the last of its arguments and `f` assigns to its
parameter. -/
theorem evaluate_binds_at_top_level_call :
    ∃ (st st' : Store) (e : Expr), st = (Store.initial.define Store.root "pick"
        (.native 1 ⟨some "pick", "<function pick>"⟩)).define Store.root "f"
        (.closure 2 ["x"] (.assign (.name "x") (.text "a")) Store.root) ∧
      e = .block [.assign (.name "y") (.call (.name "pick") [.text "b", .name "f"]),
        .call (.name "y") []] ∧
      Host.last.KeepsScopes ∧ st.Live ∧ Store.root < st.scopes.size ∧
      st' = leaves (evaluate .last 9 e Store.root) st ∧ st'.scopes.size = 2 ∧
      OpenedBy (Calls .last 9 e Store.root st) st' 1 ∧
      ∀ n, st'.defines n Store.root → st.defines n Store.root ∨ n ∈ ["y"] := by
  have hlive : ∀ {st : Store} {n : String} {v : Value}, st.Live → v.LivesIn st →
      (st.define Store.root n v).Live := fun hst hv => KeepsParents.define.live (All.define hst hv)
  have hst := hlive (n := "f") (v := .closure 2 ["x"] (.assign (.name "x") (.text "a")) Store.root)
    (hlive (n := "pick") (v := .native 1 ⟨some "pick", "<function pick>"⟩)
      (Store.all_initial trivial) trivial) (Nat.zero_lt_one)
  have h := evaluate_binds_at_top_level .last Host.keepsScopes_last 9
    (.block [.assign (.name "y") (.call (.name "pick") [.text "b", .name "f"]),
      .call (.name "y") []]) Store.root _ hst Nat.zero_lt_one
  refine ⟨_, _, _, rfl, rfl, Host.keepsScopes_last, hst, Nat.zero_lt_one, rfl, by decide +kernel, ?_,
    ?_⟩
  · exact h.2.2 1 (by decide) (by decide +kernel)
  · exact h.2.1 (by decide)

end ExprLang
