import ExprLang.Proofs.Natives

/-!
# What the operations of a store keep

`Store.All P`: every value that some scope holds satisfies `P`. `Store.Defined i n`: the name `n`
is known in scope `i` or in one around it. Defining a name, opening a scope and binding parameters
keep both, for values that satisfy `P` themselves; a name that is known stays known.
-/

namespace ExprLang

namespace Scope

theorem mem_bind {name : String} {v : Value} {vars : List (String × Value)} {b : String × Value}
    (h : b ∈ bind name v vars) : b = (name, v) ∨ b ∈ vars := by
  induction vars with
  | nil => exact .inl (List.mem_singleton.1 h)
  | cons w vars ih =>
    obtain ⟨n, x⟩ := w
    rw [bind] at h
    split at h
    · rcases List.mem_cons.1 h with h | h
      · exact .inl h
      · exact .inr (List.mem_cons_of_mem _ h)
    · rcases List.mem_cons.1 h with h | h
      · exact .inr (h ▸ List.mem_cons_self ..)
      · exact (ih h).imp_right (List.mem_cons_of_mem _)

theorem lookup_bind_self (name : String) (v : Value) (vars : List (String × Value)) :
    (bind name v vars).lookup name = some v := by
  induction vars with
  | nil => simp [bind]
  | cons w vars ih =>
    obtain ⟨n, x⟩ := w
    rw [bind]
    split
    · simp
    · rename_i hn
      have hne : (name == n) = false := by
        rw [beq_eq_false_iff_ne]
        rintro rfl
        exact hn (by simp)
      rw [List.lookup_cons, hne]
      exact ih

theorem lookup_bind_of_ne {name n : String} (hn : n ≠ name) (v : Value)
    (vars : List (String × Value)) : (bind name v vars).lookup n = vars.lookup n := by
  induction vars with
  | nil =>
    have hne : (n == name) = false := by simpa using hn
    rw [bind, List.lookup_cons, hne]
  | cons w vars ih =>
    obtain ⟨m, x⟩ := w
    rw [bind]
    split
    · rename_i hm
      obtain rfl : m = name := by simpa using hm
      have hne : (n == m) = false := by simpa using hn
      rw [List.lookup_cons, List.lookup_cons, hne]
    · rw [List.lookup_cons, List.lookup_cons, ih]

theorem get?_define_self (sc : Scope) (name : String) (v : Value) :
    (sc.define name v).get? name = some v :=
  lookup_bind_self name v sc.vars

theorem get?_define_of_ne {name n : String} (hn : n ≠ name) (sc : Scope) (v : Value) :
    (sc.define name v).get? n = sc.get? n :=
  lookup_bind_of_ne hn v sc.vars

theorem mem_of_get? {sc : Scope} {n : String} {v : Value} (h : sc.get? n = some v) :
    (n, v) ∈ sc.vars := by
  obtain ⟨l, l', hvars, -⟩ := List.lookup_eq_some_iff.1 h
  simp [hvars]

theorem defines_bind {name n : String} {v : Value} {vars : List (String × Value)} :
    ((bind name v vars).lookup n).isSome ↔ n = name ∨ (vars.lookup n).isSome := by
  by_cases hn : n = name
  · subst hn
    simp [lookup_bind_self]
  · simp [lookup_bind_of_ne hn, hn]

end Scope

namespace Store
variable {st : Store} {i j : ScopeId} {n name : String} {v : Value} {P : Value → Prop}

/-- Parameters are bound by one definition after another. -/
theorem bindParams_induction {I : Store → Prop}
    (hdefine : ∀ st n v, I st → P v → I (st.define j n v)) (hnothing : P .nothing) (h : I st)
    (params : List String) {args : List Value} (hargs : ∀ a ∈ args, P a) :
    I (Eval.bindParams j params args st) := by
  induction params generalizing st args with
  | nil => exact h
  | cons p params ih =>
    cases args with
    | nil => exact ih (hdefine st p .nothing h hnothing) hargs
    | cons a args =>
      obtain ⟨ha, hargs⟩ := List.forall_mem_cons.1 hargs
      exact ih (hdefine st p a h ha) hargs

def All (P : Value → Prop) (st : Store) : Prop :=
  ∀ (i : ScopeId) (sc : Scope), st.scopes[i]? = some sc → ∀ b ∈ sc.vars, P b.2

theorem All.mono {Q : Value → Prop} (h : st.All P) (hPQ : ∀ v, P v → Q v) : st.All Q :=
  fun i sc hsc b hb => hPQ b.2 (h i sc hsc b hb)

theorem All.define (h : st.All P) (hv : P v) : (st.define j name v).All P := by
  intro i sc hsc b hb
  rw [Store.define, Array.getElem?_modify] at hsc
  split at hsc
  · obtain ⟨sc', hsc', rfl⟩ := Option.map_eq_some_iff.1 hsc
    rcases Scope.mem_bind hb with rfl | hb
    · exact hv
    · exact h i sc' hsc' b hb
  · exact h i sc hsc b hb

theorem All.extend (h : st.All P) (p : ScopeId) : (st.extend p).2.All P := by
  intro i sc hsc b hb
  rw [Store.extend, Array.getElem?_push] at hsc
  split at hsc
  · cases hsc
    cases hb
  · exact h i sc hsc b hb

theorem All.bindParams (h : st.All P) {params : List String} {args : List Value}
    (hargs : ∀ a ∈ args, P a) (hnothing : P .nothing) :
    (Eval.bindParams j params args st).All P :=
  bindParams_induction (I := All P) (fun _ _ _ h hv => h.define hv) hnothing h params hargs

/-- What a name means is a binding of some scope on the chain. -/
theorem mem_of_get? (h : st.get? i n = some v) :
    ∃ j ∈ st.chain i, ∃ sc, st.scopes[j]? = some sc ∧ (n, v) ∈ sc.vars := by
  simp only [Store.get?, Option.bind_eq_bind, Option.bind_eq_some_iff] at h
  obtain ⟨j, hj, sc, hsc, hv⟩ := h
  exact ⟨j, List.mem_of_find?_eq_some hj, sc, hsc, Scope.mem_of_get? hv⟩

theorem All.get? (h : st.All P) (hv : st.get? i n = some v) : P v := by
  obtain ⟨j, -, sc, hsc, hmem⟩ := mem_of_get? hv
  exact h j sc hsc (n, v) hmem

theorem all_initial (h : P (.native 0 .print)) : initial.All P := by
  have hempty : empty.fresh.2.All P := by
    intro i sc hsc b hb
    obtain ⟨hi, rfl⟩ := Array.getElem?_eq_some_iff.1 hsc
    obtain rfl : i = 0 := Nat.lt_one_iff.1 hi
    cases hb
  exact hempty.define h

/-! ### The names of a store -/

def Defined (st : Store) (i : ScopeId) (n : String) : Prop := ∃ j ∈ st.chain i, st.defines n j

theorem lookup?_of_defined (h : st.Defined i n) :
    ∃ j, st.lookup? i n = some j ∧ st.defines n j := by
  obtain ⟨j, hj⟩ := Option.isSome_iff_exists.1 (List.find?_isSome.2 h)
  exact ⟨j, hj, List.find?_some hj⟩

theorem get?_of_defined (h : st.Defined i n) : ∃ v, st.get? i n = some v := by
  obtain ⟨j, hj, hdef⟩ := lookup?_of_defined h
  rw [defines, Option.any_eq_true] at hdef
  obtain ⟨sc, hsc, hdef⟩ := hdef
  obtain ⟨v, hv⟩ := Option.isSome_iff_exists.1 hdef
  refine ⟨v, ?_⟩
  simp only [Store.get?, Option.bind_eq_bind, hj, Option.bind_some, hsc, hv]

theorem target?_of_defined (h : st.Defined i n) : ∃ j, st.target? i n = some j := by
  obtain ⟨j, hj, -⟩ := lookup?_of_defined h
  exact ⟨j, by rw [target?, hj]⟩

/-- Every name that is known anywhere stays known there. -/
def Grows (st st' : Store) : Prop := ∀ i n, st.Defined i n → st'.Defined i n

theorem Grows.refl (st : Store) : st.Grows st := fun _ _ h => h

theorem Grows.trans {st' st'' : Store} (h : st.Grows st') (h' : st'.Grows st'') : st.Grows st'' :=
  fun i n hd => h' i n (h i n hd)

/-- Scopes with the same parents have the same chains. -/
theorem chain_eq_of_parents {st' : Store}
    (h : ∀ k : ScopeId, st'.scopes[k]?.map Scope.parent = st.scopes[k]?.map Scope.parent) :
    st'.chain i = st.chain i := by
  unfold chain
  generalize i + 1 = m
  induction m generalizing i with
  | zero => rfl
  | succ m ih =>
    have hi := h i
    rw [chainUpTo, chainUpTo]
    cases hs : st.scopes[i]? with
    | none =>
      rw [hs] at hi
      rw [Option.map_eq_none_iff.1 hi]
    | some sc =>
      rw [hs] at hi
      obtain ⟨sc', hsc', hp⟩ := Option.map_eq_some_iff.1 hi
      rw [hsc']
      simp only [hp]
      cases sc.parent with
      | none => rfl
      | some p => simp only [ih]

/-- The chain stays among scopes that have their parents among them. -/
theorem mem_chain_of_closed {A : ScopeId → Prop}
    (hA : ∀ i sc p, A i → st.scopes[i]? = some sc → sc.parent = some p → A p) (hi : A i)
    (hj : j ∈ st.chain i) : A j := by
  unfold Store.chain at hj
  generalize i + 1 = m at hj
  induction m generalizing i with
  | zero => cases hj
  | succ m ih =>
    rw [chainUpTo] at hj
    cases hsc : st.scopes[i]? with
    | none =>
      rw [hsc] at hj
      cases hj
    | some sc =>
      rw [hsc] at hj
      rcases List.mem_cons.1 hj with rfl | hj
      · exact hi
      cases hp : sc.parent with
      | none =>
        simp only [hp] at hj
        cases hj
      | some p =>
        simp only [hp] at hj
        exact ih (hA i sc p hi hsc hp) hj

theorem grows_of_scopes {st' : Store} (h : st'.scopes = st.scopes) : st.Grows st' := by
  rintro i n ⟨j, hj, hdef⟩
  have hchain : st'.chain i = st.chain i := chain_eq_of_parents fun k => by rw [h]
  refine ⟨j, ?_, ?_⟩
  · rw [hchain]
    exact hj
  · rw [defines, h]
    exact hdef

theorem parent_define (k : ScopeId) : (st.define j name v).scopes[k]?.map Scope.parent =
    st.scopes[k]?.map Scope.parent := by
  rw [Store.define, Array.getElem?_modify]
  split
  · rw [Option.map_map]
    rfl
  · rfl

/-- Definitions add no scopes, and give none another parent. -/
theorem exists_scope_of_define {sc : Scope} (h : (st.define j name v).scopes[i]? = some sc) :
    ∃ sc', st.scopes[i]? = some sc' ∧ sc'.parent = sc.parent := by
  have hparent : some sc.parent = st.scopes[i]?.map Scope.parent := by
    rw [← parent_define, h]
    rfl
  exact Option.map_eq_some_iff.1 hparent.symm

theorem chain_define : (st.define j name v).chain i = st.chain i :=
  chain_eq_of_parents parent_define

theorem defines_define : (st.define j name v).defines n i ↔
    st.defines n i ∨ i = j ∧ n = name ∧ j < st.scopes.size := by
  rw [defines, defines, Store.define, Array.getElem?_modify]
  split
  · rename_i hij
    subst hij
    cases hs : st.scopes[j]? with
    | none =>
      have hle : st.scopes.size ≤ j := Array.getElem?_eq_none_iff.1 hs
      have hlt : ¬ j < st.scopes.size := Nat.not_lt.2 hle
      simp [hlt]
    | some sc =>
      have hlt : j < st.scopes.size := (Array.getElem?_eq_some_iff.1 hs).1
      have hbind : (sc.define name v).defines n ↔ n = name ∨ sc.defines n := Scope.defines_bind
      simp only [Option.map_some, Option.any_some, hbind, hlt, true_and, and_true]
      exact Or.comm
  · rename_i hij
    have hne : i ≠ j := fun h => hij h.symm
    simp [hne]

theorem grows_define : st.Grows (st.define j name v) := by
  rintro i n ⟨k, hk, hdef⟩
  exact ⟨k, by rw [chain_define]; exact hk, defines_define.2 (.inl hdef)⟩

theorem chainUpTo_extend (p : ScopeId) (m : Nat) (i : ScopeId) :
    st.chainUpTo m i <+: (st.extend p).2.chainUpTo m i := by
  induction m generalizing i with
  | zero => exact List.prefix_refl []
  | succ m ih =>
    rw [chainUpTo, chainUpTo]
    cases hs : st.scopes[i]? with
    | none => exact List.nil_prefix
    | some sc =>
      have hlt : i < st.scopes.size := (Array.getElem?_eq_some_iff.1 hs).1
      have hs' : (st.extend p).2.scopes[i]? = some sc := by
        rw [Store.extend, Array.getElem?_push, if_neg (Nat.ne_of_lt hlt), hs]
      rw [hs']
      refine List.prefix_cons_inj i |>.2 ?_
      cases sc.parent with
      | none => exact List.prefix_refl []
      | some q => exact ih q

theorem defines_extend (h : st.defines n i) (p : ScopeId) : (st.extend p).2.defines n i := by
  rw [defines, Option.any_eq_true] at h ⊢
  obtain ⟨sc, hsc, hdef⟩ := h
  have hlt : i < st.scopes.size := (Array.getElem?_eq_some_iff.1 hsc).1
  exact ⟨sc, by rw [Store.extend, Array.getElem?_push, if_neg (Nat.ne_of_lt hlt), hsc], hdef⟩

theorem grows_extend (p : ScopeId) : st.Grows (st.extend p).2 := by
  rintro i n ⟨k, hk, hdef⟩
  exact ⟨k, (chainUpTo_extend p _ i).subset hk, defines_extend hdef p⟩

theorem chainUpTo_mono {m m' : Nat} (h : m ≤ m') (i : ScopeId) :
    st.chainUpTo m i <+: st.chainUpTo m' i := by
  induction m generalizing m' i with
  | zero => exact List.nil_prefix
  | succ m ih =>
    obtain ⟨m', rfl⟩ : ∃ k, m' = k + 1 := ⟨m' - 1, by omega⟩
    rw [chainUpTo, chainUpTo]
    cases st.scopes[i]? with
    | none => exact List.prefix_refl []
    | some sc =>
      refine List.prefix_cons_inj i |>.2 ?_
      cases sc.parent with
      | none => exact List.prefix_refl []
      | some q => exact ih (Nat.le_of_succ_le_succ h) q

/-- What is known in a scope is known in a new scope inside it. -/
theorem defined_child {p : ScopeId} (h : st.Defined p n) :
    (st.extend p).2.Defined (st.extend p).1 n := by
  obtain ⟨k, hk, hdef⟩ := h
  have hp : p < st.scopes.size := by
    cases hs : st.scopes[p]? with
    | none =>
      rw [chain, chainUpTo, hs] at hk
      cases hk
    | some sc => exact (Array.getElem?_eq_some_iff.1 hs).1
  have hchain : (st.extend p).2.chain st.scopes.size =
      st.scopes.size :: (st.extend p).2.chainUpTo st.scopes.size p := by
    have hnew : (st.extend p).2.scopes[st.scopes.size]? = some ⟨[], some p⟩ := by
      rw [Store.extend, Array.getElem?_push, if_pos rfl]
    rw [chain, chainUpTo, hnew]
  refine ⟨k, ?_, defines_extend hdef p⟩
  show k ∈ (st.extend p).2.chain st.scopes.size
  rw [hchain]
  exact List.mem_cons_of_mem _ ((chainUpTo_mono hp p).subset ((chainUpTo_extend p _ p).subset hk))

/-- Every scope is younger than the one around it. -/
def ParentsOlder (st : Store) : Prop :=
  ∀ (i : ScopeId) (sc : Scope) p, st.scopes[i]? = some sc → sc.parent = some p → p < i

theorem chain_root {sc : Scope} (hsc : st.scopes[i]? = some sc) (hp : sc.parent = none) :
    st.chain i = [i] := by
  rw [chain, chainUpTo, hsc]
  simp only [hp]

namespace ParentsOlder

theorem chainUpTo_eq (h : st.ParentsOlder) {i m m' : Nat} (hm : i < m) (hm' : i < m') :
    st.chainUpTo m i = st.chainUpTo m' i := by
  induction i using Nat.strongRecOn generalizing m m' with
  | ind i ih =>
  obtain ⟨m, rfl⟩ : ∃ k, m = k + 1 := ⟨m - 1, by omega⟩
  obtain ⟨m', rfl⟩ : ∃ k, m' = k + 1 := ⟨m' - 1, by omega⟩
  rw [chainUpTo, chainUpTo]
  cases hsc : st.scopes[i]? with
  | none => rfl
  | some sc =>
    cases hp : sc.parent with
    | none => simp only [hp]
    | some p =>
      have hlt : p < i := h i sc p hsc hp
      have hpm : p < m := Nat.lt_of_lt_of_le hlt (Nat.le_of_lt_succ hm)
      have hpm' : p < m' := Nat.lt_of_lt_of_le hlt (Nat.le_of_lt_succ hm')
      simp only [hp, ih p hlt hpm hpm']

theorem chain_child (h : st.ParentsOlder) {sc : Scope} {p : ScopeId}
    (hsc : st.scopes[i]? = some sc) (hp : sc.parent = some p) : st.chain i = i :: st.chain p := by
  have hlt : p < i := h i sc p hsc hp
  rw [chain, chainUpTo, hsc]
  simp only [hp]
  rw [chain, h.chainUpTo_eq hlt (Nat.lt_succ_self p)]

theorem define (h : st.ParentsOlder) : (st.define j n v).ParentsOlder := by
  intro i sc p hsc hp
  obtain ⟨sc', hsc', hsame⟩ := exists_scope_of_define hsc
  exact h i sc' p hsc' (hsame.trans hp)

theorem extend (h : st.ParentsOlder) {p : ScopeId} (hp : p < st.scopes.size) :
    (st.extend p).2.ParentsOlder := by
  intro i sc q hsc hq
  rw [Store.extend, Array.getElem?_push] at hsc
  split at hsc
  · rename_i hi
    cases hsc
    cases hq
    exact hi ▸ hp
  · exact h i sc q hsc hq

end ParentsOlder

theorem defined_of_defines (h : st.defines n i) : st.Defined i n := by
  refine ⟨i, ?_, h⟩
  rw [defines, Option.any_eq_true] at h
  obtain ⟨sc, hsc, -⟩ := h
  rw [chain, chainUpTo, hsc]
  exact List.mem_cons_self ..

theorem defines_define_self (h : j < st.scopes.size) : (st.define j n v).defines n j :=
  defines_define.2 (.inr ⟨rfl, rfl, h⟩)

theorem size_define : (st.define j name v).scopes.size = st.scopes.size := Array.size_modify

theorem grows_bindParams (params : List String) (args : List Value) :
    st.Grows (Eval.bindParams j params args st) :=
  bindParams_induction (I := st.Grows) (P := fun _ => True) (fun _ _ _ h _ => h.trans grows_define)
    trivial (.refl st) params fun _ _ => trivial

theorem defined_bindParams (h : j < st.scopes.size) {params : List String} (args : List Value)
    (hn : n ∈ params) : (Eval.bindParams j params args st).Defined j n := by
  induction params generalizing st args with
  | nil => cases hn
  | cons p params ih =>
    -- the parameter itself is defined at once, and stays so
    have step : ∀ v args, (Eval.bindParams j params args (st.define j p v)).Defined j n := by
      intro v args
      rcases List.mem_cons.1 hn with rfl | hn
      · exact grows_bindParams params args j n (defined_of_defines (defines_define_self h))
      · have hsize : j < (st.define j p v).scopes.size := by rw [size_define]; exact h
        exact ih hsize args hn
    cases args with
    | nil => exact step .nothing []
    | cons a args => exact step a args

end Store

section
variable {st : Store} {s : ScopeId} {n : String} {v : Value} {Q : Value → Store → Prop}
  {B : Stop EvalError → Store → Prop}

theorem wp_valueOf (h : ∀ v, st.get? s n = some v → Q v st)
    (h' : st.get? s n = none → B (.error (.undefined n)) st) : wp (Eval.valueOf s n) Q B st := by
  rw [Eval.valueOf, wp_bind, wp_get]
  cases hget : st.get? s n with
  | none => exact h' hget
  | some v => exact h v hget

theorem wp_assign (h : ∀ j, st.target? s n = some j → Q v (st.define j n v))
    (h' : st.target? s n = none → B (.error (.undefined n)) st) :
    wp (Eval.assign s n v) Q B st := by
  rw [Eval.assign, wp_bind, wp_get]
  cases htarget : st.target? s n with
  | none => exact h' htarget
  | some j => exact h j htarget

end

end ExprLang
