import ExprLang.Proofs.Scopes

/-!
# Assignment writes one cell

A cell is what one scope binds one name to. Which cell a name means in a scope is found by walking
outwards along the parents (`Store.Nearest`). In a store that was built up by opening scopes,
defining names and assigning to them, parents are older, so looking a name up is that walk
(`ParentsOlder.lookup?_eq_some_iff`).

An assignment that succeeds is one definition, in the scope that the walk leads to. It changes what
is read where the walk now ends at that cell, and nowhere else (`Store.get?_define_of_ne`).
-/

namespace ExprLang

namespace Store
variable {st st' : Store} {i j k p : ScopeId} {n m : String} {v : Value} {sc : Scope}

/-- The stores that are built up from empty roots. -/
inductive Forest : Store → Prop
  | roots {st : Store} (h : ∀ sc ∈ st.scopes, sc = ⟨[], none⟩) : Forest st
  | extend {st : Store} {p : ScopeId} (h : Forest st) (hp : p < st.scopes.size) :
      Forest (st.extend p).2
  | define {st : Store} {i : ScopeId} (h : Forest st) (hi : i < st.scopes.size) (n : String)
      (v : Value) : Forest (st.define i n v)
  | assign {st : Store} {i : ScopeId} (h : Forest st) (hi : i < st.scopes.size) (n : String)
      (v : Value) : Forest (leaves (Eval.assign i n v) st)

theorem Forest.parentsOlder (h : st.Forest) : st.ParentsOlder := by
  induction h with
  | roots h =>
    intro i sc p hsc hp
    rw [h sc (Array.mem_of_getElem? hsc)] at hp
    cases hp
  | extend _ hp ih => exact ih.extend hp
  | define _ _ n v ih => exact ih.define
  | assign _ _ n v ih => exact of_wp_leaves (wp_assign (fun _ _ => ih.define) fun _ => ih)

/-- What scope `i` itself binds the name to. -/
def cell? (st : Store) (i : ScopeId) (n : String) : Option Value := st.scopes[i]?.bind (·.get? n)

theorem cell?_of_scope (hsc : st.scopes[i]? = some sc) : st.cell? i n = sc.get? n := by
  rw [cell?, hsc, Option.bind_some]

theorem defines_eq_isSome : st.defines n i = (st.cell? i n).isSome := by
  rw [defines, cell?]
  cases st.scopes[i]? <;> rfl

theorem cell?_define_self (hk : k < st.scopes.size) : (st.define k n v).cell? k n = some v := by
  have hsc : (st.define k n v).scopes[k]? = some (st.scopes[k].define n v) := by
    rw [Store.define, Array.getElem?_modify, if_pos rfl, Array.getElem?_eq_getElem hk]
    rfl
  rw [cell?_of_scope hsc, Scope.get?_define_self]

theorem cell?_define_of_ne (h : ¬ (i = k ∧ m = n)) :
    (st.define k n v).cell? i m = st.cell? i m := by
  rw [cell?, cell?, Store.define, Array.getElem?_modify]
  split
  · rename_i hki
    have hm : m ≠ n := fun hm => h ⟨hki.symm, hm⟩
    cases st.scopes[i]? with
    | none => rfl
    | some sc => exact Scope.get?_define_of_ne hm sc v
  · rfl

/-- `j` is `i` or a scope around it. -/
inductive OnChain (st : Store) : ScopeId → ScopeId → Prop
  | self {i : ScopeId} (hi : i < st.scopes.size) : OnChain st i i
  | outer {i p j : ScopeId} {sc : Scope} (hsc : st.scopes[i]? = some sc) (hp : sc.parent = some p)
      (h : OnChain st p j) : OnChain st i j

/-- No scope from `i` outwards has the name. -/
def Unbound (st : Store) (i : ScopeId) (n : String) : Prop :=
  ∀ j, st.OnChain i j → st.cell? j n = none

/-- `k` is the nearest scope from `i` outwards that has the name. -/
inductive Nearest (st : Store) (n : String) : ScopeId → ScopeId → Prop
  | here {i : ScopeId} {v : Value} (h : st.cell? i n = some v) : Nearest st n i i
  | outer {i p k : ScopeId} {sc : Scope} (hsc : st.scopes[i]? = some sc) (hno : sc.get? n = none)
      (hp : sc.parent = some p) (h : Nearest st n p k) : Nearest st n i k

theorem lookup?_here (h : st.cell? i n = some v) : st.lookup? i n = some i := by
  have hdef : st.defines n i = true := by rw [defines_eq_isSome, h]; rfl
  obtain ⟨sc, hsc, -⟩ := Option.bind_eq_some_iff.1 h
  rw [lookup?, chain, chainUpTo, hsc, List.find?_cons_of_pos hdef]

theorem lookup?_root (hsc : st.scopes[i]? = some sc) (hno : sc.get? n = none)
    (hp : sc.parent = none) : st.lookup? i n = none := by
  have hdef : st.defines n i = false := by rw [defines_eq_isSome, cell?_of_scope hsc, hno]; rfl
  rw [lookup?, chain_root hsc hp]
  simp [hdef]

theorem lookup?_none (hsc : st.scopes[i]? = none) : st.lookup? i n = none := by
  rw [lookup?, chain, chainUpTo, hsc]
  rfl

namespace ParentsOlder

theorem lookup?_outer (h : st.ParentsOlder) (hsc : st.scopes[i]? = some sc)
    (hno : sc.get? n = none) (hp : sc.parent = some p) : st.lookup? i n = st.lookup? p n := by
  have hdef : st.defines n i = false := by rw [defines_eq_isSome, cell?_of_scope hsc, hno]; rfl
  rw [lookup?, h.chain_child hsc hp, List.find?_cons_of_neg (by simp [hdef]), lookup?]

theorem lookup?_of_nearest (h : st.ParentsOlder) (hk : st.Nearest n i k) :
    st.lookup? i n = some k := by
  induction hk with
  | here hv => exact lookup?_here hv
  | outer hsc hno hp _ ih => rw [h.lookup?_outer hsc hno hp, ih]

theorem nearest_of_lookup? (h : st.ParentsOlder) (hk : st.lookup? i n = some k) :
    st.Nearest n i k := by
  induction i using Nat.strongRecOn with
  | ind i ih =>
  cases hsc : st.scopes[i]? with
  | none =>
    rw [lookup?_none hsc] at hk
    cases hk
  | some sc =>
    cases hv : sc.get? n with
    | some v =>
      have hcell : st.cell? i n = some v := (cell?_of_scope hsc).trans hv
      rw [lookup?_here hcell] at hk
      cases hk
      exact .here hcell
    | none =>
      cases hp : sc.parent with
      | none =>
        rw [lookup?_root hsc hv hp] at hk
        cases hk
      | some p =>
        rw [h.lookup?_outer hsc hv hp] at hk
        exact .outer hsc hv hp (ih p (h i sc p hsc hp) hk)

theorem lookup?_eq_some_iff (h : st.ParentsOlder) : st.lookup? i n = some k ↔ st.Nearest n i k :=
  ⟨h.nearest_of_lookup?, h.lookup?_of_nearest⟩

theorem lookup?_eq_none_iff (h : st.ParentsOlder) : st.lookup? i n = none ↔ st.Unbound i n := by
  constructor
  · intro hnone j hj
    induction hj with
    | @self i hi =>
      cases hv : st.cell? i n with
      | none => rfl
      | some v =>
        rw [lookup?_here hv] at hnone
        cases hnone
    | @outer i p j sc hsc hp _ ih =>
      cases hv : sc.get? n with
      | none => exact ih ((h.lookup?_outer hsc hv hp).symm.trans hnone)
      | some v =>
        rw [lookup?_here ((cell?_of_scope hsc).trans hv)] at hnone
        cases hnone
  · intro hunbound
    cases hk : st.lookup? i n with
    | none => rfl
    | some k =>
      exfalso
      have hnearest := h.nearest_of_lookup? hk
      clear hk
      induction hnearest with
      | @here i v hv =>
        obtain ⟨sc, hsc, -⟩ := Option.bind_eq_some_iff.1 hv
        rw [hunbound i (.self (Array.getElem?_eq_some_iff.1 hsc).1)] at hv
        cases hv
      | outer hsc _ hp _ ih => exact ih fun j hj => hunbound j (.outer hsc hp hj)

theorem target?_of_nearest (h : st.ParentsOlder) (hk : st.Nearest n i k) :
    st.target? i n = some k := by
  rw [target?, h.lookup?_of_nearest hk]

theorem target?_of_unbound (h : st.ParentsOlder) (hi : st.Unbound i n) :
    st.target? i n = if st.isRoot i then some i else none := by
  rw [target?, h.lookup?_eq_none_iff.2 hi]

end ParentsOlder

theorem get?_eq_bind : st.get? i n = (st.lookup? i n).bind (st.cell? · n) := rfl

theorem returns_valueOf : returns (Eval.valueOf i n) st =
    (st.get? i n).elim (.error (.error (.undefined n))) .ok := by
  have hget : (get : Eval Store) st = .ok st st := rfl
  rw [returns, Eval.valueOf, bind_of_ok hget]
  cases st.get? i n <;> rfl

/-- One more scope that is looked for makes no difference unless it is what is found. -/
theorem find?_eq_of_ne {p q : ScopeId → Bool} {is : List ScopeId} (hpq : ∀ j, j ≠ k → q j = p j)
    (hk : p k → q k) (hne : is.find? q ≠ some k) : is.find? q = is.find? p := by
  induction is with
  | nil => rfl
  | cons j is ih =>
    cases hq : q j with
    | true =>
      rw [List.find?_cons_of_pos hq] at hne ⊢
      have hp : p j = true := by rw [← hpq j fun hj => hne (congrArg some hj), hq]
      rw [List.find?_cons_of_pos hp]
    | false =>
      have hp : p j = false := by
        by_cases hj : j = k
        · subst hj
          exact Bool.eq_false_iff.2 fun hp => by simp [hk hp] at hq
        · rw [← hpq j hj, hq]
      rw [List.find?_cons_of_neg (by simp [hq])] at hne ⊢
      rw [List.find?_cons_of_neg (by simp [hp])]
      exact ih hne

theorem lookup?_define_of_ne (h : ¬ (m = n ∧ (st.define k n v).lookup? i m = some k)) :
    (st.define k n v).lookup? i m = st.lookup? i m := by
  rw [lookup?, chain_define] at h ⊢
  by_cases hm : m = n
  · refine find?_eq_of_ne ?_ (fun hdef => defines_define.2 (.inl hdef)) fun hk => h ⟨hm, hk⟩
    intro j hj
    rw [defines_eq_isSome, defines_eq_isSome, cell?_define_of_ne fun hcell => hj hcell.1]
  · have hdef : (st.define k n v).defines m = st.defines m := by
      funext j
      rw [defines_eq_isSome, defines_eq_isSome, cell?_define_of_ne fun hcell => hm hcell.2]
    rw [hdef]
    rfl

/-- Only where the walk ends at the new cell something else is read than before. -/
theorem get?_define_of_ne (h : ¬ (m = n ∧ (st.define k n v).lookup? i m = some k)) :
    (st.define k n v).get? i m = st.get? i m := by
  have hlookup := lookup?_define_of_ne h
  rw [get?_eq_bind, get?_eq_bind, hlookup]
  cases hj : st.lookup? i m with
  | none => rfl
  | some j =>
    refine cell?_define_of_ne ?_
    rintro ⟨rfl, hm⟩
    exact h ⟨hm, hlookup.trans hj⟩

/-- The second store is the first with `v` in the cell of scope `k` and the name. -/
structure Writes (st : Store) (k : ScopeId) (n : String) (v : Value) (st' : Store) : Prop where
  size : st'.scopes.size = st.scopes.size
  parents : ∀ i : ScopeId, st'.scopes[i]?.map Scope.parent = st.scopes[i]?.map Scope.parent
  cell : st'.cell? k n = some v
  frame : ∀ i m, ¬ (i = k ∧ m = n) → st'.cell? i m = st.cell? i m
  identities : st'.identities = st.identities
  output : st'.output = st.output

theorem writes_define (hk : k < st.scopes.size) : st.Writes k n v (st.define k n v) where
  size := size_define
  parents := parent_define
  cell := cell?_define_self hk
  frame _ _ := cell?_define_of_ne
  identities := rfl
  output := rfl

theorem Nearest.lt_size (h : st.Nearest n i k) : k < st.scopes.size := by
  induction h with
  | here hv =>
    obtain ⟨sc, hsc, -⟩ := Option.bind_eq_some_iff.1 hv
    exact (Array.getElem?_eq_some_iff.1 hsc).1
  | outer _ _ _ _ ih => exact ih

theorem lt_size_of_isRoot (h : st.isRoot i) : i < st.scopes.size := by
  rw [isRoot, Option.any_eq_true] at h
  obtain ⟨sc, hsc, -⟩ := h
  exact (Array.getElem?_eq_some_iff.1 hsc).1

end Store

open Store

theorem assign_of_target {st : Store} {s k : ScopeId} {n : String} {v : Value}
    (h : st.target? s n = some k) : Eval.assign s n v st = .ok v (st.define k n v) := by
  refine ok_of_wp (wp_assign ?_ ?_)
  · intro j hj
    rw [h] at hj
    cases hj
    exact ⟨rfl, rfl⟩
  · intro hnone
    rw [h] at hnone
    cases hnone

theorem assign_of_no_target {st : Store} {s : ScopeId} {n : String} {v : Value}
    (h : st.target? s n = none) : Eval.assign s n v st = .error (.error (.undefined n)) st := by
  refine error_of_wp (wp_assign ?_ fun _ => ⟨rfl, rfl⟩)
  intro j hj
  rw [h] at hj
  cases hj

/-- In a forest of scopes, a name that no scope from `s` outwards has can be assigned to in a root
only; elsewhere that is an error and nothing changes. Any other assignment answers the value and
writes it to one cell, of the nearest scope that has the name or of the root. A name then means the
value where the walk outwards ends at that cell, and what it meant before everywhere else. -/
theorem assign_writes_one_cell (st : Store) (h : st.Forest) (s : ScopeId) (n : String) (v : Value) :
    (st.Unbound s n ∧ ¬ st.isRoot s →
      ∃ e, Eval.assign s n v st = .error (.error e) st ∧ e.message = "Undefined variable " ++ n) ∧
    (¬ (st.Unbound s n ∧ ¬ st.isRoot s) →
      ∃ k st', (st.Nearest n s k ∨ st.Unbound s n ∧ st.isRoot s ∧ k = s) ∧
        Eval.assign s n v st = .ok v st' ∧ st.Writes k n v st' ∧
        ∀ s' n',
          (n' = n ∧ st'.Nearest n s' k → returns (Eval.valueOf s' n') st' = .ok v) ∧
          (¬ (n' = n ∧ st'.Nearest n s' k) →
            returns (Eval.valueOf s' n') st' = returns (Eval.valueOf s' n') st)) := by
  have hold := h.parentsOlder
  constructor
  · rintro ⟨hunbound, hroot⟩
    have htarget : st.target? s n = none := by rw [hold.target?_of_unbound hunbound, if_neg hroot]
    exact ⟨_, assign_of_no_target htarget, rfl⟩
  · intro hbound
    have htarget : ∃ k, (st.Nearest n s k ∨ st.Unbound s n ∧ st.isRoot s ∧ k = s) ∧
        k < st.scopes.size ∧ st.target? s n = some k := by
      cases hk : st.lookup? s n with
      | some k =>
        have hnearest := hold.nearest_of_lookup? hk
        exact ⟨k, .inl hnearest, hnearest.lt_size, hold.target?_of_nearest hnearest⟩
      | none =>
        have hunbound := hold.lookup?_eq_none_iff.1 hk
        have hroot : st.isRoot s := Decidable.byContradiction fun hroot => hbound ⟨hunbound, hroot⟩
        refine ⟨s, .inr ⟨hunbound, hroot, rfl⟩, lt_size_of_isRoot hroot, ?_⟩
        rw [hold.target?_of_unbound hunbound, if_pos hroot]
    obtain ⟨k, hwhere, hsize, htarget⟩ := htarget
    refine ⟨k, st.define k n v, hwhere, assign_of_target htarget, writes_define hsize, ?_⟩
    intro s' n'
    rw [returns_valueOf, returns_valueOf, ← hold.define.lookup?_eq_some_iff]
    constructor
    · rintro ⟨rfl, hk⟩
      rw [get?_eq_bind, hk, Option.bind_some, cell?_define_self hsize]
      rfl
    · intro hne
      rw [get?_define_of_ne]
      rintro ⟨rfl, hk⟩
      exact hne ⟨rfl, hk⟩

/-- A root with `x`, a scope inside it with another `x`, and in each of the two an empty scope: 3 in
the root, and 2 in the other. -/
def Store.shadowing : Store :=
  let outer := Store.empty.define 0 "x" (.truth false)
  let inner := (outer.extend 0).2.define 1 "x" (.truth false)
  ((inner.extend 1).2.extend 0).2

theorem Store.forest_shadowing : shadowing.Forest := by
  have hroot : Store.empty.Forest := .roots fun sc hsc => List.mem_singleton.1 (Array.mem_def.1 hsc)
  have houter := hroot.define Nat.zero_lt_one "x" (.truth false)
  have hinner := (houter.extend (p := 0) (by decide)).define (i := 1) (by decide) "x" (.truth false)
  exact (hinner.extend (p := 1) (by decide)).extend (by decide)

/-- The inner `x` is assigned to from scope 2, and scope 3 goes on to see the outer one. -/
theorem assign_writes_one_cell_shadowed : ∃ st', shadowing.Forest ∧
    ¬ (shadowing.Unbound 2 "x" ∧ ¬ shadowing.isRoot 2) ∧
    Eval.assign 2 "x" (.truth true) shadowing = .ok (.truth true) st' ∧
    shadowing.Writes 1 "x" (.truth true) st' ∧
    returns (Eval.valueOf 2 "x") st' = .ok (.truth true) ∧
    returns (Eval.valueOf 3 "x") st' = returns (Eval.valueOf 3 "x") shadowing := by
  have hold := forest_shadowing.parentsOlder
  have hlookup : shadowing.lookup? 2 "x" = some 1 := by decide +kernel
  have hbound : ¬ (shadowing.Unbound 2 "x" ∧ ¬ shadowing.isRoot 2) := by
    rintro ⟨hunbound, -⟩
    rw [hold.lookup?_eq_none_iff.2 hunbound] at hlookup
    cases hlookup
  obtain ⟨-, hwrites⟩ := assign_writes_one_cell shadowing forest_shadowing 2 "x" (.truth true)
  obtain ⟨k, st', hwhere, hassign, hcell, hreads⟩ := hwrites hbound
  obtain rfl : k = 1 := by
    rcases hwhere with hnearest | ⟨hunbound, -, -⟩
    · rw [hold.lookup?_of_nearest hnearest] at hlookup
      exact Option.some.inj hlookup
    · rw [hold.lookup?_eq_none_iff.2 hunbound] at hlookup
      cases hlookup
  obtain rfl : st' = shadowing.define 1 "x" (.truth true) := by
    have htarget : shadowing.target? 2 "x" = some 1 := by decide +kernel
    rw [assign_of_target htarget] at hassign
    cases hassign
    rfl
  have hold' := hold.define (j := 1) (n := "x") (v := .truth true)
  refine ⟨_, forest_shadowing, hbound, hassign, hcell, ?_, ?_⟩
  · have hnear : (shadowing.define 1 "x" (.truth true)).lookup? 2 "x" = some 1 := by decide +kernel
    exact (hreads 2 "x").1 ⟨rfl, hold'.nearest_of_lookup? hnear⟩
  · have hfar : (shadowing.define 1 "x" (.truth true)).lookup? 3 "x" = some 0 := by decide +kernel
    refine (hreads 3 "x").2 ?_
    rintro ⟨-, hnearest⟩
    rw [hold'.lookup?_of_nearest hnearest] at hfar
    cases hfar

end ExprLang
