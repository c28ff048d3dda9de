import ExprLang.Proofs.Correspondence
import ExprLang.Proofs.Reachability

/-!
# Captured state is private

An evaluation in the scope `s` sees of a store what `s` leads to. From two stores that agree on that
it goes alike. The numbers of the scopes and identities that the two runs give out may differ, for
the stores may have given out more or fewer of them before; the `k`-th new one of the one run stands
for the `k`-th new one of the other (`Naming.since`). `Store.InStep` says how the two stores
correspond all along.

Numbers mean what they should in a store that is `Store.WellFormed`: no function is of a scope or
identity that is still to be given out, and parents are older, so a chain is the parent's chain with
one more scope before it. The store that programs begin with is well-formed, and stores in step stay
so.
-/

namespace ExprLang

/-- The store has given out the identity of the function, and the scope it was made in. -/
def Value.KnownTo (st : Store) : Value → Prop
  | .closure k _ _ scope => k < st.identities ∧ scope < st.scopes.size
  | .native k _ => k < st.identities
  | _ => True

namespace Store
variable {st st' : Store} {s i i' j j' p p' : ScopeId} {n : String} {u u' v v' : Value}
  {sc sc' : Scope}

structure WellFormed (st : Store) : Prop where
  older : ∀ (i : ScopeId) (sc : Scope) p, st.scopes[i]? = some sc → sc.parent = some p → p < i
  values : st.All (Value.KnownTo st)

/-- The second store has given out at least as much. -/
structure GivesMore (st st' : Store) : Prop where
  size : st.scopes.size ≤ st'.scopes.size
  identities : st.identities ≤ st'.identities

theorem GivesMore.knownTo (h : st.GivesMore st') (hv : v.KnownTo st) : v.KnownTo st' := by
  cases v with
  | closure k params body scope =>
    exact ⟨Nat.lt_of_lt_of_le hv.1 h.identities, Nat.lt_of_lt_of_le hv.2 h.size⟩
  | native k f => exact Nat.lt_of_lt_of_le hv h.identities
  | number | text | truth => exact trivial

namespace WellFormed

theorem of_scopes (h : st.WellFormed) (hscopes : st'.scopes = st.scopes)
    (hidentities : st.identities ≤ st'.identities) : st'.WellFormed where
  older i sc p hsc := h.older i sc p (hscopes ▸ hsc)
  values i sc hsc b hb := by
    have hmore : st.GivesMore st' := ⟨Nat.le_of_eq (congrArg Array.size hscopes.symm), hidentities⟩
    exact hmore.knownTo (h.values i sc (hscopes ▸ hsc) b hb)

theorem fresh (h : st.WellFormed) : st.fresh.2.WellFormed := h.of_scopes rfl (Nat.le_succ _)

theorem define (h : st.WellFormed) (hv : v.KnownTo st) : (st.define j n v).WellFormed where
  older := ParentsOlder.define h.older
  values := by
    have hmore : st.GivesMore (st.define j n v) := ⟨Nat.le_of_eq size_define.symm, Nat.le_refl _⟩
    exact (h.values.define hv).mono fun _ => hmore.knownTo

theorem extend (h : st.WellFormed) (hp : p < st.scopes.size) : (st.extend p).2.WellFormed where
  older := ParentsOlder.extend h.older hp
  values := by
    have hmore : st.GivesMore (st.extend p).2 :=
      ⟨Nat.le.intro (Array.size_push _).symm, Nat.le_refl _⟩
    exact (h.values.extend p).mono fun _ => hmore.knownTo

theorem encloses (h : st.WellFormed) : st.Encloses (· < st.scopes.size) where
  parents i sc p hi hsc hp := Nat.lt_trans (h.older i sc p hsc hp) hi
  values i sc n v _ hsc hn := by
    have hknown := h.values i sc hsc (n, v) (Scope.mem_of_get? hn)
    cases v with
    | closure k params body scope => exact hknown.2
    | number | text | truth | native => exact trivial

end WellFormed

theorem wellFormed_initial : initial.WellFormed where
  older i sc p hsc hp := by
    have hroot : initial.scopes[i]?.map Scope.parent = #[none][i]? := by
      rw [initial, install, parent_define]
      cases i <;> rfl
    rw [hsc, Option.map_some, hp] at hroot
    obtain ⟨hi, hnone⟩ := Array.getElem?_eq_some_iff.1 hroot.symm
    obtain rfl : i = 0 := Nat.lt_one_iff.1 hi
    cases hnone
  values := all_initial (Nat.zero_lt_one)

end Store

/-- Of two runs that have given out `n` and `n'` numbers before and `a` since, the number `i` of the
one stands for the number `i'` of the other. -/
def Numbered (n n' a i i' : Nat) : Prop :=
  i < n ∧ i < n' ∧ i' = i ∨ ∃ k < a, i = n + k ∧ i' = n' + k

namespace Numbered
variable {n n' a i i' j j' : Nat}

theorem lt (h : Numbered n n' a i i') : i < n + a := by
  rcases h with ⟨hi, -, -⟩ | ⟨k, hk, rfl, -⟩ <;> omega

theorem lt' (h : Numbered n n' a i i') : i' < n' + a := by
  rcases h with ⟨-, hi, rfl⟩ | ⟨k, hk, -, rfl⟩ <;> omega

theorem injective (h : Numbered n n' a i i') (h' : Numbered n n' a j j') : i = j ↔ i' = j' := by
  rcases h with ⟨hi, hi', rfl⟩ | ⟨k, hk, rfl, rfl⟩ <;>
    rcases h' with ⟨hj, hj', rfl⟩ | ⟨l, hl, rfl, rfl⟩ <;> omega

theorem succ (h : Numbered n n' a i i') : Numbered n n' (a + 1) i i' :=
  h.imp_right fun ⟨k, hk, hi⟩ => ⟨k, Nat.lt_succ_of_lt hk, hi⟩

theorem last (n n' a : Nat) : Numbered n n' (a + 1) (n + a) (n' + a) :=
  .inr ⟨a, Nat.lt_succ_self a, rfl, rfl⟩

theorem of_succ (h : Numbered n n' (a + 1) i i') :
    Numbered n n' a i i' ∨ i = n + a ∧ i' = n' + a := by
  rcases h with h | ⟨k, hk, hi, hi'⟩
  · exact .inl (.inl h)
  rcases Nat.lt_succ_iff_lt_or_eq.1 hk with hk | rfl
  · exact .inl (.inr ⟨k, hk, hi, hi'⟩)
  · exact .inr ⟨hi, hi'⟩

end Numbered

/-- Scopes that `s` led to, and identities that were given out, stand for themselves. Of the `a`
scopes and `b` identities given out since, each stands for the one that has the same place among
those of the other run. -/
def Naming.since (s : ScopeId) (st st' : Store) (a b : Nat) : Naming where
  scope i i' := st.Within s (st.scopes.size + a) i ∧
    Numbered st.scopes.size st'.scopes.size a i i'
  identity := Numbered st.identities st'.identities b

/-- The same names with corresponding values, and corresponding parents. -/
structure Scope.Corresponds (w : Naming) (sc sc' : Scope) : Prop where
  parent : Option.Rel w.scope sc.parent sc'.parent
  values : ∀ n, Option.Rel (Value.Corresponds (fun _ => True) w) (sc.get? n) (sc'.get? n)

namespace Scope.Corresponds
variable {w w' : Naming} {sc sc' : Scope} {v v' : Value}

theorem grows (h : sc.Corresponds w sc') (hw : w.Grows w') : sc.Corresponds w' sc' where
  parent := by
    obtain ⟨hparent, -⟩ := h
    generalize sc.parent = p, sc'.parent = p' at hparent
    cases hparent with
    | none => exact .none
    | some hp => exact .some (hw.scope hp)
  values n := by
    have hvalues := h.values n
    generalize sc.get? n = u, sc'.get? n = u' at hvalues
    cases hvalues with
    | none => exact .none
    | some hu => exact .some (hu.grows hw)

theorem defines (h : sc.Corresponds w sc') (n : String) : sc.defines n = sc'.defines n := by
  have hvalues := h.values n
  rw [Scope.defines, Scope.defines]
  generalize sc.get? n = u, sc'.get? n = u' at hvalues
  cases hvalues <;> rfl

theorem define (h : sc.Corresponds w sc') (n : String)
    (hv : v.Corresponds (fun _ => True) w v') : (sc.define n v).Corresponds w (sc'.define n v') where
  parent := h.parent
  values m := by
    by_cases hm : m = n
    · subst hm
      rw [get?_define_self, get?_define_self]
      exact .some hv
    · rw [get?_define_of_ne hm, get?_define_of_ne hm]
      exact h.values m

end Scope.Corresponds

/-! ### Two runs -/

/-- Two runs in the scope `s`, from `st₀` and from `st₀'`, have each given out `a` scopes and `b`
identities, have written the same, and have come to `st` and to `st'`. -/
structure Store.InStep (s : ScopeId) (st₀ st₀' : Store) (a b : Nat) (st st' : Store) : Prop where
  size : st.scopes.size = st₀.scopes.size + a
  size' : st'.scopes.size = st₀'.scopes.size + a
  identities : st.identities = st₀.identities + b
  identities' : st'.identities = st₀'.identities + b
  output : ∃ written, st.output = st₀.output ++ written ∧ st'.output = st₀'.output ++ written
  scopes : ∀ i i', (Naming.since s st₀ st₀' a b).scope i i' → ∃ sc sc', st.scopes[i]? = some sc ∧
    st'.scopes[i']? = some sc' ∧ sc.Corresponds (.since s st₀ st₀' a b) sc'
  wellFormed : st.WellFormed
  wellFormed' : st'.WellFormed

namespace Store.InStep
variable {s : ScopeId} {st₀ st₀' st st' : Store} {a b : Nat} {i i' j j' p p' : ScopeId} {n : String}
  {v v' : Value}

theorem knownTo (h : InStep s st₀ st₀' a b st st')
    (hv : v.Corresponds (fun _ => True) (.since s st₀ st₀' a b) v') :
    v.KnownTo st ∧ v'.KnownTo st' := by
  have identity : ∀ {k k'}, (Naming.since s st₀ st₀' a b).identity k k' →
      k < st.identities ∧ k' < st'.identities := fun hk =>
    ⟨h.identities ▸ hk.lt, h.identities' ▸ hk.lt'⟩
  cases hv with
  | number | text | truth => exact ⟨trivial, trivial⟩
  | closure hi hs =>
    obtain ⟨hi, hi'⟩ := identity hi
    exact ⟨⟨hi, h.size ▸ hs.2.lt⟩, hi', h.size' ▸ hs.2.lt'⟩
  | native hi => exact identity hi

/-! What the two runs find. -/

theorem chain (h : InStep s st₀ st₀' a b st st')
    (hi : (Naming.since s st₀ st₀' a b).scope i i') :
    List.Forall₂ (Naming.since s st₀ st₀' a b).scope (st.chain i) (st'.chain i') := by
  induction i using Nat.strongRecOn generalizing i' with
  | ind i ih =>
  obtain ⟨sc, sc', hsc, hsc', hcorr⟩ := h.scopes i i' hi
  have hparent := hcorr.parent
  cases hp : sc.parent with
  | none =>
    rw [hp] at hparent
    cases hp' : sc'.parent with
    | none =>
      rw [chain_root hsc hp, chain_root hsc' hp']
      exact .cons hi .nil
    | some p' =>
      rw [hp'] at hparent
      cases hparent
  | some p =>
    rw [hp] at hparent
    cases hp' : sc'.parent with
    | none =>
      rw [hp'] at hparent
      cases hparent
    | some p' =>
      rw [hp'] at hparent
      cases hparent with
      | some hpp =>
        rw [ParentsOlder.chain_child h.wellFormed.older hsc hp,
          ParentsOlder.chain_child h.wellFormed'.older hsc' hp']
        exact .cons hi (ih p (h.wellFormed.older i sc p hsc hp) hpp)

theorem defines (h : InStep s st₀ st₀' a b st st')
    (hi : (Naming.since s st₀ st₀' a b).scope i i') (n : String) :
    st.defines n i = st'.defines n i' := by
  obtain ⟨sc, sc', hsc, hsc', hcorr⟩ := h.scopes i i' hi
  rw [Store.defines, Store.defines, hsc, hsc']
  exact hcorr.defines n

theorem lookup? (h : InStep s st₀ st₀' a b st st')
    (hi : (Naming.since s st₀ st₀' a b).scope i i') (n : String) :
    Option.Rel (Naming.since s st₀ st₀' a b).scope (st.lookup? i n) (st'.lookup? i' n) := by
  rw [Store.lookup?, Store.lookup?]
  have hchain := h.chain hi
  generalize st.chain i = is, st'.chain i' = is' at hchain
  induction hchain with
  | nil => exact .none
  | cons hj _ ih =>
    rw [List.find?_cons, List.find?_cons, h.defines hj n]
    split
    · exact .some hj
    · exact ih

theorem get? (h : InStep s st₀ st₀' a b st st') (hi : (Naming.since s st₀ st₀' a b).scope i i')
    (n : String) : Option.Rel (Value.Corresponds (fun _ => True) (.since s st₀ st₀' a b))
      (st.get? i n) (st'.get? i' n) := by
  have hlookup := h.lookup? hi n
  simp only [Store.get?, Option.bind_eq_bind]
  generalize st.lookup? i n = found, st'.lookup? i' n = found' at hlookup
  cases hlookup with
  | none => exact .none
  | some hj =>
    obtain ⟨sc, sc', hsc, hsc', hcorr⟩ := h.scopes _ _ hj
    simp only [Option.bind_some, hsc, hsc']
    exact hcorr.values n

theorem isRoot (h : InStep s st₀ st₀' a b st st')
    (hi : (Naming.since s st₀ st₀' a b).scope i i') : st.isRoot i = st'.isRoot i' := by
  obtain ⟨sc, sc', hsc, hsc', hcorr⟩ := h.scopes i i' hi
  have hparent := hcorr.parent
  rw [isRoot_eq, isRoot_eq, hsc, hsc', Option.map_some, Option.map_some]
  generalize sc.parent = p, sc'.parent = p' at hparent
  cases hparent <;> rfl

theorem target? (h : InStep s st₀ st₀' a b st st')
    (hi : (Naming.since s st₀ st₀' a b).scope i i') (n : String) :
    Option.Rel (Naming.since s st₀ st₀' a b).scope (st.target? i n) (st'.target? i' n) := by
  have hlookup := h.lookup? hi n
  rw [Store.target?, Store.target?, h.isRoot hi]
  generalize st.lookup? i n = found, st'.lookup? i' n = found' at hlookup
  cases hlookup with
  | none =>
    cases st'.isRoot i' with
    | false => exact .none
    | true => exact .some hi
  | some hj => exact .some hj

/-! What the two runs do. -/

theorem define (h : InStep s st₀ st₀' a b st st') (hj : (Naming.since s st₀ st₀' a b).scope j j')
    (hv : v.Corresponds (fun _ => True) (.since s st₀ st₀' a b) v') :
    InStep s st₀ st₀' a b (st.define j n v) (st'.define j' n v') where
  size := size_define.trans h.size
  size' := size_define.trans h.size'
  identities := h.identities
  identities' := h.identities'
  output := h.output
  scopes i i' hi := by
    obtain ⟨sc, sc', hsc, hsc', hcorr⟩ := h.scopes i i' hi
    have hsame := hj.2.injective hi.2
    simp only [Store.define, Array.getElem?_modify, hsc, hsc']
    by_cases hji : j = i
    · rw [if_pos hji, if_pos (hsame.1 hji)]
      exact ⟨_, _, rfl, rfl, hcorr.define n hv⟩
    · rw [if_neg hji, if_neg fun hji' => hji (hsame.2 hji')]
      exact ⟨_, _, rfl, rfl, hcorr⟩
  wellFormed := h.wellFormed.define (h.knownTo hv).1
  wellFormed' := h.wellFormed'.define (h.knownTo hv).2

theorem bindParams (h : InStep s st₀ st₀' a b st st')
    (hj : (Naming.since s st₀ st₀' a b).scope j j') (params : List String) {args args' : List Value}
    (hargs : List.Forall₂ (Value.Corresponds (fun _ => True) (.since s st₀ st₀' a b)) args args') :
    InStep s st₀ st₀' a b (Eval.bindParams j params args st)
      (Eval.bindParams j' params args' st') := by
  induction params generalizing st st' args args' with
  | nil => exact h
  | cons p params ih =>
    cases hargs with
    | nil => exact ih (h.define hj (.truth false)) .nil
    | cons hv hargs => exact ih (h.define hj hv) hargs

theorem grows_scope (s : ScopeId) (st₀ st₀' : Store) (a b : Nat) :
    (Naming.since s st₀ st₀' a b).Grows (.since s st₀ st₀' (a + 1) b) where
  scope h := ⟨h.1.mono (Nat.le_succ _), h.2.succ⟩
  identity h := h

theorem grows_identity (s : ScopeId) (st₀ st₀' : Store) (a b : Nat) :
    (Naming.since s st₀ st₀' a b).Grows (.since s st₀ st₀' a (b + 1)) where
  scope h := h
  identity h := h.succ

theorem scope_last (s : ScopeId) (st₀ st₀' : Store) (a b : Nat) :
    (Naming.since s st₀ st₀' (a + 1) b).scope (st₀.scopes.size + a) (st₀'.scopes.size + a) :=
  ⟨.inr ⟨Nat.le_add_right _ _, Nat.lt_succ_self _⟩, .last _ _ a⟩

theorem extend (h : InStep s st₀ st₀' a b st st') (hp : (Naming.since s st₀ st₀' a b).scope p p') :
    InStep s st₀ st₀' (a + 1) b (st.extend p).2 (st'.extend p').2 where
  size := by rw [Store.extend, Array.size_push, h.size, Nat.add_assoc]
  size' := by rw [Store.extend, Array.size_push, h.size', Nat.add_assoc]
  identities := h.identities
  identities' := h.identities'
  output := h.output
  scopes i i' hi := by
    rcases hi.2.of_succ with hold | ⟨rfl, rfl⟩
    · have hlt : i < st.scopes.size := h.size ▸ hold.lt
      have hlt' : i' < st'.scopes.size := h.size' ▸ hold.lt'
      have hwithin : st₀.Within s (st₀.scopes.size + a) i :=
        hi.1.imp_right fun hi => ⟨hi.1, hold.lt⟩
      obtain ⟨sc, sc', hsc, hsc', hcorr⟩ := h.scopes i i' ⟨hwithin, hold⟩
      rw [getElem?_extend p hlt, getElem?_extend p' hlt']
      exact ⟨sc, sc', hsc, hsc', hcorr.grows (grows_scope ..)⟩
    · rw [← h.size, ← h.size', getElem?_extend_self, getElem?_extend_self]
      exact ⟨_, _, rfl, rfl, .some ((grows_scope ..).scope hp), fun _ => .none⟩
  wellFormed := h.wellFormed.extend (h.size ▸ hp.2.lt)
  wellFormed' := h.wellFormed'.extend (h.size' ▸ hp.2.lt')

theorem entered (h : InStep s st₀ st₀' a b st st') (hp : (Naming.since s st₀ st₀' a b).scope p p')
    (params : List String) {args args' : List Value}
    (hargs : List.Forall₂ (Value.Corresponds (fun _ => True) (.since s st₀ st₀' a b)) args args') :
    InStep s st₀ st₀' (a + 1) b (st.entered p params args) (st'.entered p' params args') := by
  rw [Store.entered, Store.entered, h.size, h.size']
  exact (h.extend hp).bindParams (scope_last ..) params
    (hargs.imp fun _ _ hv => hv.grows (grows_scope ..))

theorem fresh (h : InStep s st₀ st₀' a b st st') :
    InStep s st₀ st₀' a (b + 1) st.fresh.2 st'.fresh.2 where
  size := h.size
  size' := h.size'
  identities := congrArg (· + 1) h.identities
  identities' := congrArg (· + 1) h.identities'
  output := h.output
  scopes i i' hi := by
    obtain ⟨sc, sc', hsc, hsc', hcorr⟩ := h.scopes i i' hi
    exact ⟨sc, sc', hsc, hsc', hcorr.grows (grows_identity ..)⟩
  wellFormed := h.wellFormed.fresh
  wellFormed' := h.wellFormed'.fresh

theorem append (h : InStep s st₀ st₀' a b st st') (written : Array Piece) :
    InStep s st₀ st₀' a b (st.append written) (st'.append written) where
  size := h.size
  size' := h.size'
  identities := h.identities
  identities' := h.identities'
  output := by
    obtain ⟨before, hout, hout'⟩ := h.output
    refine ⟨before ++ written, ?_, ?_⟩
    · rw [Store.append, hout, Array.append_assoc]
    · rw [Store.append, hout', Array.append_assoc]
  scopes := h.scopes
  wellFormed := h.wellFormed.of_scopes rfl (Nat.le_refl _)
  wellFormed' := h.wellFormed'.of_scopes rfl (Nat.le_refl _)

/-- Stores that agree on the scopes that `s` leads to are in step. -/
theorem of_agree (hst : st.WellFormed) (hst' : st'.WellFormed)
    (hagree : ∀ i, st.Reaches s i → st'.scopes[i]? = st.scopes[i]?) :
    InStep s st st' 0 0 st st' where
  size := rfl
  size' := rfl
  identities := rfl
  identities' := rfl
  output := ⟨#[], by simp, by simp⟩
  wellFormed := hst
  wellFormed' := hst'
  scopes _ i := by
    rintro ⟨hi, ⟨hlt, hlt', rfl⟩ | ⟨k, hk, -⟩⟩
    · have hreach : st.Reaches s i := hi.resolve_right fun h => absurd hlt (Nat.not_lt.2 h.1)
      obtain ⟨sc, hsc⟩ : ∃ sc, st.scopes[i]? = some sc := ⟨_, Array.getElem?_eq_getElem hlt⟩
      have hsc' : st'.scopes[i]? = some sc := (hagree i hreach).trans hsc
      refine ⟨sc, sc, hsc, hsc', ?_, fun n => ?_⟩
      · cases hp : sc.parent with
        | none => exact .none
        | some p =>
          have hpi : p < i := hst.older i sc p hsc hp
          refine .some ⟨.inl (hreach.parent hsc hp), .inl ⟨?_, ?_, rfl⟩⟩
          · exact Nat.lt_trans hpi hlt
          · exact Nat.lt_trans hpi hlt'
      · cases hv : sc.get? n with
        | none => exact .none
        | some v =>
          have hknown := hst.values i sc hsc (n, v) (Scope.mem_of_get? hv)
          have hknown' := hst'.values i sc hsc' (n, v) (Scope.mem_of_get? hv)
          refine .some ?_
          cases v with
          | number x => exact .number x
          | text t => exact .text t
          | truth t => exact .truth t
          | closure k params body scope =>
            exact .closure (.inl ⟨hknown.1, hknown'.1, rfl⟩)
              ⟨.inl (hreach.captured hsc hv), .inl ⟨hknown.2, hknown'.2, rfl⟩⟩ trivial
          | native k f => exact .native (.inl ⟨hknown, hknown', rfl⟩)
    · exact absurd hk (Nat.not_lt_zero k)

end Store.InStep

open Store

def Correspondence.inStep {host : Host} (hignores : host.IgnoresScopes) (s : ScopeId)
    (st₀ st₀' : Store) : Correspondence host where
  store w st st' := ∃ a b, w = .since s st₀ st₀' a b ∧ InStep s st₀ st₀' a b st st'
  tree _ := True
  tree_part _ _ := trivial
  tree_body _ := trivial
  identity := by
    rintro w st st' ⟨a, b, rfl, -⟩ i i' j j' hi hj
    exact hi.injective hj
  read := by
    rintro w st st' i i' n ⟨a, b, rfl, h⟩ hi -
    exact h.get? hi n
  assigned := by
    rintro w st st' i i' n e v v' ⟨a, b, rfl, h⟩ hi - hv
    have htarget := h.target? hi n
    generalize st.target? i n = target, st'.target? i' n = target' at htarget
    cases htarget with
    | none => exact .none
    | some hj => exact .some ⟨a, b, rfl, h.define hj hv⟩
  fresh := by
    rintro w st st' ⟨a, b, rfl, h⟩
    refine ⟨_, InStep.grows_identity .., ⟨a, b + 1, rfl, h.fresh⟩, ?_⟩
    rw [h.identities, h.identities']
    exact .last _ _ b
  enter := by
    rintro w st st' i i' args args' params ⟨a, b, rfl, h⟩ hi hargs
    refine ⟨_, InStep.grows_scope .., ⟨a + 1, b, rfl, h.entered hi params hargs⟩, ?_⟩
    rw [h.size, h.size']
    exact InStep.scope_last ..
  native := by
    rintro w st st' f args args' ⟨a, b, rfl, h⟩ hargs
    exact hignores.paired (fun _ _ _ _ hi hj => hi.injective hj)
      (fun written => ⟨a, b, rfl, h.append written⟩) hargs

/-- The two runs from `st₀` and `st₀'` end in step, with the same value or the same error. -/
inductive SameInStep (s : ScopeId) (st₀ st₀' : Store) :
    EStateM.Result (Stop EvalError) Store Value → EStateM.Result (Stop EvalError) Store Value → Prop
  | ok {a b : Nat} {v v' : Value} {st st' : Store}
      (hv : v.Corresponds (fun _ => True) (.since s st₀ st₀' a b) v')
      (hst : InStep s st₀ st₀' a b st st') : SameInStep s st₀ st₀' (.ok v st) (.ok v' st')
  | error {a b : Nat} {e e' : Stop EvalError} {st st' : Store}
      (he : e.Corresponds (fun _ => True) (.since s st₀ st₀' a b) e')
      (hst : InStep s st₀ st₀' a b st st') : SameInStep s st₀ st₀' (.error e st) (.error e' st')

theorem evaluate_sameInStep {host : Host} (hignores : host.IgnoresScopes) (limit : Nat) (e : Expr)
    {s : ScopeId} {st st' : Store} (hst : st.WellFormed) (hst' : st'.WellFormed)
    (hs : s < st.scopes.size) (hagree : ∀ i, st.Reaches s i → st'.scopes[i]? = st.scopes[i]?) :
    SameInStep s st st' (evaluate host limit e s st) (evaluate host limit e s st') := by
  have hs' : s < st'.scopes.size := by
    have hself := hagree s .self
    rw [Array.getElem?_eq_getElem hs] at hself
    exact (Array.getElem?_eq_some_iff.1 hself).1
  have hpairs := (Correspondence.inStep hignores s st st').pairs_evaluate limit (e := e) trivial
    (w := .since s st st' 0 0) ⟨.inl .self, .inl ⟨hs, hs', rfl⟩⟩ st st'
    ⟨0, 0, rfl, .of_agree hst hst' hagree⟩
  generalize evaluate host limit e s st = r, evaluate host limit e s st' = r' at hpairs
  cases hpairs with
  | ok _ hv hend =>
    obtain ⟨a, b, rfl, hend⟩ := hend
    exact .ok hv hend
  | error _ he hend =>
    obtain ⟨a, b, rfl, hend⟩ := hend
    exact .error he hend

/-! ### Privacy -/

/-- The scopes that a function leads to by the scope it was made in; other values lead nowhere. -/
def Value.LeadsTo (st : Store) : Value → ScopeId → Prop
  | .closure _ _ _ scope, j => st.Reaches scope j
  | _, _ => False

theorem Store.Encloses.leadsTo {st : Store} {A : ScopeId → Prop} {v : Value} {j : ScopeId}
    (h : st.Encloses A) (hv : v.StaysIn A) (hj : v.LeadsTo st j) : A j := by
  cases v with
  | closure k params body scope => exact h.reaches hv hj
  | number | text | truth | native => exact hj.elim

/-- Let native functions touch no scope and answer one of their arguments or false. However an
evaluation in the scope `s` ends, scopes that `s` did not lead to are as they were. What is bound
now in a scope that `s` led to, or that was opened since, leads to such scopes only, and so does the
value. From a store that agrees on the scopes that `s` leads to, the evaluation goes alike if native
functions do: up to the numbers of new scopes and functions it ends with the same value or error,
writes the same, and leaves the same in those scopes. -/
theorem evaluate_touches_only_reachable (host : Host) (hscopes : host.KeepsScopes)
    (hanswers : host.AnswersArguments) (limit : Nat) (e : Expr) (s : ScopeId) (st : Store) :
    (∀ i < st.scopes.size, ¬ st.Reaches s i →
      (leaves (evaluate host limit e s) st).scopes[i]? = st.scopes[i]?) ∧
    (∀ st₁, st₁ = leaves (evaluate host limit e s) st →
      ∀ i sc n v, st.Within s st₁.scopes.size i → st₁.scopes[i]? = some sc → sc.get? n = some v →
        ∀ j, v.LeadsTo st₁ j → st.Within s st₁.scopes.size j) ∧
    (∀ v st₁, evaluate host limit e s st = .ok v st₁ →
      ∀ j, v.LeadsTo st₁ j → st.Within s st₁.scopes.size j) ∧
    (host.IgnoresScopes → ∀ st' : Store, st.WellFormed → st'.WellFormed → s < st.scopes.size →
      (∀ i, st.Reaches s i → st'.scopes[i]? = st.scopes[i]?) →
      SameInStep s st st' (evaluate host limit e s st) (evaluate host limit e s st')) := by
  have hframed := framed_of_evaluate hscopes hanswers limit e s st
  refine ⟨hframed.frame, ?_, ?_, fun hignores st' hst hst' hs =>
    evaluate_sameInStep hignores limit e hst hst' hs⟩
  · rintro st₁ rfl i sc n v hi hsc hn j hj
    exact hframed.encloses.leadsTo (hframed.encloses.values i sc n v hi hsc hn) hj
  · intro v st₁ hrun j hj
    rw [leaves_of_ok hrun] at hframed
    exact hframed.encloses.leadsTo (staysIn_of_evaluate hscopes hanswers hrun) hj

/-- The root binds a function that was made in a scope of its own, where it switches `lamp` on, and
a native function. -/
def Store.lit : Store :=
  ((initial.entered root ["lamp"] []).fresh.2.define root "light"
    (.closure 1 [] (.assign (.name "lamp") (.text "on")) 1)).fresh.2.define root "pick"
    (.native 2 ⟨some "pick", "<function pick>"⟩)

/-- The same, and one more scope, which nothing that is bound leads to. -/
def Store.litBeside : Store := lit.fresh.2.entered root ["lamp"] [.text "off"]

theorem Store.wellFormed_lit : lit.WellFormed := by
  have hlamp : (initial.entered root ["lamp"] []).WellFormed :=
    (wellFormed_initial.extend Nat.zero_lt_one).define (v := .nothing) trivial
  have hlight : ∀ body, ((initial.entered root ["lamp"] []).fresh.2.define root "light"
      (.closure 1 [] body 1)).WellFormed := fun _ =>
    hlamp.fresh.define ⟨Nat.lt_succ_self 1, Nat.lt_succ_self 1⟩
  exact (hlight _).fresh.define (v := .native 2 _) (Nat.lt_succ_self 2)

theorem Store.wellFormed_litBeside : litBeside.WellFormed :=
  (wellFormed_lit.fresh.extend Nat.two_pos).define (v := .text "off") trivial

/-- `pick("a", light)()` where `pick` answers the last of its arguments: to switch the lamp of the
one scope on leaves the lamp of the other off, and goes as it would go without that one. -/
theorem evaluate_touches_only_reachable_lamp :
    ∃ e : Expr, e = .call (.call (.name "pick") [.text "a", .name "light"]) [] ∧
    Host.last.KeepsScopes ∧ Host.last.AnswersArguments ∧ Host.last.IgnoresScopes ∧
    lit.WellFormed ∧ litBeside.WellFormed ∧ root < lit.scopes.size ∧
    (∀ i, lit.Reaches root i → litBeside.scopes[i]? = lit.scopes[i]?) ∧
    lit.Reaches root 1 ∧ ¬ litBeside.Reaches root 2 ∧
    (leaves (evaluate .last 20 e root) litBeside).get? 1 "lamp" = some (.text "on") ∧
    (leaves (evaluate .last 20 e root) litBeside).scopes[2]? = litBeside.scopes[2]? ∧
    SameInStep root lit litBeside (evaluate .last 20 e root lit)
      (evaluate .last 20 e root litBeside) := by
  have hroot : root < lit.scopes.size := Nat.two_pos
  have hold : ∀ i < 2, litBeside.scopes[i]? = lit.scopes[i]? := by
    intro i hi
    have hlt : i < lit.fresh.2.scopes.size := hi
    exact getElem?_entered root _ _ hlt
  have hagree : ∀ i, lit.Reaches root i → litBeside.scopes[i]? = lit.scopes[i]? :=
    fun i hi => hold i (wellFormed_lit.encloses.reaches hroot hi)
  have hencloses : litBeside.Encloses (· < 2) :=
    ⟨fun i sc p hi hsc => wellFormed_lit.encloses.parents i sc p hi (hold i hi ▸ hsc),
      fun i sc n v hi hsc => wellFormed_lit.encloses.values i sc n v hi (hold i hi ▸ hsc)⟩
  have hapart : ¬ litBeside.Reaches root 2 := fun h =>
    absurd (hencloses.reaches Nat.two_pos h) (Nat.lt_irrefl 2)
  have hrun := evaluate_touches_only_reachable .last Host.keepsScopes_last
    Host.answersArguments_last 20 (.call (.call (.name "pick") [.text "a", .name "light"]) []) root
  refine ⟨_, rfl, Host.keepsScopes_last, Host.answersArguments_last, Host.ignoresScopes_last,
    wellFormed_lit, wellFormed_litBeside, hroot, hagree, ?_, hapart, rfl, ?_, ?_⟩
  · exact .captured (n := "light") .self rfl rfl
  · exact (hrun litBeside).1 2 (by decide) hapart
  · exact (hrun lit).2.2.2 Host.ignoresScopes_last litBeside wellFormed_lit wellFormed_litBeside hroot
      hagree

end ExprLang
