import ExprLang.Proofs.Acceptance
import ExprLang.Proofs.Lookahead

/-!
# What stands behind an expression

An expression is over where words begin that cannot belong to it (`Ends`), whatever these are. So a
production that stops in front of `r` stops with the same tree in front of other such words `r'`
(`steady`). Where a production still waits for one of its own words, all that it has read so far
lies ahead of that word, and there `Simulation.ahead` speaks; only what may be the last thing in an
expression is followed through here.
-/

namespace ExprLang
open TokenSource Grammar

section
variable {α β : Type} (r r' : List Lexeme)

/-- A run that takes nothing of `r` does the same in front of `r'`. -/
def Steady (x : Reading Words α) : Prop :=
  ∀ p q a, x ⟨p ++ r, none⟩ = .ok a ⟨q ++ r, none⟩ → x ⟨p ++ r', none⟩ = .ok a ⟨q ++ r', none⟩

/-- The same, for runs that begin with the word `l`. -/
def SteadyFrom (l : Lexeme) (x : Reading Words α) : Prop :=
  ∀ p q a, x ⟨l :: p ++ r, none⟩ = .ok a ⟨q ++ r, none⟩ →
    x ⟨l :: p ++ r', none⟩ = .ok a ⟨q ++ r', none⟩

variable {r r'} {x y : Reading Words α} {f : α → Reading Words β}

theorem Takes.origin {P : List Lexeme → α → Prop} (h : Takes x P) {w : Words} {a : α}
    {ls : List Lexeme} {st : Option Char} (hx : x w = .ok a ⟨ls, st⟩) :
    ∃ u, P u a ∧ w = ⟨u ++ ls, st⟩ := by
  obtain ⟨left, stray⟩ := w
  obtain ⟨u, rfl, rfl, hu⟩ := (wp_iff_of_ok hx).1 (h ⟨left, stray⟩)
  exact ⟨u, hu, rfl⟩

theorem append_of_words {p q : List Lexeme} {st st' : Option Char}
    (h : (⟨p ++ r, st⟩ : Words) = ⟨q ++ r, st'⟩) : p = q :=
  List.append_cancel_right (Words.mk.inj h).1

theorem Takes.split {P : List Lexeme → α → Prop} (h : Takes x P) {p q : List Lexeme} {a : α}
    (hx : x ⟨p ++ r, none⟩ = .ok a ⟨q ++ r, none⟩) : ∃ u, P u a ∧ p = u ++ q := by
  obtain ⟨u, hu, hw⟩ := h.origin hx
  rw [← List.append_assoc] at hw
  exact ⟨u, hu, append_of_words hw⟩

theorem Steady.from (h : Steady r r' x) (l : Lexeme) : SteadyFrom r r' l x :=
  fun p => h (l :: p)

theorem steady_pure (a : α) : Steady r r' (pure a) := by
  intro p q b h
  obtain ⟨rfl, hw⟩ := EStateM.Result.ok.inj h
  obtain rfl := append_of_words hw
  rfl

theorem steady_throw (e : Stop SourceError) : Steady r r' (throw e : Reading Words α) :=
  fun _ _ _ h => by cases h

protected theorem Steady.bind {P : α → List Lexeme → β → Prop} (hx : Steady r r' x)
    (hf : ∀ a, Steady r r' (f a)) (ht : ∀ a, Takes (f a) (P a)) : Steady r r' (x >>= f) := by
  intro p q b h
  obtain ⟨a, w, hxa, hfa⟩ := ok_of_bind h
  obtain ⟨u, -, rfl⟩ := (ht a).origin hfa
  rw [← List.append_assoc] at hxa hfa
  rw [bind_of_ok (hx p (u ++ q) a hxa)]
  exact hf a (u ++ q) q b hfa

protected theorem Steady.ite {c : Prop} [Decidable c] (hx : c → Steady r r' x)
    (hy : ¬ c → Steady r r' y) : Steady r r' (if c then x else y) := by
  split
  · exact hx ‹_›
  · exact hy ‹_›

theorem Steady.andReturn (hx : Steady r r' x) {g : α → β} : Steady r r' (do return g (← x)) :=
  hx.bind (P := fun _ _ _ => True) (fun _ => steady_pure _) fun _ => .pure trivial

/-- A run that has not come to `r` does the same in front of `r'`. -/
theorem ok_of_ahead {st st' : Option Char} (hx : (Simulation.ahead r r' st st').rel Eq x x)
    {p q : List Lexeme} (hq : q ≠ []) {a : α} (h : x ⟨p ++ r, st⟩ = .ok a ⟨q ++ r, st⟩) :
    x ⟨p ++ r', st'⟩ = .ok a ⟨q ++ r', st'⟩ := by
  have hlocal := hx.2 p
  rw [Local, wp_iff_of_ok h] at hlocal
  have hpos := List.length_pos_iff.2 hq
  obtain ⟨q', hq', hrun⟩ := hlocal (by simp only [List.length_append]; omega)
  obtain rfl := append_of_words hq'
  exact ok_of_wp hrun

variable (r r') in
/-- A steady run that takes a word. -/
structure Concludes (x : Reading Words α) : Prop where
  steady : Steady r r' x
  takes : Takes x fun u _ => u ≠ []

protected theorem Concludes.ite {c : Prop} [Decidable c] (hx : c → Concludes r r' x)
    (hy : ¬ c → Concludes r r' y) : Concludes r r' (if c then x else y) := by
  split
  · exact hx ‹_›
  · exact hy ‹_›

/-- While `f` is still to take a word, `x` has not come to `r`. -/
theorem Concludes.behind {P : List Lexeme → α → Prop}
    (hx : (Simulation.ahead r r' none none).rel Eq x x) (ht : Takes x P)
    (hf : ∀ a, Concludes r r' (f a)) : Concludes r r' (x >>= f) := by
  constructor
  · intro p q b h
    obtain ⟨a, w, hxa, hfa⟩ := ok_of_bind h
    obtain ⟨u, hu, rfl⟩ := (hf a).takes.origin hfa
    rw [← List.append_assoc] at hxa hfa
    have hne : u ++ q ≠ [] := by simp [hu]
    rw [bind_of_ok (ok_of_ahead hx hne hxa)]
    exact (hf a).steady (u ++ q) q b hfa
  · exact ht.bind fun u a _ => (hf a).takes.mono fun v _ hv => by simp [hv]

theorem SteadyFrom.next {l : Lexeme} (h : Steady r r' x) :
    SteadyFrom r r' l (do discard next; x) :=
  fun p => h p

theorem steady_of_expects {l : Lexeme} {c : Complaint} {x : Reading Words Unit}
    (hx : Expects l c x) (ht : Takes x fun u _ => u = [l]) : Steady r r' x := by
  intro p q a h
  obtain ⟨u, rfl, rfl⟩ := ht.split h
  exact ok_of_wp (hx.wp_cons_self ⟨rfl, rfl⟩)

theorem steady_skipMark (m : String) : Steady r r' (skipMark m) :=
  steady_of_expects (fun _ _ _ => wp_skipMark) (takes_skipMark m)

theorem concludes_skipMark (m : String) {a : α} : Concludes r r' (do skipMark m; return a) :=
  ⟨(steady_skipMark m).andReturn, (takes_skipMark m).bind fun u _ hu => .pure (by simp [hu])⟩

/-- A choice by the next word, which is taken if it is the keyword `k`. -/
theorem steady_ifKeyword {k : String} (hr : r.head? ≠ some (.keyword k))
    (hr' : r'.head? ≠ some (.keyword k)) (hx : Steady r r' x) (hy : Steady r r' y) :
    Steady r r' (do if ← atKeyword k then (do discard next; x) else y) := by
  have hother : ∀ ls : List Lexeme, ls.head? ≠ some (.keyword k) →
      (do if ← atKeyword k then (do discard next; x) else y) (⟨ls, none⟩ : Words) =
        y ⟨ls, none⟩ := by
    intro ls hls
    have htest : atKeyword k (⟨ls, none⟩ : Words) = .ok false ⟨ls, none⟩ :=
      ok_of_wp ((wp_atKeyword_of_ne hls).2 ⟨rfl, rfl⟩)
    rw [bind_of_ok htest]
    rfl
  intro p q a h
  cases p with
  | nil =>
    rw [List.nil_append, hother _ hr] at h
    rw [List.nil_append, hother _ hr']
    exact hy [] q a h
  | cons l p =>
    by_cases hl : l = .keyword k
    · subst hl
      have htest : ∀ ls : List Lexeme, atKeyword k (⟨.keyword k :: ls, none⟩ : Words) =
          .ok true ⟨.keyword k :: ls, none⟩ := fun ls => ok_of_wp (by simp)
      rw [List.cons_append, bind_of_ok (htest _)] at h ⊢
      exact hx p q a h
    · have hl' : ∀ ls : List Lexeme, (l :: ls).head? ≠ some (.keyword k) := by simpa using hl
      rw [List.cons_append, hother _ (hl' _)] at h ⊢
      exact hy (l :: p) q a h

theorem steady_atMark {m : String} (hr : r.head? ≠ some (.mark m))
    (hr' : r'.head? ≠ some (.mark m)) : Steady r r' (atMark m) := by
  have htest : ∀ ls : List Lexeme, atMark m (⟨ls, none⟩ : Words) =
      .ok (ls.head? = some (.mark m)) ⟨ls, none⟩ := by
    intro ls
    refine ok_of_wp ?_
    cases ls <;> simp
  intro p q a h
  rw [htest] at h ⊢
  obtain ⟨rfl, hw⟩ := EStateM.Result.ok.inj h
  obtain rfl := append_of_words hw
  cases p with
  | nil => simp only [List.nil_append, hr, hr']
  | cons l p => rfl

theorem steady_iterate {step : α → Reading Words (Option α)} (hprog : Progresses step)
    (hstep : ∀ a, Steady r r' (step a)) (n m : Nat) {p q : List Lexeme} {a b : α}
    (hn : (p ++ r).length < n) (hm : (p ++ r').length < m)
    (h : iterate step n a ⟨p ++ r, none⟩ = .ok b ⟨q ++ r, none⟩) :
    iterate step m a ⟨p ++ r', none⟩ = .ok b ⟨q ++ r', none⟩ := by
  induction n generalizing m p a with
  | zero => omega
  | succ n ih =>
    obtain _ | m := m
    · omega
    obtain ⟨o, w, ho, hrest⟩ := ok_of_bind h
    cases o with
    | none =>
      obtain ⟨rfl, rfl⟩ := EStateM.Result.ok.inj hrest
      rw [iterate, bind_of_ok (hstep a p q none ho)]
      rfl
    | some c =>
      obtain ⟨u, -, rfl⟩ := (hprog.takes_iterate n c).origin hrest
      rw [← List.append_assoc] at ho hrest
      obtain ⟨v, hv, rfl⟩ := (hprog a).split ho
      have hpos := List.length_pos_iff.2 (hv rfl)
      simp only [List.length_append] at hn hm
      rw [iterate, bind_of_ok (hstep a _ _ _ ho)]
      exact ih m (by simp only [List.length_append]; omega)
        (by simp only [List.length_append]; omega) hrest

theorem steady_loop {step : α → Reading Words (Option α)} (hprog : Progresses step)
    (hstep : ∀ a, Steady r r' (step a)) (a : α) : Steady r r' (loop step a) := by
  intro p q b h
  exact steady_iterate hprog hstep _ _ (Nat.lt_succ_self _) (Nat.lt_succ_self _) h

theorem steady_delimited (start stop sep : String) {item : Reading Words α}
    (h : (Simulation.ahead r r' none none).rel Eq item item)
    (hitem : Takes item fun u _ => u ≠ []) : Steady r r' (delimited start stop sep item) := by
  have hitems : Concludes r r' (do
      let items ← loop (nextItem stop sep item) []
      skipMark stop
      return items.reverse) :=
    .behind (Simulation.items _ h hitem) ((progresses_nextItem stop sep hitem).takes_loop [])
      fun items => concludes_skipMark stop
  exact (Concludes.behind (Simulation.skipMark _ start) (takes_skipMark start)
    fun _ => hitems).steady

end

/-! ### Productions -/

section
variable {r r' : List Lexeme} {d : Nat}

/-- The place of the operator matters only where it is refused. -/
theorem ok_of_join {t t' : Token} {op : String} {left right e : Expr} {w w' : Words}
    (h : join d t op left right w = .ok e w') : join d t' op left right w = .ok e w' := by
  unfold join at h ⊢
  split at h
  · rename_i hop
    rw [if_pos hop]
    cases left with
    | name n => exact h
    | _ =>
      simp only [refuse] at h
      split at h <;> cases h
  · rename_i hop
    rw [if_neg hop]
    exact h

theorem nextOperation_of_binds {x : Reading Words Expr} {f : Nat → Expr → Reading Words Expr}
    {bound n : Nat} {left : Expr} {op : String} (hop : precedence op = some n) (hn : bound < n)
    (ls : List Lexeme) : nextOperation d x f bound left ⟨.operator op :: ls, none⟩ =
      (do let operand ← x
          let right ← f (rightBound op n) operand
          return some (← join d ⟨.operator op, ls.length + 1, 0⟩ op left right))
        (⟨ls, none⟩ : Words) := by
  have hpeek : operator? none (⟨.operator op :: ls, none⟩ : Words) =
      .ok (some ⟨.operator op, ls.length + 1, 0⟩) ⟨.operator op :: ls, none⟩ := rfl
  rw [nextOperation, bind_of_ok hpeek]
  simp only [Lexeme.value, hop, if_neg (Nat.not_le.2 hn)]
  rfl

theorem ok_of_operation {x : Reading Words Expr} {f : Expr → Reading Words Expr} {left : Expr}
    {op : String} {t t' : Token} {w w' : Words} {o : Option Expr}
    (h : (do let right ← f (← x); return some (← join d t op left right)) w = .ok o w') :
    (do let right ← f (← x); return some (← join d t' op left right)) w = .ok o w' := by
  obtain ⟨operand, w₁, hx, h⟩ := ok_of_bind h
  obtain ⟨right, w₂, hf, h⟩ := ok_of_bind h
  obtain ⟨e, w₃, he, h⟩ := ok_of_bind h
  rw [bind_of_ok hx, bind_of_ok hf, bind_of_ok (ok_of_join he)]
  exact h

theorem steady_join {t : Token} {op : String} {left right : Expr} :
    Steady r r' (join d t op left right) := by
  unfold join
  refine .ite (fun _ => ?_) fun _ => steady_pure _
  split
  · exact steady_pure _
  · exact .ite (fun _ _ _ _ h => by cases h) fun _ => steady_throw _

theorem takes_join_nil {t : Token} {op : String} {left right : Expr} :
    Takes (join d t op left right) fun u _ => u = [] := by
  unfold join
  refine .ite (fun _ => ?_) fun _ => .pure rfl
  split
  · exact .pure rfl
  · exact .ite (fun _ => .fail _ _) fun _ => .throw _

variable (r r') in
/-- The productions that nest to depth `d` are steady. -/
structure Settled (d : Nat) : Prop where
  expression : Steady r r' (expression d)
  atom : Steady r r' (atom d)
  primary : Steady r r' (primary d)
  block : Steady r r' (block d)
  conditional : Steady r r' (conditional d)
  function : Steady r r' (function d)
  arguments : ∀ callee, Steady r r' (arguments d callee)
  calls : ∀ callee, Steady r r' (calls d callee)
  climb : ∀ bound left, Steady r r' (climb d bound left)

namespace Settled

theorem expression_succ (h : Settled r r' d) : Steady r r' (Grammar.expression (d + 1)) := by
  unfold Grammar.expression
  refine h.atom.bind (fun left => ?_) fun left =>
    ((sound d).climb 0 left).bind (Q := fun _ _ => True) fun _ e _ =>
      ((sound d).calls e).mono fun _ _ _ => trivial
  exact (h.climb 0 left).bind (fun e => h.calls e) fun e => (sound d).calls e

theorem atom_succ (h : Settled r r' d) : Steady r r' (Grammar.atom (d + 1)) := by
  unfold Grammar.atom
  exact h.primary.bind (fun e => h.calls e) fun e => (sound d).calls e

theorem steadyFrom_primary (h : Settled r r' d) (l : Lexeme) :
    SteadyFrom r r' l (Grammar.primary (d + 1)) := by
  intro p q a hrun
  have hpeek : ∀ ls : List Lexeme, peek (⟨l :: ls, none⟩ : Words) =
      .ok (some ⟨l, ls.length + 1, 0⟩) ⟨l :: ls, none⟩ := fun _ => rfl
  unfold Grammar.primary at hrun ⊢
  rw [List.cons_append, bind_of_ok (hpeek _)] at hrun ⊢
  simp only [Option.map_some] at hrun ⊢
  generalize heq : some l = first at hrun ⊢
  split at hrun
  · cases heq
    have hgroup := Concludes.behind (ahead_expression r r' none none d)
      (takes_expression_ne_nil d) fun e => concludes_skipMark ")" (a := e)
    exact SteadyFrom.next hgroup.steady p q a hrun
  · cases heq
    exact h.block.from _ p q a hrun
  · cases heq
    exact h.conditional.from _ p q a hrun
  · cases heq
    exact SteadyFrom.next (steady_pure _) p q a hrun
  · cases heq
    exact SteadyFrom.next (steady_pure _) p q a hrun
  · cases heq
    exact SteadyFrom.next h.function p q a hrun
  · cases heq
    exact SteadyFrom.next h.function p q a hrun
  · cases heq
    exact SteadyFrom.next (steady_pure _) p q a hrun
  · cases heq
    exact SteadyFrom.next (steady_pure _) p q a hrun
  · cases heq
    exact SteadyFrom.next (steady_pure _) p q a hrun
  · cases hrun

theorem primary_succ (h : Settled r r' d) : Steady r r' (Grammar.primary (d + 1)) := by
  intro p q a hrun
  obtain ⟨u, hu, rfl⟩ := (sound (d + 1)).primary.split hrun
  obtain ⟨l, u, rfl⟩ := List.exists_cons_of_ne_nil hu.derives.ne_nil
  exact h.steadyFrom_primary l (u ++ q) q a hrun

theorem steady_expressions (start stop sep : String) :
    Steady r r' (delimited start stop sep (Grammar.expression d)) :=
  steady_delimited start stop sep (ahead_expression _ _ _ _ d) (takes_expression_ne_nil d)

theorem block_succ : Steady r r' (Grammar.block (d + 2)) := by
  unfold Grammar.block
  exact (steady_expressions _ _ _).andReturn

theorem arguments_succ (callee : Expr) : Steady r r' (Grammar.arguments (d + 2) callee) := by
  unfold Grammar.arguments
  exact (steady_expressions _ _ _).andReturn

theorem function_succ (h : Settled r r' d) : Steady r r' (Grammar.function (d + 1)) := by
  unfold Grammar.function
  have hname : Takes Grammar.variableName fun u _ => u ≠ [] :=
    takes_variableName.mono fun _ _ h => by simp [h]
  refine (steady_delimited _ _ _ (Simulation.variableName _) hname).bind
    (P := fun _ _ _ => True) (fun params => h.expression.andReturn) fun params => ?_
  exact (takes_expression_ne_nil d).bind fun _ _ _ => .pure trivial

/-- The branches of a conditional. -/
theorem concludes_branches (h : Settled r r' d) (hr : Ends true r) (hr' : Ends true r')
    (test : Expr) : Concludes r r' (do
      let yes ← Grammar.expression d
      if ← Grammar.atKeyword "else" then
        discard TokenSource.next
        return Expr.cond test yes (some (← Grammar.expression d))
      return Expr.cond test yes none) := by
  have hno : ∀ {ls : List Lexeme}, Ends true ls → ls.head? ≠ some (.keyword "else") :=
    fun hls hhead => (hls _ hhead).2.2 rfl rfl
  have htakes : ∀ yes : Expr, Takes (do
      if ← Grammar.atKeyword "else" then
        discard TokenSource.next
        return Expr.cond test yes (some (← Grammar.expression d))
      return Expr.cond test yes none) fun _ _ => True := by
    intro yes
    refine takes_ifKeyword ?_ (.pure trivial)
    exact (takes_expression_ne_nil d).bind fun _ _ _ => .pure trivial
  constructor
  · refine h.expression.bind (fun yes => ?_) htakes
    exact steady_ifKeyword (hno hr) (hno hr') h.expression.andReturn (steady_pure _)
  · refine (takes_expression_ne_nil d).bind fun u yes hu => ?_
    exact (htakes yes).mono fun v _ _ => by simp [hu]

theorem conditional_succ (h : Settled r r' d) (hr : Ends true r) (hr' : Ends true r') :
    Steady r r' (Grammar.conditional (d + 1)) := by
  unfold Grammar.conditional
  have hbranches := h.concludes_branches hr hr'
  refine (Concludes.behind (Simulation.skipKeyword _ "if") (takes_skipKeyword _) fun _ => ?_).steady
  refine .behind (ahead_expression _ _ _ _ d) (takes_expression_ne_nil d) fun test => ?_
  refine .behind (Comparison.atMark _ "\x7b") (takes_atMark _) fun b => ?_
  refine .ite (fun _ => hbranches test) fun _ => ?_
  exact .behind (Simulation.skipKeyword _ "then") (takes_skipKeyword _) fun _ => hbranches test

theorem calls_succ (h : Settled r r' d) (hr : Ends true r) (hr' : Ends true r') (callee : Expr) :
    Steady r r' (Grammar.calls (d + 1) callee) := by
  refine steady_loop (progresses_nextCall d) (fun f => ?_) callee
  refine (steady_atMark hr.not_call hr'.not_call).bind (P := fun _ _ _ => True) (fun b => ?_)
    fun b => ?_
  · exact .ite (fun _ => (h.arguments f).andReturn) fun _ => steady_pure none
  · refine .ite (fun _ => ?_) fun _ => .pure trivial
    exact ((sound d).arguments f).bind fun _ _ _ => .pure trivial

theorem steady_operation (h : Settled r r' d) {bound : Nat} {t : Token} {op : String}
    {left : Expr} : Steady r r' (do
      let operand ← Grammar.atom d
      let right ← Grammar.climb d bound operand
      return some (← Grammar.join d t op left right)) := by
  have hjoin : ∀ right : Expr, Takes (do return some (← Grammar.join d t op left right))
      fun _ _ => True := fun right => takes_join_nil.bind fun _ _ _ => .pure trivial
  refine h.atom.bind (P := fun _ _ _ => True) (fun operand => ?_) fun operand => ?_
  · exact (h.climb bound operand).bind (fun right => steady_join.andReturn) hjoin
  · exact ((sound d).climb bound operand).bind fun _ right _ => hjoin right

theorem climb_succ (h : Settled r r' d) (hr : Ends true r) (hr' : Ends true r') (bound : Nat)
    (left : Expr) : Steady r r' (Grammar.climb (d + 1) bound left) := by
  refine steady_loop (progresses_nextOperation d bound) (fun left => ?_) left
  intro p q o hrun
  -- where no operator goes on, nothing is taken on either side
  have hstop (hp : ∀ l ∈ (p ++ r).head?, ¬ Binds bound l)
      (hp' : ∀ l ∈ (p ++ r').head?, ¬ Binds bound l) :
      nextOperation d (Grammar.atom d) (Grammar.climb d) bound left (⟨p ++ r', none⟩ : Words) =
        .ok o (⟨q ++ r', none⟩ : Words) := by
    rw [nextOperation_of_not_binds hp] at hrun
    obtain ⟨rfl, hw⟩ := EStateM.Result.ok.inj hrun
    rw [nextOperation_of_not_binds hp', append_of_words hw]
  cases p with
  | nil => exact hstop (hr.not_binds bound) (hr'.not_binds bound)
  | cons l p =>
    by_cases hl : Binds bound l
    · obtain ⟨op, n, rfl, hop, hlt⟩ := hl
      rw [List.cons_append, nextOperation_of_binds hop hlt] at hrun ⊢
      exact ok_of_operation (h.steady_operation p q o hrun)
    · exact hstop (by simpa using hl) (by simpa using hl)

end Settled

theorem steady (hr : Ends true r) (hr' : Ends true r') (d : Nat) : Settled r r' d := by
  induction d using Nat.strongRecOn with
  | ind d ih =>
    match d with
    | 0 =>
      exact ⟨steady_throw _, steady_throw _, steady_throw _, steady_throw _, steady_throw _,
        steady_throw _, fun _ => steady_throw _, fun _ => steady_throw _, fun _ _ => steady_throw _⟩
    | 1 =>
      have h := ih 0 (by omega)
      exact ⟨h.expression_succ, h.atom_succ, h.primary_succ, steady_throw _,
        h.conditional_succ hr hr', h.function_succ, fun _ => steady_throw _, h.calls_succ hr hr',
        h.climb_succ hr hr'⟩
    | d + 2 =>
      have h := ih (d + 1) (by omega)
      exact ⟨h.expression_succ, h.atom_succ, h.primary_succ, Settled.block_succ,
        h.conditional_succ hr hr', h.function_succ, Settled.arguments_succ, h.calls_succ hr hr',
        h.climb_succ hr hr'⟩

end

/-- What follows an expression may end in a stray character, but not begin with one: reading looks
one word ahead. -/
theorem Words.expression_append {d : Nat} {u r : List Lexeme} {st : Option Char} {x : Expr}
    (h : expression d (⟨u, none⟩ : Words) = .ok x ⟨[], none⟩) (hr : Ends true r)
    (hst : r = [] → st = none) : expression d (⟨u ++ r, st⟩ : Words) = .ok x ⟨r, st⟩ := by
  have hplain : expression d (⟨u ++ r, none⟩ : Words) = .ok x ⟨r, none⟩ :=
    (steady .nil hr d).expression u [] x (by simpa using h)
  cases r with
  | nil =>
    rw [hst rfl]
    exact hplain
  | cons l r =>
    have hahead : expression d (⟨(u ++ [l]) ++ r, none⟩ : Words) = .ok x ⟨[l] ++ r, none⟩ := by
      simpa using hplain
    have hrun : expression d (⟨(u ++ [l]) ++ r, st⟩ : Words) = .ok x ⟨[l] ++ r, st⟩ :=
      ok_of_ahead (ahead_expression _ _ _ _ d) (by simp) hahead
    simpa using hrun

/-- If an expression takes all tokens up to the end of a text, then in front of other tokens the
same words are the same expression, and those tokens are left, unless the first of them can belong
to an expression. -/
theorem expression_ends_before_rest (d : Nat) {s s₁ s' : TokenStream} {ts us rest : List Token}
    {e e' : TextEnd} {x : Expr} (hs : Holds s ts e) (he : e.stray = none)
    (hx : expression d s = .ok x s₁) (hall : Holds s₁ [] e) (hs' : Holds s' (us ++ rest) e')
    (hus : us.map Token.lexeme = ts.map Token.lexeme) (hrest : Ends true (rest.map Token.lexeme))
    (he' : rest = [] → e'.stray = none) :
    ∃ s₂, expression d s' = .ok x s₂ ∧ Holds s₂ rest e' := by
  obtain ⟨ts₁, hs₁, hwords⟩ :=
    (alike_expression ts e d ts).words_of_ok hs hx
  obtain ⟨rfl, -⟩ := hs₁.unique hall
  have hended : expression d (⟨ts.map Token.lexeme, none⟩ : Words) = .ok x ⟨[], none⟩ := by
    simpa only [Words.ofTokens, he, List.map_nil] using hwords
  have hgoes : expression d (Words.ofTokens (us ++ rest) e') = .ok x (Words.ofTokens rest e') := by
    rw [Words.ofTokens, List.map_append, hus]
    exact Words.expression_append hended hrest fun hnil => he' (List.map_eq_nil_iff.1 hnil)
  obtain ⟨s₂, ts₂, hx', hsuffix, hs₂, hleft⟩ :=
    (alike_expression (us ++ rest) e' d (us ++ rest)).ok_of_words hs' hgoes
  -- of the tokens in front of the end, as many are left as `rest` has
  have hlen : ts₂.length = rest.length := by
    simpa [Words.ofTokens] using congrArg (fun w : Words => w.left.length) hleft.symm
  obtain rfl : ts₂ = rest :=
    (List.suffix_of_suffix_length_le hsuffix (List.suffix_append us rest)
      (Nat.le_of_eq hlen)).eq_of_length hlen
  exact ⟨s₂, hx', hs₂⟩

/-- Whether an expression is all that a text holds. -/
def isExpression (d : Nat) (text : String) : Bool :=
  match expression d (TokenStream.ofText text) with
  | .ok _ s => s.size == 0
  | .error _ _ => false

theorem exists_of_isExpression {d : Nat} {text : String} (h : isExpression d text) {ts : List Token}
    {e : TextEnd} (hs : Holds (.ofText text) ts e) :
    ∃ x s, expression d (TokenStream.ofText text) = .ok x s ∧ Holds s [] e := by
  unfold isExpression at h
  cases hx : expression d (TokenStream.ofText text) with
  | error err s =>
    rw [hx] at h
    cases h
  | ok x s =>
    rw [hx] at h
    obtain ⟨ts', hs', -⟩ :=
      (alike_expression ts e d ts).words_of_ok hs hx
    have hsize : size s = 0 := beq_iff_eq.1 h
    have hlen := hs'.length_le_size
    rw [hsize, Nat.le_zero, List.length_eq_zero_iff] at hlen
    subst hlen
    exact ⟨x, s, rfl, hs'⟩

/-- A conditional without `else` that ends in a call, in front of a name. -/
theorem expression_ends_before_rest_dangling : ∃ x s₁ s₂ e e' t,
    expression 60 (TokenStream.ofText "if a then f(b)") = .ok x s₁ ∧ Holds s₁ [] e ∧
    t.lexeme = .name "c" ∧
    expression 60 (TokenStream.ofText "if a then f(b) c") = .ok x s₂ ∧ Holds s₂ [t] e' := by
  let us : List Token := [⟨.keyword "if", 1, 2⟩, ⟨.name "a", 1, 4⟩, ⟨.keyword "then", 1, 9⟩,
    ⟨.name "f", 1, 11⟩, ⟨.mark "(", 1, 12⟩, ⟨.name "b", 1, 13⟩, ⟨.mark ")", 1, 14⟩]
  let t : Token := ⟨.name "c", 1, 16⟩
  have hshort : (tokenize "if a then f(b)").toOption = some us := by decide +kernel
  have hlong : (tokenize "if a then f(b) c").toOption = some (us ++ [t]) := by decide +kernel
  obtain ⟨e, hs, he⟩ := Holds.of_tokenize (ok_of_toOption hshort)
  obtain ⟨e', hs', he'⟩ := Holds.of_tokenize (ok_of_toOption hlong)
  obtain ⟨x, s₁, hx, hall⟩ := exists_of_isExpression (d := 60) (by decide +kernel) hs
  have hends : Ends true ([t].map Token.lexeme) := by
    rintro l ⟨⟩
    exact ⟨by decide, by rintro op ⟨⟩, by rintro - ⟨⟩⟩
  obtain ⟨s₂, hx', hs₂⟩ := expression_ends_before_rest 60 hs he hx hall hs' rfl hends nofun
  exact ⟨x, s₁, s₂, e, e', t, hx, hall, rfl, hx', hs₂⟩

end ExprLang
