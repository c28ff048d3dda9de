import ExprLang.Proofs.Output
import ExprLang.Proofs.Similar

/-!
# More depth only goes on

With more depth, a computation does what it did with less, and goes on where that one stopped for
want of depth. Nothing that the productions or evaluation do recovers from want of depth, so this
goes through every step of either. Of reading it is a comparison of the productions (`deeper`); of
evaluation `CutShort x y` says it for `x`, which has less depth, and `y`, which has more: they end
alike, unless `x` stops too deep, and then `y` has come by the output that `x` stopped with. The
induction is on the lesser depth.
-/

namespace ExprLang
open TokenSource Grammar

/-- Computations over words that end alike, unless the first stops too deep. -/
def Outlasts {α β : Type} (V : α → β → Prop) (x : Reading Words α) (y : Reading Words β) : Prop :=
  ∀ w, wp x (fun a w' => ∃ b, V a b ∧ y w = .ok b w')
    (fun err w' => err = .tooDeep ∨ y w = .error err w') w

namespace Outlasts
variable {α β α' β' : Type} {V : α → β → Prop} {V' : α' → β' → Prop} {x : Reading Words α}
  {y : Reading Words β}

theorem refl {V : α → α → Prop} (hV : ∀ a, V a a) (x : Reading Words α) : Outlasts V x x := by
  intro w
  cases hx : x w with
  | ok a w' => exact (wp_iff_of_ok hx).2 ⟨a, hV a, rfl⟩
  | error err w' => exact (wp_iff_of_error hx).2 (.inr rfl)

theorem bind {f : α → Reading Words α'} {g : β → Reading Words β'} (h : Outlasts V x y)
    (hf : ∀ a b, V a b → Outlasts V' (f a) (g b)) : Outlasts V' (x >>= f) (y >>= g) := by
  intro w
  have hw := h w
  cases hx : x w with
  | ok a w' =>
    obtain ⟨b, hab, hy⟩ := (wp_iff_of_ok hx).1 hw
    rw [wp, bind_of_ok hx, bind_of_ok hy]
    exact hf a b hab w'
  | error err w' =>
    rw [wp_iff_of_error (bind_of_error hx)]
    exact ((wp_iff_of_error hx).1 hw).imp_right bind_of_error

theorem loop {step step' : α → Reading Words (Option α)}
    (h : ∀ a, Outlasts Eq (step a) (step' a)) (a : α) :
    Outlasts Eq (loop step a) (loop step' a) := by
  have hiterate : ∀ n a, Outlasts Eq (iterate step n a) (iterate step' n a) := by
    intro n
    induction n with
    | zero => exact fun a => refl (fun _ => rfl) _
    | succ n ih =>
      intro a
      refine (h a).bind fun o o' ho => ?_
      subst ho
      cases o with
      | none => exact refl (fun _ => rfl) _
      | some b => exact ih b
  exact fun w => hiterate (size w + 1) a w

end Outlasts

def deeper : Stepwise Words where
  rel := Outlasts
  token := Eq
  lexeme := @lexeme_of_eq
  depths d d' := d ≤ d'
  depths_le h := h
  depths_pred := Nat.le_of_succ_le_succ
  pure h _ := ⟨_, h, rfl⟩
  bind := .bind
  tooDeep _ _ _ := .inl rfl
  peek := .refl (optionRel_refl fun _ => rfl) _
  next := .refl (optionRel_refl fun _ => rfl) _
  loop a h _ := .loop h a
  fail _ _ _ h _ := by
    cases h with
    | none => exact .inr rfl
    | some h =>
      subst h
      exact .inr rfl

theorem Words.parse_of_more_depth {d d' : Nat} (h : d ≤ d') {w : Words}
    (hdeep : w.parse d ≠ .error .tooDeep) : w.parse d' = w.parse d := by
  have hw := deeper.simulation.program h w
  unfold Words.parse at hdeep ⊢
  cases hx : (program d : Reading Words Expr) w with
  | ok tree w' =>
    obtain ⟨_, rfl, hy⟩ := (wp_iff_of_ok hx).1 hw
    rw [hy]
  | error err w' =>
    rcases (wp_iff_of_error hx).1 hw with rfl | hy
    · rw [hx] at hdeep
      exact absurd rfl hdeep
    · rw [hy]

theorem parse_of_more_depth {d d' : Nat} (h : d ≤ d') (text : String)
    (hdeep : parse d text ≠ .error .tooDeep) : parse d' text = parse d text := by
  obtain ⟨ts, e, hs⟩ := Holds.exists_of_lookahead (.ofText text) rfl
  rw [hs.parse_eq] at hdeep ⊢
  rw [hs.parse_eq, Words.parse_of_more_depth h]
  intro hwords
  rw [hwords] at hdeep
  exact hdeep rfl

/-! ### Evaluation -/

section
variable {α β : Type}

structure CutShort (x y : Eval α) : Prop where
  later : ∀ st : Store, st.Continued (leaves y st)
  stops : ∀ st, (∃ st', x st = .error .tooDeep st' ∧ st'.Continued (leaves y st)) ∨ y st = x st

namespace CutShort
variable {x y x' y' : Eval α} {f g : α → Eval β}

theorem refl (h : ∀ st : Store, st.Continued (leaves x st)) : CutShort x x :=
  ⟨h, fun _ => .inr rfl⟩

theorem pure (a : α) : CutShort (pure a : Eval α) (pure a) := refl .refl

theorem throw (e : Stop EvalError) : CutShort (throw e : Eval α) (throw e) := refl .refl

/-- Where there is no depth at all, nothing was done. -/
theorem tooDeep (h : ∀ st : Store, st.Continued (leaves y st)) :
    CutShort (MonadExcept.throw .tooDeep) y :=
  ⟨h, fun st => .inl ⟨st, rfl, h st⟩⟩

/-- What goes on from `y` comes by the store that `y` leaves. -/
theorem later_bind (hg : ∀ a (st : Store), st.Continued (leaves (g a) st)) (st : Store) :
    (leaves y st).Continued (leaves (y >>= g) st) := by
  cases hy : y st with
  | ok a st' =>
    rw [leaves_of_ok hy, leaves_bind_of_ok hy]
    exact hg a st'
  | error e st' =>
    rw [leaves_of_error hy, leaves_bind_of_error hy]
    exact .refl st'

theorem bind (h : CutShort x y) (hf : ∀ a, CutShort (f a) (g a)) :
    CutShort (x >>= f) (y >>= g) := by
  have hrest : ∀ st, (leaves y st).Continued (leaves (y >>= g) st) :=
    later_bind fun a => (hf a).later
  refine ⟨fun st => (h.later st).trans (hrest st), fun st => ?_⟩
  rcases h.stops st with ⟨st', hx, hst'⟩ | hxy
  · exact .inl ⟨st', bind_of_error hx, hst'.trans (hrest st)⟩
  cases hx : x st with
  | ok a st' =>
    have hy : y st = .ok a st' := hxy.trans hx
    rw [bind_of_ok hx, bind_of_ok hy, leaves_bind_of_ok hy]
    exact (hf a).stops st'
  | error e st' => exact .inr ((bind_of_error (hxy.trans hx)).trans (bind_of_error hx).symm)

theorem ite {c : Prop} [Decidable c] (h : CutShort x y) (h' : CutShort x' y') :
    CutShort (if c then x else x') (if c then y else y') := by
  split
  · exact h
  · exact h'

theorem refuse {d d' : Nat} (hd : d ≤ d') (target : Expr) :
    CutShort (Eval.refuse d target : Eval α) (Eval.refuse d' target) := by
  unfold Eval.refuse
  by_cases hn : target.nesting ≤ d
  · rw [if_pos hn, if_pos (Nat.le_trans hn hd)]
    exact throw _
  · rw [if_neg hn]
    refine tooDeep fun st => ?_
    split <;> exact .refl st

theorem mapM {as : List α} (h : ∀ a, CutShort (f a) (g a)) :
    CutShort (as.mapM f) (as.mapM g) := by
  induction as with
  | nil => exact pure []
  | cons a as ih =>
    rw [List.mapM_cons, List.mapM_cons]
    exact (h a).bind fun b => ih.bind fun bs => pure (b :: bs)

theorem foldlM {f g : β → α → Eval β} {as : List α} (h : ∀ b a, CutShort (f b a) (g b a)) (b : β) :
    CutShort (as.foldlM f b) (as.foldlM g b) := by
  induction as generalizing b with
  | nil => exact pure b
  | cons a as ih =>
    rw [List.foldlM_cons, List.foldlM_cons]
    exact (h b a).bind ih

end CutShort

end

theorem continued_assign (s : ScopeId) (n : String) (v : Value) (st : Store) :
    st.Continued (leaves (Eval.assign s n v) st) := by
  have hsame : ∀ {st' : Store}, st'.output = st.output → st.Continued st' :=
    fun h => ⟨[], by simp [h]⟩
  exact of_wp_leaves (wp_assign (fun _ _ => hsame rfl) fun _ => hsame rfl)

theorem continued_ofExcept {α : Type} (r : Except EvalError α) (st : Store) :
    st.Continued (leaves (Eval.ofExcept r) st) := by
  cases r <;> exact .refl st

section
variable {host : Host} (hhost : host.KeepsOutput)
include hhost

theorem cutShort_callWith {body body' : Expr → ScopeId → Eval Value}
    (h : ∀ e s, CutShort (body e s) (body' e s)) (f : Value) (args : List Value) :
    CutShort (Eval.callWith host body f args) (Eval.callWith host body' f args) := by
  cases f with
  | closure i params e scope =>
    have henter : ∀ st : Store, st.Continued (leaves (Eval.enter scope params args) st) :=
      fun st => (Store.Continued.refl st).enter _ _ _ _
    exact (CutShort.refl henter).bind (h e)
  | native i f => exact .refl (hhost f args)
  | number | text | truth => exact .throw _

theorem cutShort_evaluate {d d' : Nat} (h : d ≤ d') (e : Expr) (s : ScopeId) :
    CutShort (evaluate host d e s) (evaluate host d' e s) := by
  induction d using Nat.strongRecOn generalizing d' e s with
  | ind d ih =>
  match d, d' with
  | 0, d' | 1, d' => exact .tooDeep (continued_evaluate hhost d' e s)
  | d + 2, d' + 2 =>
    have hle : d ≤ d' := by omega
    have hd : ∀ e s, CutShort (evaluate host d e s) (evaluate host d' e s) := ih d (by omega) hle
    cases e with
    | number | text | truth | name | lambda | alien =>
      exact .refl (continued_evaluate hhost (d + 2) _ s)
    | call callee args =>
      rw [evaluate_call, evaluate_call]
      refine (hd callee s).bind fun f => (CutShort.mapM fun a => hd a s).bind fun vs => ?_
      exact cutShort_callWith hhost (ih (d - 1) (by omega) (by omega)) f vs
    | cond test yes no =>
      show CutShort (evaluate host d test s >>= _) (evaluate host d' test s >>= _)
      refine (hd test s).bind fun v => .ite (hd yes s) ?_
      cases no with
      | none => exact .pure _
      | some e => exact hd e s
    | assign target value =>
      by_cases htarget : ∃ n, target = .name n
      · obtain ⟨n, rfl⟩ := htarget
        rw [evaluate, evaluate]
        exact (hd value s).bind fun v => .refl (continued_assign s n v)
      · have hne := not_exists.1 htarget
        rw [evaluate_assign_of_ne hne, evaluate_assign_of_ne hne]
        exact .refuse hle target
    | binary op left right =>
      rw [evaluate, evaluate]
      exact (hd left s).bind fun a => (hd right s).bind fun b => .refl (continued_ofExcept _)
    | block items =>
      rw [evaluate, evaluate]
      exact .foldlM (fun _ e => hd e s) _

end

/-- An evaluation that has depth enough comes to the same value or error and leaves the same store
when it has more, and so does the reading of a text. An evaluation that runs out of depth has
written nothing but what it also writes, before anything else, when it has more. -/
theorem more_depth_only_goes_on (host : Host) (hhost : host.KeepsOutput) {l l' : Nat} (h : l ≤ l') :
    (∀ e s st, (∀ st', evaluate host l e s st ≠ .error .tooDeep st') →
      evaluate host l' e s st = evaluate host l e s st) ∧
    (∀ e s st st', evaluate host l e s st = .error .tooDeep st' →
      st'.output.toList <+: (leaves (evaluate host l' e s) st).output.toList) ∧
    (∀ text, parse l text ≠ .error .tooDeep → parse l' text = parse l text) := by
  refine ⟨fun e s st hne => ?_, fun e s st st' hdeep => ?_, fun text => parse_of_more_depth h text⟩
  · rcases (cutShort_evaluate hhost h e s).stops st with ⟨st', hst', -⟩ | hsame
    · exact absurd hst' (hne st')
    · exact hsame
  · rcases (cutShort_evaluate hhost h e s).stops st with ⟨st₁, hst₁, hcontinued⟩ | hsame
    · rw [hdeep] at hst₁
      cases hst₁
      exact hcontinued.isPrefix
    · have hleaves := leaves_of_error (hsame.trans hdeep)
      exact hleaves.symm ▸ List.prefix_rfl

/-- `print("a"); print(print("b"))` -/
def printsInside : Expr :=
  .block [.call (.name "print") [.text "a"],
    .call (.name "print") [.call (.name "print") [.text "b"]]]

/-- Six levels are enough for the first call and not for the second, eight are enough for both. -/
theorem more_depth_only_goes_on_print :
    (∃ st, evaluate .builtins 6 printsInside Store.root .initial = .error .tooDeep st ∧
      st.output = #[⟨.program, "a\n"⟩] ∧
      st.output.toList <+:
        (leaves (evaluate .builtins 8 printsInside Store.root) .initial).output.toList) ∧
    (∃ v st, evaluate .builtins 8 printsInside Store.root .initial = .ok v st ∧
      evaluate .builtins 50 printsInside Store.root .initial = .ok v st) ∧
    parse 50 "print(\"a\"); print(print(\"b\"))" =
      parse 20 "print(\"a\"); print(print(\"b\"))" := by
  have hsix : ∃ st, evaluate .builtins 6 printsInside Store.root .initial = .error .tooDeep st ∧
      st.output = #[⟨.program, "a\n"⟩] := ⟨_, rfl, by decide +kernel⟩
  have height : ∃ v st, evaluate .builtins 8 printsInside Store.root .initial = .ok v st :=
    ⟨_, _, rfl⟩
  have hparse : (parse 20 "print(\"a\"); print(print(\"b\"))").isOk := by decide +kernel
  have hmore := @more_depth_only_goes_on .builtins Host.keepsOutput_builtins
  refine ⟨?_, ?_, (hmore (by decide)).2.2 _ fun hdeep => ?_⟩
  · obtain ⟨st, hst, houtput⟩ := hsix
    exact ⟨st, hst, houtput, (hmore (by decide)).2.1 _ _ _ _ hst⟩
  · obtain ⟨v, st, hst⟩ := height
    refine ⟨v, st, hst, ?_⟩
    rw [← hst]
    exact (hmore (by decide)).1 _ _ _ (by simp [hst])
  · rw [hdeep] at hparse
    cases hparse

end ExprLang
