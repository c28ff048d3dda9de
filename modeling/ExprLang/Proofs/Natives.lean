import ExprLang.Eval
import ExprLang.Proofs.Outcome

/-!
# What may be assumed of native functions

Evaluation leaves it to the host what a native function does. The assumptions that results about
scopes need of a host are named here: that a call touches no scope (`Host.KeepsScopes`), and that it
answers one of its arguments or false (`Host.AnswersArguments`). `print` satisfies both.
-/

namespace ExprLang

/-- The scope that a closure was made in is a scope of the store. -/
def Value.LivesIn (st : Store) : Value → Prop
  | .closure _ _ _ scope => scope < st.scopes.size
  | _ => True

namespace Host

/-- However a call ends, the scopes are as they were; and no closure comes of it that was made
elsewhere. -/
structure KeepsScopes (host : Host) : Prop where
  scopes : ∀ f args st, (leaves (host f args) st).scopes = st.scopes
  answer : ∀ ⦃f args v⦄ ⦃st st' : Store⦄, host f args st = .ok v st' → v ∈ args ∨ v.LivesIn st

def AnswersArguments (host : Host) : Prop :=
  ∀ ⦃f args v⦄ ⦃st st' : Store⦄, host f args st = .ok v st' → v ∈ args ∨ v = .nothing

/-- Some call of a native function fails with the error. -/
def Raises (host : Host) (e : EvalError) : Prop :=
  ∃ f args, ∃ st st' : Store, host f args st = .error (.error e) st'

theorem KeepsScopes.wp {host : Host} (h : host.KeepsScopes) (f : Native) (args : List Value)
    (st : Store) : wp (host f args)
      (fun v st' => (v ∈ args ∨ v.LivesIn st) ∧ st'.scopes = st.scopes)
      (fun _ st' => st'.scopes = st.scopes) st := by
  have hscopes := h.scopes f args st
  cases hr : host f args st with
  | ok v st' =>
    rw [leaves_of_ok hr] at hscopes
    exact (wp_iff_of_ok hr).2 ⟨h.answer hr, hscopes⟩
  | error e st' =>
    rw [leaves_of_error hr] at hscopes
    exact (wp_iff_of_error hr).2 hscopes

/-- Answers that are arguments, or false, bring no closure along. -/
theorem AnswersArguments.keepsScopes {host : Host} (h : host.AnswersArguments)
    (hscopes : ∀ f args st, (leaves (host f args) st).scopes = st.scopes) : host.KeepsScopes where
  scopes := hscopes
  answer f args v st st' hr := by
    rcases h hr with hv | rfl
    · exact .inl hv
    · exact .inr trivial

theorem wp_print (args : List Value) (st : Store) : wp (Eval.print args)
    (fun v st' => v = .nothing ∧ ∃ t, st' = st.write .program t)
    (fun e st' => (∃ o, Eval.displayAll args = .error o ∧ e = .error (.overflow o)) ∧ st' = st)
    st := by
  rw [Eval.print]
  cases Eval.displayAll args with
  | ok shown => exact ⟨rfl, _, rfl⟩
  | error o => exact ⟨⟨o, rfl, rfl⟩, rfl⟩

theorem scopes_print (args : List Value) (st : Store) :
    (leaves (Eval.print args) st).scopes = st.scopes := by
  refine of_wp_leaves (P := fun st' => st'.scopes = st.scopes) (wp_mono (wp_print args st) ?_ ?_)
  · rintro v st' ⟨-, t, rfl⟩
    rfl
  · rintro e st' ⟨-, rfl⟩
    rfl

theorem answersArguments_builtins : builtins.AnswersArguments := by
  intro f args v st st' hr
  exact .inr ((wp_iff_of_ok hr).1 (wp_print args st)).1

theorem keepsScopes_builtins : builtins.KeepsScopes :=
  answersArguments_builtins.keepsScopes fun _ => scopes_print

theorem not_raises_builtins (n : String) : ¬ builtins.Raises (.undefined n) := by
  rintro ⟨f, args, st, st', hr⟩
  obtain ⟨⟨o, -, ho⟩, -⟩ := (wp_iff_of_error hr).1 (wp_print args st)
  cases ho

/-- Functions other than `print` answer the last of their arguments. -/
def last : Host := fun f args =>
  if f = .print then Eval.print args else pure (args.getLastD .nothing)

theorem answersArguments_last : last.AnswersArguments := by
  intro f args v st st' hr
  rw [last] at hr
  split at hr
  · exact @answersArguments_builtins f args v st st' hr
  · cases hr
    cases args with
    | nil => exact .inr rfl
    | cons a args =>
      rw [List.getLastD_eq_getLast?, List.getLast?_cons, Option.getD_some]
      exact .inl (List.mem_of_getLast? (List.getLast?_cons ..))

theorem keepsScopes_last : last.KeepsScopes := by
  refine answersArguments_last.keepsScopes fun f args st => ?_
  rw [last]
  split
  · exact scopes_print args st
  · rfl

theorem not_raises_last (n : String) : ¬ last.Raises (.undefined n) := by
  rintro ⟨f, args, st, st', hr⟩
  rw [last] at hr
  split at hr
  · exact not_raises_builtins n ⟨f, args, st, st', hr⟩
  · cases hr

end Host

end ExprLang
