import ExprLang.Proofs.Acceptance
import ExprLang.Proofs.Progress

/-!
# Where an expression ends

An expression takes all that can belong to it. When an operand was read with the operators that bind
more tightly than some bound, the stream has looked ahead, and what it sees is no argument list and
no such operator (`wp_operation`). So the argument lists that an expression looks for when it is
complete are never there.

The last round of a loop has looked at the next token and found nothing that goes on. That no
argument list follows was seen when the last operand was read, and is kept from round to round.
-/

namespace ExprLang
open TokenSource Grammar

/-- The stream has looked ahead, and the token that it sees, if there is one, is as `P` says. -/
def Faces (P : Lexeme → Prop) (s : TokenStream) : Prop :=
  ∃ t, peek s = .ok t s ∧ ∀ l ∈ t.map Token.lexeme, P l

/-- No argument list begins with `l`. -/
def NoCall (l : Lexeme) : Prop := l ≠ .mark "("

/-- Nor does an operator that binds more tightly than `bound`. -/
def NoMore (bound : Nat) (l : Lexeme) : Prop := NoCall l ∧ ¬ Binds bound l

theorem NoMore.le {bound p : Nat} {l : Lexeme} {op : String} (h : NoMore bound l)
    (hop : l = .operator op) (hp : precedence op = some p) : p ≤ bound :=
  Nat.not_lt.1 fun hlt => h.2 ⟨op, p, hop, hp, hlt⟩

theorem Faces.mono {s : TokenStream} {P P' : Lexeme → Prop} (h : Faces P s)
    (hP : ∀ l, P l → P' l) : Faces P' s := by
  obtain ⟨t, ht, hl⟩ := h
  exact ⟨t, ht, fun l hmem => hP l (hl l hmem)⟩

/-- After a look the stream has looked ahead. -/
theorem wp_peek_looks {s : TokenStream} {Q : Option Token → TokenStream → Prop}
    (hQ : ∀ t s', peek s' = .ok t s' → Q t s') : wp peek Q (fun _ _ => True) s := by
  cases h : (peek : Parse (Option Token)) s with
  | ok t s' => exact (wp_iff_of_ok h).2 (hQ t s' (TokenStream.peek_of_peek h))
  | error stop s' => exact (wp_iff_of_error h).2 trivial

/-- What a loop comes to, from what its rounds keep and what the last of them leads to. -/
theorem Repeats.wp_loop {α : Type} {step : α → Parse (Option α)} {I F : α → TokenStream → Prop}
    {B : Stop SourceError → TokenStream → Prop} {a : α} {s : TokenStream}
    (h : Repeats step a s (loop step a s))
    (hround : ∀ a s, I a s → wp (step a) (fun o s' => o.elim (F a s') fun b => I b s') B s)
    (ha : I a s) : wp (loop step a) F B s := by
  have hresult : ∀ {a s r}, Repeats step a s r → I a s → wp (fun _ => r) F B s := by
    intro a s r h ha
    induction h with
    | done h => exact (wp_iff_of_ok h).1 (hround _ _ ha)
    | failed h => exact (wp_iff_of_error h).1 (hround _ _ ha)
    | again h _ ih => exact ih ((wp_iff_of_ok h).1 (hround _ _ ha))
  exact hresult h ha

section
variable {d : Nat} {s : TokenStream}

theorem wp_nextCall (arguments : Expr → Parse Expr) (callee : Expr) :
    wp (nextCall arguments callee) (fun o s' => o = none → Faces NoCall s')
      (fun _ _ => True) s := by
  rw [nextCall, wp_bind, wp_atMark]
  refine wp_peek_looks fun t s' ht => ?_
  rw [wp_ite]
  split
  · rw [wp_bind]
    exact wp_of_forall (fun _ _ h => by cases h) fun _ _ => trivial
  · rename_i hne
    refine fun _ => ⟨t, ht, ?_⟩
    rintro l hl rfl
    exact hne (decide_eq_true hl)

theorem nextCall_of_faces {arguments : Expr → Parse Expr} (h : Faces NoCall s) (callee : Expr) :
    nextCall arguments callee s = .ok none s := by
  obtain ⟨t, ht, hl⟩ := h
  have hne : ¬ t.map Token.lexeme = some (.mark "(") := fun heq => hl _ heq rfl
  refine ok_of_wp ?_
  rw [nextCall, wp_bind, wp_atMark, wp_iff_of_ok ht, decide_eq_false hne]
  exact ⟨rfl, rfl⟩

theorem wp_calls (d : Nat) (e : Expr) :
    wp (calls d e) (fun _ s' => Faces NoCall s') (fun _ _ => True) s := by
  cases d with
  | zero => trivial
  | succ d =>
    refine (repeats_loop (Round.calls (d := d)).consumes e s).wp_loop
      (I := fun _ _ => True) ?_ trivial
    intro f s₁ _
    refine wp_mono (wp_nextCall (arguments d) f) (fun o s' ho => ?_) fun _ _ h => h
    cases o with
    | none => exact ho rfl
    | some f' => trivial

/-- With no argument list ahead nothing is done. -/
theorem calls_of_faces (h : Faces NoCall s) (e : Expr) : calls (d + 1) e s = .ok e s :=
  bind_of_ok (nextCall_of_faces h e)

theorem wp_operand (d : Nat) :
    wp (atom d) (fun _ s' => Faces NoCall s') (fun _ _ => True) s := by
  cases d with
  | zero => trivial
  | succ d =>
    rw [atom, wp_bind]
    exact wp_of_forall (fun e _ => wp_calls d e) fun _ _ => trivial

theorem wp_join_leaves (t : Token) (op : String) (left right : Expr) :
    wp (join d t op left right) (fun _ s' => s' = s) (fun _ _ => True) s := by
  unfold join refuse
  split
  · split
    · rfl
    · split <;> trivial
  · rfl

/-- A round that has no answer has seen that no operator goes on; one that has an answer ends with
an operand. -/
theorem wp_nextOperation {bound : Nat} {left : Expr} (hs : Faces NoCall s)
    (hclimb : ∀ bound left s, Faces NoCall s →
      wp (climb d bound left) (fun _ s' => Faces (NoMore bound) s') (fun _ _ => True) s) :
    wp (nextOperation d (atom d) (climb d) bound left)
      (fun o s' => o.elim (Faces (NoMore bound) s') fun _ => Faces NoCall s')
      (fun _ _ => True) s := by
  obtain ⟨t, ht, hl⟩ := hs
  have hstop : (∀ l ∈ t.map Token.lexeme, ¬ Binds bound l) → Faces (NoMore bound) s :=
    fun hbinds => ⟨t, ht, fun l hmem => ⟨hl l hmem, hbinds l hmem⟩⟩
  rw [nextOperation, wp_bind, operator?, wp_peekIf, wp_iff_of_ok ht]
  obtain _ | ⟨l, line, column⟩ := t
  · refine hstop fun l hmem => ?_
    cases hmem
  cases l with
  | operator op =>
    have hnot : (∀ p, precedence op = some p → p ≤ bound) → Faces (NoMore bound) s := by
      intro hle
      refine hstop fun l hmem => ?_
      cases hmem
      rintro ⟨op', p, ⟨⟩, hp, hlt⟩
      exact absurd (hle p hp) (Nat.not_le.2 hlt)
    rw [Option.filter_some_pos rfl]
    dsimp only [Lexeme.value]
    split
    · rename_i hp
      exact hnot fun p hp' => by rw [hp] at hp'; cases hp'
    rename_i p hp
    rw [wp_ite]
    split
    · rename_i hle
      exact hnot fun p' hp' => by rw [hp] at hp'; cases hp'; exact hle
    rw [wp_bind]
    refine wp_of_forall (fun _ s₁ => ?_) fun _ _ => trivial
    rw [wp_bind]
    refine wp_mono (wp_operand d) (fun operand s₂ h₂ => ?_) fun _ _ h => h
    rw [wp_bind]
    refine wp_mono (hclimb _ operand s₂ h₂) (fun right s₃ h₃ => ?_) fun _ _ h => h
    rw [wp_bind]
    refine wp_mono (wp_join_leaves _ op left right) ?_ fun _ _ h => h
    rintro e s₄ rfl
    exact h₃.mono fun l hl => hl.1
  | _ =>
    refine hstop fun l hmem => ?_
    cases hmem
    rintro ⟨op, p, ⟨⟩, -⟩

theorem wp_climb (d bound : Nat) (left : Expr) (s : TokenStream) (hs : Faces NoCall s) :
    wp (climb d bound left) (fun _ s' => Faces (NoMore bound) s') (fun _ _ => True) s := by
  induction d generalizing bound left s with
  | zero => trivial
  | succ d ih =>
    refine (repeats_loop (Round.operations bound).consumes left s).wp_loop
      (I := fun _ s => Faces NoCall s) ?_ hs
    intro left s hs
    exact wp_nextOperation hs ih

/-- An operand with the operators behind it that bind more tightly than `bound`. -/
theorem wp_operation (d bound : Nat) (s : TokenStream) :
    wp (do climb d bound (← atom d)) (fun _ s' => Faces (NoMore bound) s') (fun _ _ => True) s := by
  rw [wp_bind]
  exact wp_mono (wp_operand d) (fun left s' hs' => wp_climb d bound left s' hs') fun _ _ h => h

end

theorem expression_eq_operation (d : Nat) (s : TokenStream) :
    expression (d + 1) s = (do climb d 0 (← atom d) : Parse Expr) s := by
  have hassoc : (expression (d + 1) : Parse Expr) =
      (do climb d 0 (← atom d) : Parse Expr) >>= fun e => calls d e := by
    rw [expression, bind_assoc]
  rw [hassoc]
  cases h : (do climb d 0 (← atom d) : Parse Expr) s with
  | error stop s' => exact bind_of_error h
  | ok e s' =>
    rw [bind_of_ok h]
    cases d with
    | zero => cases h
    | succ d =>
      have hfaces : Faces (NoMore 0) s' := (wp_iff_of_ok h).1 (wp_operation (d + 1) 0 s)
      exact calls_of_faces (hfaces.mono fun l hl => hl.1) e

/-- Whatever the stream, an operand that is read with the operators that bind more tightly than
`bound` is followed by no argument list and by no such operator: the stream has looked at the next
token and sees another one, or the end. So an expression is such an operand for the bound zero, to
the same result or error and the same stream, and what follows it is neither an argument list nor an
operator at all. -/
theorem expression_takes_all_it_can (d : Nat) (s : TokenStream) :
    (∀ bound e s', (do climb d bound (← atom d) : Parse Expr) s = .ok e s' →
      ∃ t, peek s' = .ok t s' ∧ ∀ l ∈ t.map Token.lexeme, l ≠ .mark "(" ∧
        ∀ op p, l = .operator op → precedence op = some p → p ≤ bound) ∧
    expression (d + 1) s = (do climb d 0 (← atom d) : Parse Expr) s ∧
    ∀ e s', expression d s = .ok e s' →
      ∃ t, peek s' = .ok t s' ∧ ∀ l ∈ t.map Token.lexeme, l ≠ .mark "(" ∧
        ∀ op, l = .operator op → precedence op = none := by
  have hends : ∀ d bound e s', (do climb d bound (← atom d) : Parse Expr) s = .ok e s' →
      Faces (NoMore bound) s' :=
    fun d bound e s' h => (wp_iff_of_ok h).1 (wp_operation d bound s)
  refine ⟨fun bound e s' h => ?_, expression_eq_operation d s, fun e s' h => ?_⟩
  · obtain ⟨t, ht, hl⟩ := hends d bound e s' h
    exact ⟨t, ht, fun l hmem => ⟨(hl l hmem).1, fun op p hop hp => (hl l hmem).le hop hp⟩⟩
  · cases d with
    | zero => cases h
    | succ d =>
      rw [expression_eq_operation] at h
      obtain ⟨t, ht, hl⟩ := hends d 0 e s' h
      refine ⟨t, ht, fun l hmem => ⟨(hl l hmem).1, fun op hop => ?_⟩⟩
      cases hp : precedence op with
      | none => rfl
      | some p =>
        have hle := (hl l hmem).le hop hp
        have hpos := precedence_pos hp
        omega

end ExprLang
