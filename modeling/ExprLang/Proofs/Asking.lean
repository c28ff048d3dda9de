import ExprLang.Proofs.Similar
import ExprLang.Proofs.TokenCursor

/-!
# Reading only asks

Whatever a production does to a stream, it does by asking for the next token, so tokens are taken
and never given back. `s.Moves k s'` says that queries lead from `s` to `s'` and took `k` tokens on
the way. However a production ends, it moves the stream so, and when it succeeds, it succeeds on the
bare words as well and takes `k` of them (`counting`).

All of this holds of any stream, also of one whose lookahead is not from its text.
-/

namespace ExprLang
open TokenSource Grammar

namespace TokenStream

/-- From `s` to `s'` the stream was only asked, and `k` tokens were taken. -/
def Moves (s : TokenStream) (k : Nat) (s' : TokenStream) : Prop :=
  ∃ qs, s.after qs = s' ∧ s.taken qs = k

theorem taken_append (s : TokenStream) (qs qs' : List Query) :
    s.taken (qs ++ qs') = s.taken qs + (s.after qs).taken qs' := by
  induction qs generalizing s with
  | nil => exact (Nat.zero_add _).symm
  | cons q qs ih =>
    rw [List.cons_append, taken, taken, ih, Nat.add_assoc]
    rfl

section
variable {q : Query} {s s' : TokenStream} {t : Option Token}

theorem ask_of_ok (h : q.fetch s = .ok t s') : s.ask q = (q.answer t, s') := by
  have hrun : q.run s = .ok (q.answer t) s' :=
    ok_of_wp (Query.wp_run.2 ((wp_iff_of_ok h).2 ⟨rfl, rfl⟩))
  rw [ask, hrun]

theorem ask_of_error {stop : Stop SourceError} (h : q.fetch s = .error stop s') :
    s.ask q = (.failure stop, s') := by
  have hrun : q.run s = .error stop s' :=
    error_of_wp (Query.wp_run.2 ((wp_iff_of_error h).2 ⟨rfl, rfl⟩))
  rw [ask, hrun]

theorem leaves_fetch (q : Query) (s : TokenStream) : leaves q.fetch s = (s.ask q).2 := by
  cases h : q.fetch s with
  | ok t s' => rw [leaves_of_ok h, ask_of_ok h]
  | error stop s' => rw [leaves_of_error h, ask_of_error h]

/-- Reading does not add to the text, and a token has characters. -/
theorem wp_read_length (s : TokenStream) :
    wp read (fun t s' => s'.lookahead = s.lookahead ∧
        s'.input.rest.length + t.toList.length ≤ s.input.rest.length)
      (fun _ s' => s'.lookahead = s.lookahead ∧
        s'.input.rest.length ≤ s.input.rest.length) s := by
  have hskipped : s.skipped.input.rest.length ≤ s.input.rest.length := by
    simp only [skipped, Cursor.advance, List.length_drop]
    omega
  cases hr : read s with
  | ok t s' =>
    rw [wp_iff_of_ok hr]
    refine ⟨read_lookahead hr, ?_⟩
    cases t with
    | some t => exact (read_some hr).2
    | none =>
      rw [read_eq] at hr
      split at hr <;> cases hr
      exact hskipped
  | error stop s' =>
    rw [wp_iff_of_error hr]
    refine ⟨(read_error hr).1, ?_⟩
    rw [read_eq] at hr
    split at hr <;> cases hr
    exact hskipped

theorem wp_peek_size (s : TokenStream) :
    wp peek (fun _ s' => size s' ≤ size s) (fun _ s' => size s' ≤ size s) s := by
  obtain ⟨i, _ | t⟩ := s
  · have hread := wp_read_length ⟨i, none⟩
    rw [wp, peek_none]
    cases hr : read ⟨i, none⟩ with
    | ok t s' =>
      obtain ⟨-, hle⟩ := (wp_iff_of_ok hr).1 hread
      cases t <;> simpa [size] using hle
    | error stop s' =>
      obtain ⟨hl, hle⟩ := (wp_iff_of_error hr).1 hread
      simpa [size, hl] using hle
  · exact Nat.le_refl _

theorem wp_next_size (s : TokenStream) :
    wp next (fun t s' => size s' + t.toList.length ≤ size s) (fun _ s' => size s' ≤ size s) s := by
  obtain ⟨i, _ | t⟩ := s
  · rw [wp, next_none]
    refine wp_mono (wp_read_length ⟨i, none⟩) ?_ ?_
    · rintro t s' ⟨hl, hle⟩
      simpa [size, hl] using hle
    · rintro _ s' ⟨hl, hle⟩
      simpa [size, hl] using hle
  · exact Nat.le_refl _

theorem size_ask (q : Query) (s : TokenStream) :
    size (s.ask q).2 + q.count (s.ask q).1 ≤ size s := by
  have hlooks : ∀ q : Query, q.fetch = TokenSource.peek → (∀ a, q.count a = 0) →
      size (s.ask q).2 + q.count (s.ask q).1 ≤ size s := by
    intro q hq hcount
    rw [hcount, ← leaves_fetch, hq]
    exact of_wp_leaves (P := fun s' => size s' ≤ size s) (wp_peek_size s)
  cases q with
  | peek => exact hlooks .peek rfl fun _ => rfl
  | atEnd => exact hlooks .atEnd rfl fun _ => rfl
  | next =>
    have hnext := wp_next_size s
    cases h : Query.next.fetch s with
    | ok t s' =>
      rw [ask_of_ok h]
      have hle := (wp_iff_of_ok h).1 hnext
      cases t <;> exact hle
    | error stop s' =>
      rw [ask_of_error h]
      exact (wp_iff_of_error h).1 hnext

end

section
variable {s s' : TokenStream} {t : Option Token}

theorem lookahead_of_peek (h : peek s = .ok t s') : s'.lookahead = t := by
  obtain ⟨i, _ | t'⟩ := s
  · rw [peek_none] at h
    split at h <;> cases h
    rfl
  · cases h
    rfl

/-- Whoever has looked ahead can look again, and sees the same. -/
theorem peek_of_peek (h : peek s = .ok t s') : peek s' = .ok t s' := by
  obtain ⟨i', la⟩ := s'
  obtain rfl : la = t := lookahead_of_peek h
  cases la with
  | some t => rfl
  | none =>
    obtain ⟨i, _ | t'⟩ := s
    · rw [peek_none] at h
      cases hr : read ⟨i, none⟩ with
      | error stop s₁ =>
        rw [hr] at h
        cases h
      | ok t₁ s₁ =>
        rw [hr] at h
        obtain ⟨i₁, _⟩ := s₁
        cases h
        obtain rfl : _ = none := read_lookahead hr
        rw [peek_none, read_none hr]
    · cases h

end

namespace Moves
variable {s s' s'' : TokenStream} {k l : Nat}

theorem refl (s : TokenStream) : s.Moves 0 s := ⟨[], rfl, rfl⟩

theorem trans (h : s.Moves k s') (h' : s'.Moves l s'') : s.Moves (k + l) s'' := by
  obtain ⟨qs, rfl, rfl⟩ := h
  obtain ⟨qs', rfl, rfl⟩ := h'
  exact ⟨qs ++ qs', after_append s qs qs', taken_append s qs qs'⟩

theorem ask (q : Query) (s : TokenStream) : s.Moves (q.count (s.ask q).1) (s.ask q).2 :=
  ⟨[q], rfl, rfl⟩

theorem peek {t : Option Token} (h : TokenSource.peek s = .ok t s') : s.Moves 0 s' := by
  have hask := Moves.ask .peek s
  rwa [ask_of_ok (q := .peek) h] at hask

theorem next {t : Option Token} (h : TokenSource.next s = .ok t s') :
    s.Moves t.toList.length s' := by
  have hask := Moves.ask .next s
  rw [ask_of_ok (q := .next) h] at hask
  cases t <;> exact hask

theorem leaves_fetch (q : Query) (s : TokenStream) :
    ∃ k, s.Moves k (leaves q.fetch s) :=
  ⟨_, (TokenStream.leaves_fetch q s).symm ▸ Moves.ask q s⟩

theorem size_le (h : s.Moves k s') : size s' + k ≤ size s := by
  obtain ⟨qs, rfl, rfl⟩ := h
  induction qs generalizing s with
  | nil => exact Nat.le_refl _
  | cons q qs ih =>
    have hask := size_ask q s
    have hrest := ih (s := (s.ask q).2)
    rw [taken, after]
    omega

/-- In terms of the tokens that a stream holds: the first `k` are gone, and nothing else changed. -/
theorem holds {ts : List Token} {e : TextEnd} (h : s.Moves k s') (hs : Holds s ts e) :
    k ≤ ts.length ∧ Holds s' (ts.drop k) e := by
  obtain ⟨qs, rfl, rfl⟩ := h
  exact hs.after qs

end Moves

/-- The words that a stream will give, the token it has looked at first. -/
def Gives (s : TokenStream) (w : Words) : Prop :=
  ∃ ts e, Holds { s with lookahead := none } ts e ∧ w = .ofTokens (s.lookahead.toList ++ ts) e

theorem exists_gives (s : TokenStream) : ∃ w, s.Gives w := by
  obtain ⟨ts, e, hs⟩ := Holds.exists_of_lookahead { s with lookahead := none } rfl
  exact ⟨_, ts, e, hs, rfl⟩

theorem Gives.length_le_size {s : TokenStream} {w : Words} (h : s.Gives w) :
    w.left.length ≤ TokenSource.size s := by
  obtain ⟨i, la⟩ := s
  obtain ⟨ts, e, hs, rfl⟩ := h
  have hle := hs.length_le_size
  cases la with
  | none => simpa [Words.ofTokens] using hle
  | some t =>
    have hsize : TokenSource.size (⟨i, some t⟩ : TokenStream) =
      TokenSource.size (⟨i, none⟩ : TokenStream) + 1 := rfl
    simpa [Words.ofTokens, hsize] using hle

end TokenStream

open TokenStream (Query Moves)

/-- A stream gives the words of the tokens that it holds. -/
theorem Holds.gives {s : TokenStream} {ts : List Token} {e : TextEnd} (h : Holds s ts e) :
    s.Gives (.ofTokens ts e) := by
  obtain ⟨i, _ | t⟩ := s
  · exact ⟨ts, e, h, rfl⟩
  cases h with
  | ended hl => cases hl
  | stuck hl => cases hl
  | token hn _ h =>
    rw [TokenStream.next_some] at hn
    cases hn
    exact ⟨_, e, h, rfl⟩

section
variable {α β α' β' : Type} {s : TokenStream} {w : Words}

/-- If `x` succeeds from `s`, then `y` does from `w`, and takes as many words as `x` takes tokens.
However `x` ends, all that it did to the stream was to ask. -/
def KeepsCount (s : TokenStream) (w : Words) (V : α → β → Prop) (x : Parse α)
    (y : Reading Words β) : Prop :=
  wp x (fun a s' => ∃ k b w', s.Moves k s' ∧ V a b ∧ y w = .ok b w' ∧ s'.Gives w' ∧
      w.left.length = k + w'.left.length)
    (fun _ s' => ∃ k, s.Moves k s') s

theorem KeepsCount.bind {V : α → β → Prop} {V' : α' → β' → Prop} {x : Parse α} {y : Reading Words β}
    {f : α → Parse α'} {g : β → Reading Words β'} (h : KeepsCount s w V x y)
    (hf : ∀ a b s' w', V a b → y w = .ok b w' → s'.Gives w' → KeepsCount s' w' V' (f a) (g b)) :
    KeepsCount s w V' (x >>= f) (y >>= g) := by
  rw [KeepsCount, wp_bind]
  refine wp_mono h ?_ fun _ _ h => h
  rintro a s' ⟨k, b, w', hmoves, hab, hy, hw', hlen⟩
  refine wp_mono (hf a b s' w' hab hy hw') ?_ ?_
  · rintro c s'' ⟨l, c', w'', hmoves', hc, hg, hw'', hlen'⟩
    exact ⟨k + l, c', w'', hmoves.trans hmoves', hc, (bind_of_ok hy).trans hg, hw'', by omega⟩
  · rintro _ s'' ⟨l, hmoves'⟩
    exact ⟨k + l, hmoves.trans hmoves'⟩

theorem KeepsCount.pure {V : α → β → Prop} {a : α} {b : β} (hw : s.Gives w) (h : V a b) :
    KeepsCount s w V (pure a) (pure b) :=
  ⟨0, b, w, .refl s, h, rfl, hw, by omega⟩

/-- A query is counted by what it does to the words. -/
theorem KeepsCount.fetch {q : Query} {V : Option Token → Option Token → Prop}
    {y : Reading Words (Option Token)} (count : Option Token → Nat)
    (hcount : ∀ {t s'}, q.fetch s = .ok t s' → s.Moves (count t) s')
    (h : wp q.fetch (fun t s' => ∃ t' w', V t t' ∧ y w = .ok t' w' ∧ s'.Gives w' ∧
      w.left.length = count t + w'.left.length) (fun _ _ => True) s) : KeepsCount s w V q.fetch y := by
  have hmoves := Moves.leaves_fetch q s
  cases hr : q.fetch s with
  | ok t s' =>
    obtain ⟨t', w', ht, hy, hw', hlen⟩ := (wp_iff_of_ok hr).1 h
    exact (wp_iff_of_ok hr).2 ⟨count t, t', w', hcount hr, ht, hy, hw', hlen⟩
  | error stop s' =>
    rw [leaves_of_error hr] at hmoves
    exact (wp_iff_of_error hr).2 hmoves

theorem keepsCount_peek (h : s.Gives w) :
    KeepsCount s w (Option.Rel fun t t' => t'.lexeme = t.lexeme) peek peek := by
  refine .fetch (q := .peek) (fun _ => 0) .peek ?_
  obtain ⟨i, la⟩ := s
  obtain ⟨ts, e, hs, rfl⟩ := h
  cases la with
  | some t =>
    exact ⟨(Words.ofTokens (t :: ts) e).head?, _, .some rfl, rfl, ⟨ts, e, hs, rfl⟩,
      (Nat.zero_add _).symm⟩
  | none =>
    cases ts with
    | cons t ts =>
      exact hs.wp_peek_cons fun s' hs' _ =>
        ⟨(Words.ofTokens (t :: ts) e).head?, _, .some rfl, rfl, hs'.gives, (Nat.zero_add _).symm⟩
    | nil =>
      cases he : e.stray with
      | none =>
        refine hs.wp_peek_nil he fun s' hs' _ => ⟨none, .ofTokens [] e, .none, ?_, hs'.gives, rfl⟩
        simp only [Words.ofTokens, he]
        rfl
      | some c => exact hs.wp_peek_stray he fun _ _ => trivial

theorem keepsCount_next (h : s.Gives w) :
    KeepsCount s w (Option.Rel fun t t' => t'.lexeme = t.lexeme) next next := by
  refine .fetch (q := .next) (fun t => t.toList.length) .next ?_
  obtain ⟨i, la⟩ := s
  obtain ⟨ts, e, hs, rfl⟩ := h
  cases la with
  | some t =>
    exact ⟨(Words.ofTokens (t :: ts) e).head?, _, .some rfl, rfl, hs.gives, Nat.add_comm _ _⟩
  | none =>
    cases ts with
    | cons t ts =>
      exact hs.wp_next_cons fun s' hs' =>
        ⟨(Words.ofTokens (t :: ts) e).head?, _, .some rfl, rfl, hs'.gives, Nat.add_comm _ _⟩
    | nil =>
      cases he : e.stray with
      | none =>
        refine hs.wp_next_nil he fun s' hs' _ => ⟨none, .ofTokens [] e, .none, ?_, hs'.gives, rfl⟩
        simp only [Words.ofTokens, he]
        rfl
      | some c => exact hs.wp_next_stray he fun _ _ => trivial

theorem keepsCount_iterate {step : α → Parse (Option α)} {step' : α → Reading Words (Option α)}
    (hstep : ∀ a s w, s.Gives w → KeepsCount s w Eq (step a) (step' a)) (hprog : Progresses step')
    (n m : Nat) (a : α) (hw : s.Gives w) (hn : w.left.length < n) (hm : w.left.length < m) :
    KeepsCount s w Eq (iterate step n a) (iterate step' m a) := by
  induction n generalizing m a s w with
  | zero => omega
  | succ n ih =>
    obtain _ | m := m
    · omega
    refine (hstep a s w hw).bind fun o o' s' w' ho hy hw' => ?_
    subst ho
    cases o with
    | none => exact .pure hw' rfl
    | some b =>
      obtain ⟨u, hu, -, hne⟩ := (wp_iff_of_ok hy).1 (hprog a w)
      have hpos := List.length_pos_iff.2 (hne rfl)
      rw [hu, List.length_append] at hn hm
      exact ih m b hw' (by omega) (by omega)

end

/-- Tokens and words that are taken are counted alike. -/
def counting : Stepwise TokenStream where
  rel V x y := ∀ s w, s.Gives w → KeepsCount s w V x y
  token t t' := t'.lexeme = t.lexeme
  lexeme h := h
  depths := Eq
  depths_le := Nat.le_of_eq
  depths_pred := Nat.succ.inj
  pure h _ _ hw := .pure hw h
  bind h hf s w hw := (h s w hw).bind fun a b s' w' hab _ hw' => hf a b hab s' w' hw'
  tooDeep _ _ s _ _ := ⟨0, .refl s⟩
  peek _ _ := keepsCount_peek
  next _ _ := keepsCount_next
  loop a hstep hprog s w hw := by
    have hlen := hw.length_le_size
    exact keepsCount_iterate hstep hprog (size s + 1) (w.left.length + 1) a hw (by omega) (by omega)
  fail _ t _ _ s _ _ := by cases t <;> exact ⟨0, .refl s⟩

section
variable {α β : Type} {V : α → β → Prop} {x : Parse α}

theorem moves_of_counting {y : Reading Words β} (h : counting.rel V x y) (s : TokenStream) :
    ∃ k, s.Moves k (leaves x s) := by
  obtain ⟨w, hw⟩ := s.exists_gives
  refine of_wp_leaves (P := fun s' => ∃ k, s.Moves k s') (wp_mono (h s w hw) ?_ fun _ _ h => h)
  rintro a s' ⟨k, -, -, hmoves, -⟩
  exact ⟨k, hmoves⟩

/-- When `x` succeeds with an answer that `p` holds of, it has taken a token. -/
def Consumes (p : α → Prop) (x : Parse α) : Prop :=
  ∀ (s s' : TokenStream) a, x s = .ok a s' → p a → ∃ k, 0 < k ∧ s.Moves k s'

theorem consumes_of_counting {p : α → Prop} {y : Reading Words α} (h : counting.rel Eq x y)
    (hy : Takes y fun u a => p a → u ≠ []) : Consumes p x := by
  intro s s' a hx ha
  obtain ⟨w, hw⟩ := s.exists_gives
  obtain ⟨k, _, w', hmoves, rfl, hrun, -, hlen⟩ := (wp_iff_of_ok hx).1 (h s w hw)
  obtain ⟨u, hu, -, hne⟩ := (wp_iff_of_ok hrun).1 (hy w)
  have hpos := List.length_pos_iff.2 (hne ha)
  rw [hu, List.length_append] at hlen
  exact ⟨k, by omega, hmoves⟩

end

end ExprLang
