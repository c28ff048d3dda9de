import ExprLang.TokenStream
import ExprLang.Proofs.Outcome

/-!
# The tokens a stream holds

A stream reads its tokens when they are asked for, but which tokens those are is settled from the
start. `Holds s ts e`: the stream `s` will give the tokens `ts` and then come to the end `e`.
Looking ahead changes the stream and not what it holds; after it, reading has come to the place
behind the next token.
-/

namespace ExprLang
open TokenSource

/-- How the tokens of a text end: at a place, and there perhaps with a character that begins no
lexeme. -/
structure TextEnd where
  stray : Option Char
  line : Nat
  column : Nat

namespace TextEnd

def place (e : TextEnd) : Nat × Nat := (e.line, e.column)

/-- The error that asking for a token beyond the end makes, if the text is cut short there. -/
def error (e : TextEnd) (c : Char) : Stop SourceError :=
  .error (.at .lexical (.strayCharacter c) e.line e.column)

end TextEnd

def Token.place (t : Token) : Nat × Nat := (t.line, t.column)

inductive Holds : TokenStream → List Token → TextEnd → Prop
  | ended {s s' : TokenStream} (hl : s.lookahead = none) (hr : TokenStream.read s = .ok none s') :
      Holds s [] ⟨none, s'.input.pos.line, s'.input.pos.column⟩
  | stuck {s s' : TokenStream} {e : TextEnd} {c : Char} (hl : s.lookahead = none)
      (hc : e.stray = some c) (hr : TokenStream.read s = .error (e.error c) s') : Holds s [] e
  | token {s s' : TokenStream} {t : Token} {ts : List Token} {e : TextEnd}
      (hn : TokenStream.next s = .ok (some t) s') (hp : TokenSource.place s' = t.place)
      (h : Holds s' ts e) : Holds s (t :: ts) e

theorem numberLength_pos {c : Char} {r : List Char} (h : c.isDigit) :
    0 < Lexeme.numberLength (c :: r) := by
  have hrun : 0 < Lexeme.runLength Char.isDigit (c :: r) := by simp [Lexeme.runLength, h]
  simp only [Lexeme.numberLength]
  split <;> omega

theorem scan_lexeme_pos {cs : List Char} {l : Lexeme} {n : Nat}
    (h : Lexeme.scan cs = .lexeme l n) : cs ≠ [] ∧ 0 < n := by
  cases cs with
  | nil => simp [Lexeme.scan] at h
  | cons c r =>
    refine ⟨by simp, ?_⟩
    simp only [Lexeme.scan] at h
    split at h
    · cases h; split <;> omega
    split at h
    · cases h; exact numberLength_pos ‹_›
    split at h
    · cases h; simp [Lexeme.runLength, Lexeme.isNamePart, *]
    split at h
    · cases h; omega
    split at h
    · cases h; simp [Lexeme.runLength, *]
    · cases h

theorem layoutLength_drop (comment : Bool) (cs : List Char) :
    Lexeme.layoutLength false (cs.drop (Lexeme.layoutLength comment cs)) = 0 := by
  induction cs generalizing comment with
  | nil => cases comment <;> rfl
  | cons c r ih =>
    cases comment with
    | true => exact ih _
    | false =>
      by_cases hspace : Lexeme.isSpace c
      · simpa [Lexeme.layoutLength, hspace] using ih false
      by_cases hhash : c = '#'
      · subst hhash
        exact ih true
      · simp [Lexeme.layoutLength, hspace, hhash]

namespace TokenStream

/-- The stream behind the blanks and comments at its head. -/
def skipped (s : TokenStream) : TokenStream :=
  { s with input := s.input.advance (Lexeme.layoutLength false s.input.rest) }

theorem read_eq (s : TokenStream) : read s = match Lexeme.scan s.skipped.input.rest with
    | .nothing => .ok none s.skipped
    | .stray c => .error (.error (.at .lexical (.strayCharacter c) s.skipped.input.pos.line
        s.skipped.input.pos.column)) s.skipped
    | .lexeme l n =>
      let s' := { s.skipped with input := s.skipped.input.advance n }
      .ok (some ⟨l, s'.input.pos.line, s'.input.pos.column⟩) s' := by
  have hget : (get : Parse TokenStream) s = .ok s s := rfl
  refine (bind_of_ok hget).trans ?_
  dsimp only [skipped]
  generalize Lexeme.scan _ = found
  cases found <;> rfl

theorem scan_nothing {cs : List Char} (h : Lexeme.scan cs = .nothing) : cs = [] := by
  cases cs with
  | nil => rfl
  | cons c r =>
    simp only [Lexeme.scan] at h
    repeat' split at h
    all_goals cases h

theorem read_lookahead {s s' : TokenStream} {o : Option Token} (h : read s = .ok o s') :
    s'.lookahead = s.lookahead := by
  rw [read_eq] at h
  split at h <;> cases h <;> rfl

/-- Behind blanks and comments there is nothing left to skip. -/
theorem skipped_skipped (s : TokenStream) : s.skipped.skipped = s.skipped := by
  have hlen : Lexeme.layoutLength false s.skipped.input.rest = 0 := layoutLength_drop false _
  rw [skipped, hlen]
  simp [Cursor.advance, Position.after]

theorem read_none {s s' : TokenStream} (h : read s = .ok none s') : read s' = .ok none s' := by
  rw [read_eq] at h
  split at h <;> cases h
  rename_i hs
  rw [read_eq, skipped_skipped, hs]

/-- A character that begins no lexeme is not passed. -/
theorem read_error {s s' : TokenStream} {err : Stop SourceError} (h : read s = .error err s') :
    s'.lookahead = s.lookahead ∧ read s' = .error err s' := by
  rw [read_eq] at h
  split at h <;> cases h
  rename_i hs
  refine ⟨rfl, ?_⟩
  rw [read_eq, skipped_skipped, hs]

theorem read_some {s s' : TokenStream} {t : Token} (h : read s = .ok (some t) s') :
    place s' = t.place ∧ s'.input.rest.length < s.input.rest.length := by
  rw [read_eq] at h
  split at h <;> cases h
  rename_i l n hs
  obtain ⟨hne, hn⟩ := scan_lexeme_pos hs
  refine ⟨rfl, ?_⟩
  have hpos := List.length_pos_iff.2 hne
  simp only [skipped, Cursor.advance, List.length_drop] at hpos ⊢
  omega

theorem next_some (i : Cursor) (t : Token) : next ⟨i, some t⟩ = .ok (some t) ⟨i, none⟩ := rfl

theorem next_none (i : Cursor) : next ⟨i, none⟩ = read ⟨i, none⟩ := rfl

theorem peek_none (i : Cursor) : peek ⟨i, none⟩ = match read ⟨i, none⟩ with
    | .ok t s => .ok t { s with lookahead := t }
    | .error e s => .error e s := by
  show EStateM.bind read (fun t => EStateM.bind (modify fun s => { s with lookahead := t })
    fun _ => pure t) ⟨i, none⟩ = _
  unfold EStateM.bind
  cases read ⟨i, none⟩ <;> rfl

end TokenStream

namespace Holds
variable {s : TokenStream} {t : Token} {ts : List Token} {e : TextEnd} {c : Char}
  {Q : Option Token → TokenStream → Prop} {B : Stop SourceError → TokenStream → Prop}

theorem exists_of_lookahead (s : TokenStream) (hl : s.lookahead = none) :
    ∃ ts e, Holds s ts e := by
  generalize hn : s.input.rest.length = n
  induction n using Nat.strongRecOn generalizing s with
  | ind n ih =>
    obtain ⟨i, _⟩ := s
    subst hl
    cases hr : TokenStream.read ⟨i, none⟩ with
    | ok o s' =>
      cases o with
      | none => exact ⟨[], _, .ended rfl hr⟩
      | some t =>
        obtain ⟨hp, hlt⟩ := TokenStream.read_some hr
        obtain ⟨ts, e, h⟩ := ih _ (hn ▸ hlt) s' (TokenStream.read_lookahead hr) rfl
        exact ⟨t :: ts, e, .token hr hp h⟩
    | error err s' =>
      rw [TokenStream.read_eq] at hr
      split at hr <;> cases hr
      rename_i c hs
      let p := (TokenStream.skipped ⟨i, none⟩).input.pos
      have hr : TokenStream.read ⟨i, none⟩ = .error (TextEnd.error ⟨some c, p.line, p.column⟩ c)
          (TokenStream.skipped ⟨i, none⟩) := by
        rw [TokenStream.read_eq, hs]
        rfl
      exact ⟨[], _, .stuck rfl rfl hr⟩

/-- Which tokens a stream holds is settled. -/
theorem unique {ts' : List Token} {e' : TextEnd} (h : Holds s ts e) (h' : Holds s ts' e') :
    ts = ts' ∧ e = e' := by
  have hnext : ∀ {s : TokenStream}, s.lookahead = none →
      TokenStream.next s = TokenStream.read s := by
    rintro ⟨i, _⟩ rfl
    rfl
  induction h generalizing ts' with
  | ended hl hr =>
    cases h' with
    | ended _ hr' =>
      rw [hr] at hr'
      cases hr'
      exact ⟨rfl, rfl⟩
    | stuck _ _ hr' =>
      rw [hr] at hr'
      cases hr'
    | token hn =>
      rw [hnext hl, hr] at hn
      cases hn
  | @stuck s s' e c hl hc hr =>
    cases h' with
    | ended _ hr' =>
      rw [hr] at hr'
      cases hr'
    | @stuck _ _ _ c' _ hc' hr' =>
      rw [hr] at hr'
      obtain ⟨stray, line, column⟩ := e
      obtain ⟨stray', line', column'⟩ := e'
      obtain rfl : stray = some c := hc
      obtain rfl : stray' = some c' := hc'
      cases hr'
      exact ⟨rfl, rfl⟩
    | token hn =>
      rw [hnext hl, hr] at hn
      cases hn
  | token hn _ _ ih =>
    cases h' with
    | ended hl hr =>
      rw [hnext hl, hr] at hn
      cases hn
    | stuck hl _ hr =>
      rw [hnext hl, hr] at hn
      cases hn
    | token hn' _ h' =>
      rw [hn] at hn'
      cases hn'
      obtain ⟨rfl, rfl⟩ := ih h'
      exact ⟨rfl, rfl⟩

theorem wp_peek_cons (h : Holds s (t :: ts) e)
    (hQ : ∀ s', Holds s' (t :: ts) e → place s' = t.place → Q (some t) s') : wp peek Q B s := by
  obtain ⟨i, la⟩ := s
  cases h with
  | token hn hp h =>
    cases la with
    | some t' =>
      rw [TokenStream.next_some] at hn
      cases hn
      exact hQ _ (.token (TokenStream.next_some i t) hp h) hp
    | none =>
      rw [TokenStream.next_none] at hn
      have hl := TokenStream.read_lookahead hn
      rename_i s'
      obtain ⟨i', _⟩ := s'
      subst hl
      have hpeek : TokenStream.peek ⟨i, none⟩ = .ok (some t) ⟨i', some t⟩ := by
        rw [TokenStream.peek_none, hn]
      exact (wp_iff_of_ok hpeek).2 (hQ _ (.token (TokenStream.next_some i' t) hp h) hp)

theorem wp_peek_nil (h : Holds s [] e) (he : e.stray = none)
    (hQ : ∀ s', Holds s' [] e → place s' = e.place → Q none s') : wp peek Q B s := by
  obtain ⟨i, la⟩ := s
  cases h with
  | ended hl hr =>
    subst hl
    rename_i s'
    have hl := TokenStream.read_lookahead hr
    have hs' : { s' with lookahead := none } = s' := congrArg (TokenStream.mk s'.input) hl.symm
    have hpeek : TokenStream.peek ⟨i, none⟩ = .ok none s' := by
      rw [TokenStream.peek_none, hr]
      exact congrArg _ hs'
    exact (wp_iff_of_ok hpeek).2 (hQ _ (.ended hl (TokenStream.read_none hr)) rfl)
  | stuck _ hc => rw [he] at hc; cases hc

theorem wp_peek_stray (h : Holds s [] e) (he : e.stray = some c)
    (hB : ∀ s', Holds s' [] e → B (e.error c) s') : wp peek Q B s := by
  obtain ⟨i, la⟩ := s
  cases h with
  | ended hl hr => cases he
  | stuck hl hc hr =>
    subst hl
    rename_i s' c'
    obtain rfl : c' = c := Option.some.inj (hc.symm.trans he)
    obtain ⟨hl', hr'⟩ := TokenStream.read_error hr
    have hpeek : TokenStream.peek ⟨i, none⟩ = .error (e.error c') s' := by
      rw [TokenStream.peek_none, hr]
    exact (wp_iff_of_error hpeek).2 (hB _ (.stuck hl' hc hr'))

theorem wp_next_cons (h : Holds s (t :: ts) e) (hQ : ∀ s', Holds s' ts e → Q (some t) s') :
    wp next Q B s := by
  cases h with
  | token hn hp h => exact (wp_iff_of_ok (show TokenSource.next s = _ from hn)).2 (hQ _ h)

theorem wp_next_nil (h : Holds s [] e) (he : e.stray = none)
    (hQ : ∀ s', Holds s' [] e → place s' = e.place → Q none s') : wp next Q B s := by
  obtain ⟨i, la⟩ := s
  cases h with
  | ended hl hr =>
    subst hl
    have hnext : TokenStream.next ⟨i, none⟩ = .ok none _ := hr
    exact (wp_iff_of_ok hnext).2
      (hQ _ (.ended (TokenStream.read_lookahead hr) (TokenStream.read_none hr)) rfl)
  | stuck _ hc => rw [he] at hc; cases hc

theorem wp_next_stray (h : Holds s [] e) (he : e.stray = some c)
    (hB : ∀ s', Holds s' [] e → B (e.error c) s') : wp next Q B s := by
  obtain ⟨i, la⟩ := s
  cases h with
  | ended hl hr => cases he
  | stuck hl hc hr =>
    subst hl
    rename_i s' c'
    obtain rfl : c' = c := Option.some.inj (hc.symm.trans he)
    obtain ⟨hl', hr'⟩ := TokenStream.read_error hr
    have hnext : TokenStream.next ⟨i, none⟩ = .error (e.error c') s' := hr
    exact (wp_iff_of_error hnext).2 (hB _ (.stuck hl' hc hr'))

theorem length_le_size (h : Holds s ts e) : ts.length ≤ size s := by
  induction h with
  | ended => exact Nat.zero_le _
  | stuck => exact Nat.zero_le _
  | @token s s' t ts e hn hp h ih =>
    suffices size s' < size s by simp only [List.length_cons]; omega
    obtain ⟨i, _ | t'⟩ := s
    · obtain ⟨-, hlt⟩ := TokenStream.read_some hn
      have hl := TokenStream.read_lookahead hn
      show s'.input.rest.length + _ < i.rest.length + _
      simp only [hl]
      exact Nat.add_lt_add_right hlt _
    · rw [TokenStream.next_some] at hn
      cases hn
      exact Nat.lt_succ_self _

theorem wp_takeNext {Q : Option (List Token) → TokenStream → Prop} {taken : List Token} :
    wp (takeNext taken) Q B s ↔ wp peek (fun t s' =>
      if t.isNone then Q none s'
      else wp next (fun t s' => Q (t.map (· :: taken)) s') B s') B s := by
  simp [takeNext, atEnd]

theorem wp_iterate_takeNext (h : Holds s ts e) {n : Nat} (hn : ts.length < n) (taken : List Token) :
    wp (iterate takeNext n taken) (fun all _ => e.stray = none ∧ all = ts.reverse ++ taken)
      (fun err _ => ∃ c, e.stray = some c ∧ err = e.error c) s := by
  induction ts generalizing n s taken with
  | nil =>
    obtain _ | n := n
    · omega
    rw [iterate, wp_bind, wp_takeNext]
    cases he : e.stray with
    | none => exact h.wp_peek_nil he fun s' _ _ => ⟨rfl, rfl⟩
    | some c => exact h.wp_peek_stray he fun s' _ => ⟨c, rfl, rfl⟩
  | cons t ts ih =>
    obtain _ | n := n
    · omega
    rw [iterate, wp_bind, wp_takeNext]
    refine h.wp_peek_cons fun s' hs' _ => ?_
    refine hs'.wp_next_cons fun s'' hs'' => ?_
    simpa using ih hs'' (by simpa using hn) (t :: taken)

/-- The tokens of a text are those it holds, unless it is cut short. -/
theorem tokenize_eq {text : String} (h : Holds (.ofText text) ts e) :
    tokenize text = match e.stray with
      | none => .ok ts
      | some c => .error (e.error c) := by
  have hrun : wp rest (fun all _ => e.stray = none ∧ all = ts)
      (fun err _ => ∃ c, e.stray = some c ∧ err = e.error c) (TokenStream.ofText text) := by
    rw [rest, wp_bind]
    refine wp_mono (h.wp_iterate_takeNext (Nat.lt_succ_of_le h.length_le_size) []) ?_ fun _ _ h => h
    rintro all s' ⟨he, rfl⟩
    exact ⟨he, by simp⟩
  cases hr : rest (TokenStream.ofText text) with
  | ok all s' =>
    obtain ⟨he, rfl⟩ := (wp_iff_of_ok hr).1 hrun
    rw [he, tokenize, EStateM.run, hr]
  | error err s' =>
    obtain ⟨c, hc, rfl⟩ := (wp_iff_of_error hr).1 hrun
    rw [hc, tokenize, EStateM.run, hr]

theorem of_tokenize {text : String} (h : tokenize text = .ok ts) :
    ∃ e, Holds (.ofText text) ts e ∧ e.stray = none := by
  obtain ⟨ts', e, hs⟩ := exists_of_lookahead (.ofText text) rfl
  rw [hs.tokenize_eq] at h
  cases he : e.stray with
  | none =>
    rw [he] at h
    cases h
    exact ⟨e, hs, he⟩
  | some c =>
    rw [he] at h
    cases h

end Holds

end ExprLang
