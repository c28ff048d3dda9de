import ExprLang.Proofs.Simulation
import ExprLang.Proofs.Stream

/-!
# Streams and words are read alike

Reading a stream and reading the bare words it holds go the same way: they give the same trees,
they leave the same words, and they fail with the same complaint, the words by the number of words
that are left (`TextEnd.locate` turns that into a line and a column of the text).
-/

namespace ExprLang
open TokenSource Grammar

def Words.ofTokens (ts : List Token) (e : TextEnd) : Words := ⟨ts.map Token.lexeme, e.stray⟩

namespace TextEnd

/-- The place of the token with `n` tokens from it to the end, and of the end itself for zero. -/
def placeOf (e : TextEnd) (all : List Token) (n : Nat) : Nat × Nat :=
  (all[all.length - n]?.map Token.place).getD e.place

/-- An error over bare words as it shows in the text. -/
def locate (e : TextEnd) (all : List Token) (err : SourceError) : SourceError :=
  .at err.stage err.complaint (e.placeOf all err.line.toNat).1 (e.placeOf all err.line.toNat).2

def locateStop (e : TextEnd) (all : List Token) : Stop SourceError → Stop SourceError
  | .tooDeep => .tooDeep
  | .error err => .error (e.locate all err)

variable {e : TextEnd} {all ts : List Token} {t : Token}

theorem placeOf_nil : e.placeOf all 0 = e.place := by simp [placeOf]

theorem placeOf_cons (h : t :: ts <:+ all) : e.placeOf all (ts.length + 1) = t.place := by
  obtain ⟨before, rfl⟩ := h
  simp [placeOf, Token.place]

@[simp] theorem locateStop_at (stage : Stage) (c : Complaint) (n k : Nat) :
    e.locateStop all (.error (.at stage c n k)) =
      .error (.at stage c (e.placeOf all n).1 (e.placeOf all n).2) := rfl

end TextEnd

section
variable (all : List Token) (e : TextEnd)
variable {α β α' β' : Type}

/-- From the tokens `ts` on, `x` on a stream and `y` on bare words end alike, with results and
tokens left as `V` says. -/
def Alike (ts : List Token) (V : α → β → List Token → Prop) (x : Parse α) (y : Reading Words β) :
    Prop :=
  ts <:+ all → ∀ s, Holds s ts e → wp x
    (fun a s' => wp y (fun b w' => ∃ ts', ts' <:+ all ∧ Holds s' ts' e ∧ w' = .ofTokens ts' e ∧
      V a b ts') (fun _ _ => False) (.ofTokens ts e))
    (fun err _ => wp y (fun _ _ => False) (fun err' _ => err = e.locateStop all err')
      (.ofTokens ts e)) s

variable {all e} {ts : List Token} {V : α → β → List Token → Prop}
  {V' : α' → β' → List Token → Prop} {x : Parse α} {y : Reading Words β}

theorem Alike.bind {f : α → Parse α'} {g : β → Reading Words β'} (h : Alike all e ts V x y)
    (hf : ∀ a b ts', V a b ts' → Alike all e ts' V' (f a) (g b)) :
    Alike all e ts V' (x >>= f) (y >>= g) := by
  intro hts s hs
  have h := h hts s hs
  cases hx : x s with
  | ok a s₁ =>
    rw [wp_iff_of_ok hx] at h
    cases hy : y (.ofTokens ts e) with
    | ok b w₁ =>
      obtain ⟨ts', hts', hs', rfl, hV⟩ := (wp_iff_of_ok hy).1 h
      have := hf a b ts' hV hts' s₁ hs'
      simpa only [wp, bind_of_ok hx, bind_of_ok hy] using this
    | error err' w₁ => exact ((wp_iff_of_error hy).1 h).elim
  | error err s₁ =>
    rw [wp_iff_of_error hx] at h
    cases hy : y (.ofTokens ts e) with
    | ok b w₁ => exact ((wp_iff_of_ok hy).1 h).elim
    | error err' w₁ =>
      rw [wp_iff_of_error (bind_of_error hx), wp_iff_of_error (bind_of_error hy)]
      exact (wp_iff_of_error hy).1 h

theorem Alike.pure {a : α} {b : β} (h : V a b ts) : Alike all e ts V (pure a) (pure b) :=
  fun hts _ hs => ⟨ts, hts, hs, rfl, h⟩

theorem Alike.tooDeep : Alike all e ts V (throw .tooDeep) (throw .tooDeep) := fun _ _ _ => rfl

/-- A token of the stream and the token of bare words for it. -/
structure Marked (all : List Token) (e : TextEnd) (t t' : Token) : Prop where
  lexeme : t'.lexeme = t.lexeme
  place : e.placeOf all t'.line = t.place

theorem alike_peek : Alike all e ts (fun a b _ => Option.Rel (Marked all e) a b) peek peek := by
  intro hts s hs
  cases ts with
  | nil =>
    cases he : e.stray with
    | none =>
      refine hs.wp_peek_nil he fun s' hs' _ => ?_
      simp only [Words.ofTokens, List.map_nil, he, wp_peek_nil]
      exact ⟨[], hts, hs', rfl, .none⟩
    | some c =>
      refine hs.wp_peek_stray he fun s' _ => ?_
      simp [Words.ofTokens, he, TextEnd.error, TextEnd.placeOf_nil, TextEnd.place]
  | cons t ts =>
    refine hs.wp_peek_cons fun s' hs' _ => ?_
    simp only [Words.ofTokens, List.map_cons, wp_peek_cons]
    exact ⟨t :: ts, hts, hs', rfl, .some ⟨rfl, by simpa using TextEnd.placeOf_cons hts⟩⟩

theorem alike_next : Alike all e ts (fun a b _ => Option.Rel (Marked all e) a b) next next := by
  intro hts s hs
  cases ts with
  | nil =>
    cases he : e.stray with
    | none =>
      refine hs.wp_next_nil he fun s' hs' _ => ?_
      simp only [Words.ofTokens, List.map_nil, he, wp_next_nil]
      exact ⟨[], hts, hs', rfl, .none⟩
    | some c =>
      refine hs.wp_next_stray he fun s' _ => ?_
      simp [Words.ofTokens, he, TextEnd.error, TextEnd.placeOf_nil, TextEnd.place]
  | cons t ts =>
    refine hs.wp_next_cons fun s' hs' => ?_
    simp only [Words.ofTokens, List.map_cons, wp_next_cons]
    exact ⟨ts, (List.suffix_cons t ts).trans hts, hs', rfl,
      .some ⟨rfl, by simpa using TextEnd.placeOf_cons hts⟩⟩

theorem alike_fail_some {c : Complaint} {t t' : Token} (h : Marked all e t t') :
    Alike all e ts V (fail c (some t)) (fail c (some t')) := fun _ _ _ => by
  simp [h.place, Token.place]

/-- A computation that takes the lexeme `l` and complains by `c` about any other: it complains about
the place that looking ahead has come to. -/
def Expects {σ : Type} [TokenSource σ] (l : Lexeme) (c : Complaint) (x : Reading σ Unit) : Prop :=
  ∀ (Q : Unit → σ → Prop) (B : Stop SourceError → σ → Prop) (s : σ), wp x Q B s ↔
    wp peek (fun t s' => if t.map Token.lexeme = some l then wp next (fun _ => Q ()) B s'
      else wp (fail c none) Q B s') B s

theorem alike_of_expects {l : Lexeme} {c : Complaint} {x : Parse Unit} {y : Reading Words Unit}
    (hx : Expects l c x) (hy : Expects l c y) : Alike all e ts (fun a b _ => a = b) x y := by
  intro hts s hs
  rw [hx]
  cases ts with
  | nil =>
    cases he : e.stray with
    | none =>
      refine hs.wp_peek_nil he fun s' hs' hp => ?_
      rw [if_neg (by simp), wp_fail_none, hy]
      simp [Words.ofTokens, he, hp, TextEnd.placeOf_nil]
    | some ch =>
      refine hs.wp_peek_stray he fun s' _ => ?_
      rw [hy]
      simp [Words.ofTokens, he, TextEnd.error, TextEnd.placeOf_nil, TextEnd.place]
  | cons t ts =>
    refine hs.wp_peek_cons fun s' hs' hp => ?_
    by_cases hl : t.lexeme = l
    · simp only [Option.map_some, hl, if_true]
      refine hs'.wp_next_cons fun s'' hs'' => ?_
      rw [hy]
      simp only [Words.ofTokens, List.map_cons, wp_peek_cons, Option.map_some, hl, if_true,
        wp_next_cons]
      exact ⟨ts, (List.suffix_cons t ts).trans hts, hs'', rfl, trivial⟩
    · rw [if_neg (by simpa using hl), wp_fail_none, hy]
      simp [Words.ofTokens, hl, hp, TextEnd.placeOf_cons hts]

theorem alike_unexpected : Alike all e ts V unexpected unexpected := by
  intro hts s hs
  rw [wp_unexpected]
  cases ts with
  | nil =>
    cases he : e.stray with
    | none =>
      refine hs.wp_peek_nil he fun s' hs' hp => ?_
      simp [Words.ofTokens, he, hp, TextEnd.placeOf_nil]
    | some ch =>
      refine hs.wp_peek_stray he fun s' _ => ?_
      simp [Words.ofTokens, he, TextEnd.error, TextEnd.placeOf_nil, TextEnd.place]
  | cons t ts =>
    refine hs.wp_peek_cons fun s' hs' hp => ?_
    simp [Words.ofTokens, TextEnd.placeOf_cons hts, Token.place]

theorem alike_variableName : Alike all e ts (fun a b _ => a = b) variableName variableName := by
  intro hts s hs
  simp only [variableName, wp_bind]
  cases ts with
  | nil =>
    cases he : e.stray with
    | none =>
      refine hs.wp_next_nil he fun s' hs' hp => ?_
      simp [Words.ofTokens, he, hp, TextEnd.placeOf_nil]
    | some ch =>
      refine hs.wp_next_stray he fun s' _ => ?_
      simp [Words.ofTokens, he, TextEnd.error, TextEnd.placeOf_nil, TextEnd.place]
  | cons t ts =>
    refine hs.wp_next_cons fun s' hs' => ?_
    simp only [Words.ofTokens, List.map_cons, wp_next_cons, Option.map_some]
    split
    · exact ⟨ts, (List.suffix_cons t ts).trans hts, hs', rfl, rfl⟩
    · simp [TextEnd.placeOf_cons hts, Token.place]

/-- What the words say about the run holds of the tokens as well. -/
theorem Alike.takes {P : List Lexeme → β → Prop} (h : Alike all e ts V x y) (hy : Takes y P) :
    Alike all e ts (fun a b ts' => V a b ts' ∧
      ∃ u, ts.map Token.lexeme = u ++ ts'.map Token.lexeme ∧ P u b) x y := by
  intro hts s hs
  have hy := hy (.ofTokens ts e)
  refine wp_mono (h hts s hs) (fun a s' ha => ?_) fun _ _ h => h
  cases hr : y (.ofTokens ts e) with
  | ok b w' =>
    obtain ⟨ts', hts', hs', rfl, hV⟩ := (wp_iff_of_ok hr).1 ha
    obtain ⟨u, hu, -, hP⟩ := (wp_iff_of_ok hr).1 hy
    exact (wp_iff_of_ok hr).2 ⟨ts', hts', hs', rfl, hV, u, hu, hP⟩
  | error err w' => exact ((wp_iff_of_error hr).1 ha).elim

theorem alike_iterate {step : α → Parse (Option α)} {step' : α → Reading Words (Option α)}
    (hstep : ∀ a ts, Alike all e ts (fun o o' _ => o = o') (step a) (step' a))
    (hprog : Progresses step') (n m : Nat) (a : α) (hn : ts.length < n) (hm : ts.length < m) :
    Alike all e ts (fun b b' _ => b = b') (iterate step n a) (iterate step' m a) := by
  induction n generalizing m a ts with
  | zero => omega
  | succ n ih =>
    obtain _ | m := m
    · omega
    refine ((hstep a ts).takes (hprog a)).bind fun o o' ts' ⟨ho, u, hu, hne⟩ => ?_
    subst ho
    cases o with
    | none => exact .pure rfl
    | some b =>
      have hlen := congrArg List.length hu
      have hpos := List.length_pos_iff.2 (hne rfl)
      simp only [List.length_map, List.length_append] at hlen
      exact ih m b (by omega) (by omega)

theorem alike_loop {step : α → Parse (Option α)} {step' : α → Reading Words (Option α)}
    (hstep : ∀ a ts, Alike all e ts (fun o o' _ => o = o') (step a) (step' a))
    (hprog : Progresses step') (a : α) :
    Alike all e ts (fun b b' _ => b = b') (loop step a) (loop step' a) := by
  intro hts s hs
  rw [wp_loop]
  have hlen := hs.length_le_size
  have hsize : size (Words.ofTokens ts e) = ts.length := by simp [Words.ofTokens]
  simpa only [wp_loop, hsize] using
    alike_iterate hstep hprog (size s + 1) (ts.length + 1) a (by omega) (by omega) hts s hs

end

/-- A stream simulates the words it holds. -/
def Simulation.stream (all : List Token) (e : TextEnd) : Simulation TokenStream where
  rel V x y := ∀ ts, Alike all e ts (fun a b _ => V a b) x y
  token := Marked all e
  lexeme h := h.lexeme
  depths := Eq
  depths_le := Nat.le_of_eq
  depths_pred := Nat.succ.inj
  pure h _ := .pure h
  bind h hf ts := (h ts).bind fun a b ts' hab => hf a b hab ts'
  tooDeep hd hy _ := by
    rw [hy hd.symm]
    exact .tooDeep
  peek _ := alike_peek
  next _ := alike_next
  skipMark _ _ := alike_of_expects (fun _ _ _ => wp_skipMark) fun _ _ _ => wp_skipMark
  skipKeyword _ _ := alike_of_expects (fun _ _ _ => wp_skipKeyword) fun _ _ _ => wp_skipKeyword
  variableName _ := alike_variableName
  unexpected _ := alike_unexpected
  badTarget _ h _ := alike_fail_some h
  loop a hstep hprog _ := alike_loop hstep hprog a

theorem alike_expression (all : List Token) (e : TextEnd) (d : Nat) (ts : List Token) :
    Alike all e ts (fun a b _ => a = b) (expression d) (expression d) :=
  ((Simulation.stream all e).agree (Eq.refl d)).expression ts

namespace Alike
variable {α : Type} {x : Parse α} {y : Reading Words α} {ts : List Token} {e : TextEnd}
  {s : TokenStream}

theorem ok_of_words (h : Alike ts e ts (fun a b _ => a = b) x y) (hs : Holds s ts e) {a : α}
    {w : Words} (hy : y (.ofTokens ts e) = .ok a w) :
    ∃ s' ts', x s = .ok a s' ∧ ts' <:+ ts ∧ Holds s' ts' e ∧ w = .ofTokens ts' e := by
  have hrun := h (List.suffix_refl ts) s hs
  cases hx : x s with
  | ok b s' =>
    rw [wp_iff_of_ok hx, wp_iff_of_ok hy] at hrun
    obtain ⟨ts', hts', hs', hw, rfl⟩ := hrun
    exact ⟨s', ts', rfl, hts', hs', hw⟩
  | error err s' =>
    rw [wp_iff_of_error hx, wp_iff_of_ok hy] at hrun
    exact hrun.elim

theorem error_of_words (h : Alike ts e ts (fun a b _ => a = b) x y) (hs : Holds s ts e)
    {err : Stop SourceError} {w : Words} (hy : y (.ofTokens ts e) = .error err w) :
    ∃ s', x s = .error (e.locateStop ts err) s' := by
  have hrun := h (List.suffix_refl ts) s hs
  cases hx : x s with
  | ok b s' =>
    rw [wp_iff_of_ok hx, wp_iff_of_error hy] at hrun
    exact hrun.elim
  | error err' s' =>
    rw [wp_iff_of_error hx, wp_iff_of_error hy] at hrun
    exact ⟨s', by rw [hrun]⟩

theorem words_of_ok (h : Alike ts e ts (fun a b _ => a = b) x y) (hs : Holds s ts e) {a : α}
    {s' : TokenStream} (hx : x s = .ok a s') :
    ∃ ts', Holds s' ts' e ∧ y (.ofTokens ts e) = .ok a (.ofTokens ts' e) := by
  have hrun := h (List.suffix_refl ts) s hs
  rw [wp_iff_of_ok hx] at hrun
  cases hy : y (.ofTokens ts e) with
  | ok b w =>
    obtain ⟨ts', -, hs', rfl, rfl⟩ := (wp_iff_of_ok hy).1 hrun
    exact ⟨ts', hs', rfl⟩
  | error err w => exact ((wp_iff_of_error hy).1 hrun).elim

end Alike

def Words.parse (limit : Nat) (w : Words) : Except (Stop SourceError) Expr :=
  match program limit w with
  | .ok tree _ => .ok tree
  | .error err _ => .error err

/-- Parsing a text is parsing its words and finding the place of the error among its tokens. -/
theorem Holds.parse_eq {text : String} {ts : List Token} {e : TextEnd}
    (h : Holds (.ofText text) ts e) (limit : Nat) :
    parse limit text = ((Words.ofTokens ts e).parse limit).mapError (e.locateStop ts) := by
  have halike := (Simulation.stream ts e).program (Eq.refl limit) ts
  rw [parse, Words.parse, EStateM.run]
  cases hw : program limit (Words.ofTokens ts e) with
  | ok tree w =>
    obtain ⟨s', -, hs, -⟩ := halike.ok_of_words h hw
    rw [hs]
    rfl
  | error err w =>
    obtain ⟨s', hs⟩ := halike.error_of_words h hw
    rw [hs]
    rfl

theorem Holds.exists_of_parse_error {text : String} {ts : List Token} {e : TextEnd} {limit : Nat}
    {err : SourceError} (h : Holds (.ofText text) ts e)
    (hparse : parse limit text = .error (.error err)) :
    ∃ err', (Words.ofTokens ts e).parse limit = .error (.error err') ∧ err = e.locate ts err' := by
  rw [h.parse_eq] at hparse
  cases hw : (Words.ofTokens ts e).parse limit with
  | ok tree =>
    rw [hw] at hparse
    cases hparse
  | error stop =>
    rw [hw] at hparse
    cases stop with
    | tooDeep => cases hparse
    | error err' =>
      cases hparse
      exact ⟨err', rfl, rfl⟩

end ExprLang
