import ExprLang.Grammar
import ExprLang.Proofs.Outcome

/-!
# Bare words as a source of tokens

The lexemes of a text without their places. A token of this source stands at the place `(n, 0)`,
where `n` counts the lexemes from it to the end, so that an error tells at which lexeme it arose.

`Takes x P`: when `x` succeeds, it has taken a run `u` of words off the front, its result `a` is
such that `P u a`, and nothing else of the source has changed. `FailsBy E x w`: when `x` fails on
`w`, its error is as `E` says.
-/

namespace ExprLang

structure Words where
  left : List Lexeme
  /-- The character behind the last lexeme that begins none, if the text is cut short by one. -/
  stray : Option Char

namespace Words

def head? (w : Words) : Option Token := w.left.head?.map fun l => ⟨l, w.left.length, 0⟩

/-- Gives the next word and goes on to `after`, unless the text is cut short here. -/
def give (w after : Words) : EStateM.Result (Stop SourceError) Words (Option Token) :=
  match w.left, w.stray with
  | [], some c => .error (.error (.at .lexical (.strayCharacter c) 0 0)) w
  | _, _ => .ok w.head? after

instance : TokenSource Words where
  peek w := w.give w
  next w := w.give { w with left := w.left.tail }
  place w := (w.left.length, 0)
  size w := w.left.length

end Words

section
open TokenSource Grammar
variable {σ : Type} [TokenSource σ] {α : Type} {B : Stop SourceError → σ → Prop} {s : σ}

theorem isMark_iff {m : String} {l : Lexeme} : isMark (some m) l ↔ l = .mark m := by
  cases l <;> simp [isMark]
  exact eq_comm

theorem isKeyword_iff {k : String} {l : Lexeme} : isKeyword (some k) l ↔ l = .keyword k := by
  cases l <;> simp [isKeyword]
  exact eq_comm

theorem isSome_filter_iff {p : Lexeme → Bool} {l : Lexeme} (hp : ∀ l', p l' ↔ l' = l)
    (t : Option Token) : (t.filter (p ·.lexeme)).isSome ↔ t.map Token.lexeme = some l := by
  cases t <;> simp [hp]

@[simp] theorem wp_atEnd {Q : Bool → σ → Prop} :
    wp atEnd Q B s ↔ wp peek (fun t => Q t.isNone) B s := by
  simp [atEnd]

@[simp] theorem wp_peekIf {p : Lexeme → Bool} {Q : Option Token → σ → Prop} :
    wp (peekIf p) Q B s ↔ wp peek (fun t => Q (t.filter (p ·.lexeme))) B s := by
  simp [peekIf]

@[simp] theorem wp_atMark {m : String} {Q : Bool → σ → Prop} :
    wp (atMark m) Q B s ↔ wp peek (fun t => Q (t.map Token.lexeme = some (.mark m))) B s := by
  have h := fun t => Bool.eq_iff_iff.2
    ((isSome_filter_iff (fun _ => isMark_iff (m := m)) t).trans
      (decide_eq_true_iff (p := t.map Token.lexeme = some (.mark m))).symm)
  simp only [atMark, mark?, wp_bind, wp_peekIf, wp_pure, h]

@[simp] theorem wp_atKeyword {k : String} {Q : Bool → σ → Prop} :
    wp (atKeyword k) Q B s ↔
      wp peek (fun t => Q (t.map Token.lexeme = some (.keyword k))) B s := by
  have h := fun t => Bool.eq_iff_iff.2
    ((isSome_filter_iff (fun _ => isKeyword_iff (k := k)) t).trans
      (decide_eq_true_iff (p := t.map Token.lexeme = some (.keyword k))).symm)
  simp only [atKeyword, keyword?, wp_bind, wp_peekIf, wp_pure, h]

@[simp] theorem wp_skipMark {m : String} {Q : Unit → σ → Prop} :
    wp (skipMark m) Q B s ↔ wp peek (fun t s' =>
      if t.map Token.lexeme = some (.mark m) then wp next (fun _ => Q ()) B s'
      else wp (fail (.expectedMark m) none) Q B s') B s := by
  simp only [skipMark, wp_bind, wp_atMark, wp_ite, wp_discard, decide_eq_true_eq]

@[simp] theorem wp_skipKeyword {k : String} {Q : Unit → σ → Prop} :
    wp (skipKeyword k) Q B s ↔ wp peek (fun t s' =>
      if t.map Token.lexeme = some (.keyword k) then wp next (fun _ => Q ()) B s'
      else wp (fail (.expectedKeyword k) none) Q B s') B s := by
  simp only [skipKeyword, wp_bind, wp_atKeyword, wp_ite, wp_discard, decide_eq_true_eq]

@[simp] theorem wp_unexpected {Q : α → σ → Prop} :
    wp unexpected Q B s ↔ wp peek (fun t =>
      wp (fail (.unexpected (t.map Token.lexeme)) t) Q B) B s := by
  simp only [unexpected, wp_bind]

@[simp] theorem wp_fail_some {Q : α → σ → Prop} {c : Complaint} {t : Token} :
    wp (fail c (some t)) Q B s ↔ B (.error (.at .parse c t.line t.column)) s := Iff.rfl

@[simp] theorem wp_fail_none {Q : α → σ → Prop} {c : Complaint} :
    wp (fail c none) Q B s ↔ B (.error (.at .parse c (place s).1 (place s).2)) s := Iff.rfl

@[simp] theorem wp_loop {step : α → Reading σ (Option α)} {Q : α → σ → Prop} {a : α} :
    wp (loop step a) Q B s ↔ wp (iterate step (size s + 1) a) Q B s := Iff.rfl

end

section
open TokenSource Grammar
variable {α β : Type} {B : Stop SourceError → Words → Prop}

section
variable {Q : Option Token → Words → Prop} {l : Lexeme} {ls : List Lexeme} {st : Option Char}

@[simp] theorem wp_peek_cons :
    wp peek Q B (⟨l :: ls, st⟩ : Words) ↔ Q (some ⟨l, ls.length + 1, 0⟩) ⟨l :: ls, st⟩ := Iff.rfl

@[simp] theorem wp_peek_nil : wp peek Q B (⟨[], none⟩ : Words) ↔ Q none ⟨[], none⟩ := Iff.rfl

@[simp] theorem wp_peek_stray {c : Char} : wp peek Q B (⟨[], some c⟩ : Words) ↔
    B (.error (.at .lexical (.strayCharacter c) 0 0)) ⟨[], some c⟩ := Iff.rfl

@[simp] theorem wp_next_cons :
    wp next Q B (⟨l :: ls, st⟩ : Words) ↔ Q (some ⟨l, ls.length + 1, 0⟩) ⟨ls, st⟩ := Iff.rfl

@[simp] theorem wp_next_nil : wp next Q B (⟨[], none⟩ : Words) ↔ Q none ⟨[], none⟩ := Iff.rfl

@[simp] theorem wp_next_stray {c : Char} : wp next Q B (⟨[], some c⟩ : Words) ↔
    B (.error (.at .lexical (.strayCharacter c) 0 0)) ⟨[], some c⟩ := Iff.rfl

end

theorem wp_operator?_cons {Q : Option Token → Words → Prop} {op : String} {ls : List Lexeme}
    {st : Option Char} : wp (operator? none) Q B (⟨.operator op :: ls, st⟩ : Words) ↔
      Q (some ⟨.operator op, ls.length + 1, 0⟩) ⟨.operator op :: ls, st⟩ := Iff.rfl

theorem wp_operator?_of_not {Q : Option Token → Words → Prop} {l : Lexeme} {ls : List Lexeme}
    {st : Option Char} (hl : isOperator none l = false) :
    wp (operator? none) Q B (⟨l :: ls, st⟩ : Words) ↔ Q none ⟨l :: ls, st⟩ := by
  simp [operator?, Option.filter, hl]

@[simp] theorem words_place (w : Words) : place w = (w.left.length, 0) := rfl

@[simp] theorem words_size (w : Words) : size w = w.left.length := rfl

/-! ### What a computation takes -/

def Takes (x : Reading Words α) (P : List Lexeme → α → Prop) : Prop :=
  ∀ w, wp x (fun a w' => ∃ u, w.left = u ++ w'.left ∧ w'.stray = w.stray ∧ P u a)
    (fun _ _ => True) w

namespace Takes
variable {x : Reading Words α} {P P' : List Lexeme → α → Prop}

theorem mono (h : Takes x P) (hP : ∀ u a, P u a → P' u a) : Takes x P' := fun w =>
  wp_mono (h w) (fun a _ ⟨u, hl, hs, hu⟩ => ⟨u, hl, hs, hP u a hu⟩) fun _ _ h => h

protected theorem pure {a : α} (h : P [] a) : Takes (pure a) P := fun _ => ⟨[], rfl, rfl, h⟩

protected theorem throw (e : Stop SourceError) : Takes (throw e) P := fun _ => trivial

protected theorem fail (c : Complaint) (t : Option Token) : Takes (fail c t) P := fun w => by
  cases t <;> simp

protected theorem bind {f : α → Reading Words β} {Q : List Lexeme → β → Prop} (hx : Takes x P)
    (hf : ∀ u a, P u a → Takes (f a) fun v b => Q (u ++ v) b) : Takes (x >>= f) Q := by
  intro w
  rw [wp_bind]
  refine wp_mono (hx w) (fun a w₁ ⟨u, hl, hs, hu⟩ => ?_) fun _ _ h => h
  refine wp_mono (hf u a hu w₁) (fun b w₂ ⟨v, hl', hs', hv⟩ => ?_) fun _ _ h => h
  exact ⟨u ++ v, by rw [hl, hl', List.append_assoc], hs'.trans hs, hv⟩

protected theorem ite {c : Prop} [Decidable c] {y : Reading Words α} (hx : c → Takes x P)
    (hy : ¬ c → Takes y P) : Takes (if c then x else y) P := by
  split
  · exact hx ‹_›
  · exact hy ‹_›

end Takes

theorem takes_peek : Takes peek fun u _ => u = [] := by
  rintro ⟨_ | ⟨l, ls⟩, _ | c⟩ <;> simp

theorem takes_next : Takes next fun u t => u = (t.map Token.lexeme).toList := by
  rintro ⟨_ | ⟨l, ls⟩, _ | c⟩ <;> simp

theorem takes_discard : Takes (discard next) fun _ _ => True := by
  intro w
  rw [wp_discard]
  exact wp_mono (takes_next w) (fun _ _ ⟨u, hl, hs, _⟩ => ⟨u, hl, hs, trivial⟩) fun _ _ h => h

/-- Going on from the first word, with the rest of what is taken. -/
theorem Takes.after_next {g : Reading Words α} {P : List Lexeme → α → Prop} {l : Lexeme}
    (h : Takes g fun v a => P (l :: v) a) (ls : List Lexeme) (st : Option Char) :
    wp (do discard next; g)
      (fun a w' => ∃ u, l :: ls = u ++ w'.left ∧ w'.stray = st ∧ P u a) (fun _ _ => True)
      (⟨l :: ls, st⟩ : Words) := by
  simp only [wp_bind, wp_discard, wp_next_cons]
  refine wp_mono (h ⟨ls, st⟩) ?_ fun _ _ h => h
  rintro a w' ⟨v, hl, hs, hv⟩
  exact ⟨l :: v, by simpa using hl, hs, hv⟩

theorem takes_peekIf (p : Lexeme → Bool) : Takes (peekIf p) fun u _ => u = [] :=
  takes_peek.bind fun _ _ hu => .pure (by simpa using hu)

theorem takes_atEnd : Takes atEnd fun u _ => u = [] :=
  takes_peek.bind fun _ _ hu => .pure (by simpa using hu)

theorem takes_atMark (m : String) : Takes (atMark m) fun u _ => u = [] :=
  (takes_peekIf _).bind fun _ _ hu => .pure (by simpa using hu)

theorem takes_atKeyword (k : String) : Takes (atKeyword k) fun u _ => u = [] :=
  (takes_peekIf _).bind fun _ _ hu => .pure (by simpa using hu)

theorem takes_skipMark (m : String) : Takes (skipMark m) fun u _ => u = [.mark m] := by
  rintro ⟨_ | ⟨l, ls⟩, _ | c⟩ <;> simp

theorem takes_skipKeyword (k : String) : Takes (skipKeyword k) fun u _ => u = [.keyword k] := by
  rintro ⟨_ | ⟨l, ls⟩, _ | c⟩ <;> simp

theorem takes_variableName : Takes variableName fun u n => u = [.name n] := by
  rintro ⟨_ | ⟨l, ls⟩, _ | c⟩ <;> simp [variableName]
  all_goals split <;> simp_all

/-- A choice by the next word: if it is the keyword `k`, that is taken first. -/
theorem takes_ifKeyword {k : String} {x y : Reading Words α} {P : List Lexeme → α → Prop}
    (hx : Takes x fun v a => P (.keyword k :: v) a) (hy : Takes y P) :
    Takes (do if ← atKeyword k then (do discard next; x) else y) P := by
  rintro ⟨_ | ⟨l, ls⟩, st⟩
  · cases st with
    | none => simpa using hy ⟨[], none⟩
    | some c => simp
  · by_cases hl : l = .keyword k
    · subst hl
      simpa using hx.after_next ls st
    · simpa [hl] using hy ⟨l :: ls, st⟩

/-- A choice by the next word: if it is the mark `m`, that is left for `x`. -/
theorem takes_ifMark {m : String} {x y : Reading Words α} {P : List Lexeme → α → Prop}
    (hx : Takes x fun v a => (v ≠ [] → v.head? = some (.mark m)) → P v a) (hy : Takes y P) :
    Takes (do if ← atMark m then x else y) P := by
  rintro ⟨_ | ⟨l, ls⟩, st⟩
  · cases st with
    | none => simpa using hy ⟨[], none⟩
    | some c => simp
  · by_cases hl : l = .mark m
    · subst hl
      simp only [wp_bind, wp_atMark, wp_peek_cons, Option.map_some, wp_ite, decide_true, if_true]
      refine wp_mono (hx ⟨_ :: ls, st⟩) ?_ fun _ _ h => h
      rintro a w' ⟨v, hv, hs, ha⟩
      refine ⟨v, hv, hs, ha fun hne => ?_⟩
      cases v with
      | nil => exact absurd rfl hne
      | cons l v =>
        obtain ⟨rfl, -⟩ := List.cons.inj hv
        rfl
    · simpa [hl] using hy ⟨l :: ls, st⟩

/-- An invariant of the words taken so far and the value carried round. -/
theorem takes_iterate {step : α → Reading Words (Option α)} (J F : List Lexeme → α → Prop)
    (hF : ∀ u a, J u a → F u a)
    (hstep : ∀ u a, J u a → Takes (step a) fun v o =>
      o.elim (F (u ++ v) a) fun b => J (u ++ v) b) (n : Nat) {u : List Lexeme} {a : α}
    (ha : J u a) : Takes (iterate step n a) fun v b => F (u ++ v) b := by
  induction n generalizing u a with
  | zero => exact .pure (by simpa using hF u a ha)
  | succ n ih =>
    refine (hstep u a ha).bind fun v o ho => ?_
    cases o with
    | none => exact .pure (by simpa using ho)
    | some b => exact (ih ho).mono fun v' b' h => by simpa using h

theorem takes_loop {step : α → Reading Words (Option α)} (J F : List Lexeme → α → Prop)
    (hF : ∀ u a, J u a → F u a)
    (hstep : ∀ u a, J u a → Takes (step a) fun v o =>
      o.elim (F (u ++ v) a) fun b => J (u ++ v) b) {a : α} (ha : J [] a) :
    Takes (loop step a) F := by
  intro w
  rw [wp_loop]
  exact takes_iterate J F hF hstep (size w + 1) ha w

/-- Each round of a loop that goes on takes a word. -/
def Progresses (step : α → Reading Words (Option α)) : Prop :=
  ∀ a, Takes (step a) fun u o => o.isSome → u ≠ []

/-- Such a loop is left by its own condition, not for want of rounds. -/
theorem Progresses.wp_iterate {step : α → Reading Words (Option α)} (hprog : Progresses step)
    {J F : α → Words → Prop} (hstep : ∀ a w, J a w → wp (step a)
      (fun o w' => o.elim (F a w') fun b => J b w') B w) {n : Nat} {a : α} {w : Words} (ha : J a w)
    (hn : w.left.length < n) : wp (iterate step n a) F B w := by
  induction n generalizing a w with
  | zero => omega
  | succ n ih =>
    have hround := hstep a w ha
    have htakes := hprog a w
    rw [iterate]
    cases hr : step a w with
    | error e w' =>
      rw [wp_iff_of_error (bind_of_error hr)]
      exact (wp_iff_of_error hr).1 hround
    | ok o w' =>
      rw [wp_iff_of_ok hr] at hround htakes
      rw [wp, bind_of_ok hr]
      cases o with
      | none => exact hround
      | some b =>
        obtain ⟨u, hu, -, hne⟩ := htakes
        have hpos := List.length_pos_iff.2 (hne rfl)
        rw [hu, List.length_append] at hn
        exact ih hround (by omega)

theorem Progresses.wp_loop {step : α → Reading Words (Option α)} (hprog : Progresses step)
    {J F : α → Words → Prop} (hstep : ∀ a w, J a w → wp (step a)
      (fun o w' => o.elim (F a w') fun b => J b w') B w) {a : α} {w : Words} (ha : J a w) :
    wp (loop step a) F B w :=
  hprog.wp_iterate hstep ha (Nat.lt_succ_self w.left.length)

theorem Progresses.takes_iterate {step : α → Reading Words (Option α)} (hprog : Progresses step)
    (n : Nat) (a : α) : Takes (iterate step n a) fun _ _ => True :=
  ExprLang.takes_iterate (fun _ _ => True) (fun _ _ => True) (fun _ _ h => h)
    (fun _ b _ => (hprog b).mono fun _ o _ => by cases o <;> trivial) n (u := []) trivial

theorem Progresses.takes_loop {step : α → Reading Words (Option α)} (hprog : Progresses step)
    (a : α) : Takes (loop step a) fun _ _ => True :=
  fun w => hprog.takes_iterate (size w + 1) a w

/-- A run over `w₀` has taken `u` and come to `w`. -/
structure Past (w₀ : Words) (u : List Lexeme) (w : Words) : Prop where
  left : w₀.left = u ++ w.left
  stray : w.stray = w₀.stray

namespace Past
variable {w₀ w w' : Words} {u v : List Lexeme}

theorem refl (w : Words) : Past w [] w := ⟨rfl, rfl⟩

theorem trans (h : Past w₀ u w) (h' : Past w v w') : Past w₀ (u ++ v) w' :=
  ⟨by rw [h.left, h'.left, List.append_assoc], h'.stray.trans h.stray⟩

theorem next {l : Lexeme} {ls : List Lexeme} {st : Option Char} (h : Past w₀ u ⟨l :: ls, st⟩) :
    Past w₀ (u ++ [l]) ⟨ls, st⟩ :=
  h.trans ⟨rfl, rfl⟩

theorem length (h : Past w₀ u w) : w₀.left.length = u.length + w.left.length := by
  rw [h.left, List.length_append]

end Past

/-- What holds of the value carried round and the words that are left before a round that goes on
holds before the next. -/
def KeptBy (J : α → Words → Prop) (step : α → Reading Words (Option α)) : Prop :=
  ∀ a w, J a w → wp (step a) (fun o w' => ∀ b, o = some b → J b w') (fun _ _ => True) w

/-- If `x` fails on `w`, then with an error that is as `E` says. -/
def FailsBy (E : Stop SourceError → Prop) (x : Reading Words α) (w : Words) : Prop :=
  wp x (fun _ _ => True) (fun err _ => E err) w

namespace FailsBy
variable {E E' : Stop SourceError → Prop} {x y : Reading Words α} {w : Words}

theorem mono (h : FailsBy E x w) (hE : ∀ err, E err → E' err) : FailsBy E' x w :=
  wp_mono h (fun _ _ h => h) fun err _ => hE err

protected theorem pure {a : α} : FailsBy E (pure a) w := trivial

protected theorem throw {err : Stop SourceError} (h : E err) :
    FailsBy E (throw err : Reading Words α) w := h

protected theorem ite {c : Prop} [Decidable c] (hx : c → FailsBy E x w)
    (hy : ¬ c → FailsBy E y w) : FailsBy E (if c then x else y) w := by
  split
  · exact hx ‹_›
  · exact hy ‹_›

/-- What goes on from `x` fails as it does, where `x` has come to. -/
protected theorem bind {f : α → Reading Words β} {P : List Lexeme → α → Prop} (h : FailsBy E x w)
    (hx : Takes x P) (hf : ∀ u a w', Past w u w' → P u a → FailsBy E (f a) w') :
    FailsBy E (x >>= f) w := by
  have htakes := hx w
  unfold FailsBy at h ⊢
  rw [wp_bind]
  cases hr : x w with
  | ok a w' =>
    rw [wp_iff_of_ok hr] at htakes ⊢
    obtain ⟨u, hl, hs, hP⟩ := htakes
    exact hf u a w' ⟨hl, hs⟩ hP
  | error err w' =>
    rw [wp_iff_of_error hr] at h ⊢
    exact h

protected theorem loop {step : α → Reading Words (Option α)} {J : α → Words → Prop}
    (hkeep : KeptBy J step) (hstep : ∀ a w, J a w → FailsBy E (step a) w) {a : α} (ha : J a w) :
    FailsBy E (loop step a) w := by
  rw [FailsBy, ExprLang.wp_loop]
  generalize size w + 1 = n
  induction n generalizing a w with
  | zero => trivial
  | succ n ih =>
    have hkept := hkeep a w ha
    have hround := hstep a w ha
    rw [iterate]
    cases hr : step a w with
    | error err w' =>
      rw [wp_iff_of_error (bind_of_error hr)]
      exact (wp_iff_of_error hr).1 hround
    | ok o w' =>
      rw [wp, bind_of_ok hr]
      cases o with
      | none => trivial
      | some b => exact ih ((wp_iff_of_ok hr).1 hkept b rfl)

end FailsBy

end

end ExprLang
