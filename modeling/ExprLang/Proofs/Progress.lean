import ExprLang.Proofs.Asking
import ExprLang.Proofs.Depth
import ExprLang.Proofs.DepthLimit
import ExprLang.Proofs.Recognition

/-!
# Reading makes progress and ends

A call that succeeds has taken a token, and so has every round of a loop that goes on (`Consumes`).
A loop therefore comes to its end by itself, before the rounds that it is given are used up
(`repeats_loop`), and calls nest no deeper than the tokens allow (`Holds.parse_ne_tooDeep`).
-/

namespace ExprLang
open TokenSource Grammar
open TokenStream (Moves)

section
variable {α : Type}

/-- What repeating `step` from `a` and `s` on comes to, for as long as it answers. -/
inductive Repeats (step : α → Parse (Option α)) :
    α → TokenStream → EStateM.Result (Stop SourceError) TokenStream α → Prop
  | done {a : α} {s s' : TokenStream} (h : step a s = .ok none s') : Repeats step a s (.ok a s')
  | failed {a : α} {s s' : TokenStream} {stop : Stop SourceError} (h : step a s = .error stop s') :
      Repeats step a s (.error stop s')
  | again {a b : α} {s s' : TokenStream} {r : EStateM.Result (Stop SourceError) TokenStream α}
      (h : step a s = .ok (some b) s') (hs : Repeats step b s' r) : Repeats step a s r

theorem repeats_iterate {step : α → Parse (Option α)} (h : ∀ a, Consumes (·.isSome) (step a))
    {n : Nat} {a : α} {s : TokenStream} (hn : s.size < n) :
    Repeats step a s (iterate step n a s) := by
  induction n generalizing a s with
  | zero => omega
  | succ n ih =>
    cases hr : step a s with
    | error stop s' =>
      have hround : iterate step (n + 1) a s = .error stop s' := bind_of_error hr
      rw [hround]
      exact .failed hr
    | ok o s' =>
      cases o with
      | none =>
        have hround : iterate step (n + 1) a s = .ok a s' := bind_of_ok hr
        rw [hround]
        exact .done hr
      | some b =>
        have hround : iterate step (n + 1) a s = iterate step n b s' := bind_of_ok hr
        obtain ⟨k, hk, hmoves⟩ := h a s s' (some b) hr rfl
        have hsize := hmoves.size_le
        rw [hround]
        exact .again hr (ih (by omega))

/-- The rounds that a loop is given are more than it needs. -/
theorem repeats_loop {step : α → Parse (Option α)} (h : ∀ a, Consumes (·.isSome) (step a)) (a : α)
    (s : TokenStream) : Repeats step a s (loop step a s) :=
  repeats_iterate h (Nat.lt_succ_self s.size)

/-- The productions that have the depth `d` left, as they read a stream and as they read words. -/
theorem counts (d : Nat) : counting.simulation.Agree d d := counting.simulation.agree rfl

/-- The rounds of the loops in productions that have the depth `d` left. -/
inductive Round (d : Nat) : {α : Type} → (α → Parse (Option α)) → Prop
  | statements : Round d (nextStatement (expression d))
  | expressions (stop separator : String) : Round d (nextItem stop separator (expression d))
  | names (stop separator : String) : Round d (nextItem stop separator variableName)
  | calls : Round d (nextCall (arguments d))
  | operations (bound : Nat) : Round d (nextOperation d (atom d) (climb d) bound)

theorem Round.consumes {d : Nat} {step : α → Parse (Option α)} (h : Round d step) (a : α) :
    Consumes (·.isSome) (step a) := by
  cases h with
  | statements =>
    exact consumes_of_counting ((counts d).nextStatement a) (progresses_nextStatement d a)
  | expressions stop sep =>
    exact consumes_of_counting (counting.simulation.nextItem (counts d).expression a)
      (progresses_nextItem stop sep (takes_expression_ne_nil d) a)
  | names stop sep =>
    exact consumes_of_counting (counting.simulation.nextItem counting.variableName a)
      (progresses_nextItem stop sep takes_variableName_ne_nil a)
  | calls => exact consumes_of_counting ((counts d).nextCall a) (progresses_nextCall d a)
  | operations bound =>
    exact consumes_of_counting ((counts d).nextOperation bound a)
      (progresses_nextOperation d bound a)

end

/-- What a production can be called for. -/
inductive Production where
  | program
  | expression
  | atom
  | primary
  | block
  | conditional
  | truth
  | function
  | variableName
  | arguments (callee : Expr)
  | calls (callee : Expr)
  | climb (bound : Nat) (left : Expr)
  | expressions (start stop separator : String)
  | names (start stop separator : String)

namespace Production

/-- The call with the depth `d` left, without its answer. -/
def run (d : Nat) : Production → Parse Unit
  | program => discard (Grammar.program d)
  | expression => discard (Grammar.expression d)
  | atom => discard (Grammar.atom d)
  | primary => discard (Grammar.primary d)
  | block => discard (Grammar.block d)
  | conditional => discard (Grammar.conditional d)
  | truth => discard Grammar.truth
  | function => discard (Grammar.function d)
  | variableName => discard Grammar.variableName
  | arguments callee => discard (Grammar.arguments d callee)
  | calls callee => discard (Grammar.calls d callee)
  | climb bound left => discard (Grammar.climb d bound left)
  | expressions start stop separator =>
    discard (delimited start stop separator (Grammar.expression d))
  | names start stop separator => discard (delimited start stop separator Grammar.variableName)

theorem moves_run (d : Nat) (p : Production) (s : TokenStream) :
    ∃ k, s.Moves k (leaves (p.run d) s) := by
  have hdiscard : ∀ {α : Type} {x : Parse α} {y : Reading Words α}, counting.rel Eq x y →
      ∃ k, s.Moves k (leaves (discard x) s) := by
    intro α x y h
    rw [discard_eq]
    refine moves_of_counting (V := Eq) (y := y >>= fun _ => pure ()) ?_ s
    exact counting.step h fun _ => counting.pure rfl
  have hd := counts d
  cases p with
  | program => exact hdiscard (counting.simulation.program rfl)
  | expression => exact hdiscard hd.expression
  | atom => exact hdiscard hd.atom
  | primary => exact hdiscard hd.primary
  | block => exact hdiscard hd.block
  | conditional => exact hdiscard hd.conditional
  | truth => exact hdiscard counting.simulation.truth
  | function => exact hdiscard hd.function
  | variableName => exact hdiscard counting.variableName
  | arguments callee => exact hdiscard (hd.arguments callee)
  | calls callee => exact hdiscard (hd.calls callee)
  | climb bound left => exact hdiscard (hd.climb bound left)
  | expressions start stop separator => exact hdiscard (hd.expressions start stop separator)
  | names start stop separator => exact hdiscard (counting.simulation.names start stop separator)

/-- What is for an expression, an operand or its first part takes a token when it succeeds. -/
theorem consumes_run (d : Nat) {p : Production} (hp : p ∈ [primary, atom, expression])
    {s s' : TokenStream} (h : p.run d s = .ok () s') : ∃ k, 0 < k ∧ s.Moves k s' := by
  have hdiscard : ∀ {x : Parse Expr} {y : Reading Words Expr}, counting.rel Eq x y → Takes y Reads →
      discard x s = .ok () s' → ∃ k, 0 < k ∧ s.Moves k s' := by
    intro x y hx hy h
    rw [discard_eq] at h
    obtain ⟨e, s₁, he, hpure⟩ := ok_of_bind h
    cases hpure
    have hconsumes : Consumes (fun _ => True) x :=
      consumes_of_counting hx (hy.mono fun _ _ h _ => h.derives.ne_nil)
    exact hconsumes s s' e he trivial
  simp only [List.mem_cons, List.not_mem_nil, or_false] at hp
  rcases hp with rfl | rfl | rfl
  · exact hdiscard (counts d).primary (sound d).primary h
  · exact hdiscard (counts d).atom (sound d).atom h
  · exact hdiscard (counts d).expression (sound d).expression h

end Production

/-- Depth is not what is wanting where there are five levels for each token. -/
theorem Holds.parse_ne_tooDeep {text : String} {ts : List Token} {e : TextEnd} {limit : Nat}
    (h : Holds (.ofText text) ts e) (hlimit : 5 * ts.length + 6 ≤ limit) :
    parse limit text ≠ .error .tooDeep := by
  have hwords : (Words.ofTokens ts e).parse limit ≠ .error .tooDeep :=
    Words.parse_ne_tooDeep (by simpa [Words.ofTokens] using hlimit)
  rw [h.parse_eq]
  cases hw : (Words.ofTokens ts e).parse limit with
  | ok tree =>
    intro h
    cases h
  | error stop =>
    cases stop with
    | tooDeep => exact absurd hw hwords
    | error err =>
      intro h
      cases h

theorem parse_cases {limit : Nat} {text : String} (h : parse limit text ≠ .error .tooDeep) :
    (∃ items, parse limit text = .ok (.block items)) ∨
      ∃ err, parse limit text = .error (.error err) ∧
        (err.stage = .lexical ∨ err.stage = .parse) := by
  cases hp : parse limit text with
  | ok tree =>
    obtain ⟨ts, e, ps, -, -, -, rfl⟩ := reads_of_parse hp
    exact .inl ⟨_, rfl⟩
  | error stop =>
    cases stop with
    | tooDeep => exact absurd hp h
    | error err => exact .inr ⟨err, rfl, stage_of_parse hp⟩

/-- Parsing a text comes to a program or to an error in the text, and to the same one however much
deeper than five levels a token it may nest. A call of a production, however it ends, only takes
tokens off the stream. One that is for an expression, an operand or its first part takes at least
one when it succeeds. Each loop repeats its round until that has no answer or fails, and takes at
least one token in every round that answers. -/
theorem parsing_progresses_and_ends :
    (∀ text, ∃ ts e result, Holds (.ofText text) ts e ∧
      (∀ limit, 5 * ts.length + 6 ≤ limit → parse limit text = result) ∧
      ((∃ items, result = .ok (.block items)) ∨
        ∃ err, result = .error (.error err) ∧ (err.stage = .lexical ∨ err.stage = .parse))) ∧
    (∀ {s s' : TokenStream} {k ts e}, s.Moves k s' → Holds s ts e →
      k ≤ ts.length ∧ Holds s' (ts.drop k) e) ∧
    (∀ d (p : Production) (s : TokenStream), ∃ k, s.Moves k (leaves (p.run d) s)) ∧
    (∀ d, ∀ p ∈ [Production.primary, .atom, .expression], ∀ (s s' : TokenStream),
      p.run d s = .ok () s' → ∃ k, 0 < k ∧ s.Moves k s') ∧
    ∀ {d α} {step : α → Parse (Option α)}, Round d step → ∀ a (s : TokenStream),
      Repeats step a s (loop step a s) ∧
      ∀ b s', step a s = .ok (some b) s' → ∃ k, 0 < k ∧ s.Moves k s' := by
  refine ⟨fun text => ?_, Moves.holds, fun d p => p.moves_run d, fun d p hp s s' => ?_, ?_⟩
  · obtain ⟨ts, e, hs⟩ := Holds.exists_of_lookahead (.ofText text) rfl
    have hdeep := hs.parse_ne_tooDeep (Nat.le_refl _)
    exact ⟨ts, e, parse (5 * ts.length + 6) text, hs,
      fun limit hlimit => parse_of_more_depth hlimit text hdeep, parse_cases hdeep⟩
  · exact Production.consumes_run d hp
  · intro d α step hround a s
    exact ⟨repeats_loop hround.consumes a s, fun b s' h => hround.consumes a s s' (some b) h rfl⟩

end ExprLang
