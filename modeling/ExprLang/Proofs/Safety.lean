import ExprLang.Interpret
import ExprLang.Proofs.Evaluation
import ExprLang.Proofs.Render

/-!
# Programs fail only for what they do

A store is regular if its numbers are doubles and its closures have bodies that a program can hold.
Interpreting a text keeps the store regular, and what it may fail with is little: an error in the
text, an undefined name, an operand that is no number, a division by zero, a call of something that
is no function, or want of depth.
-/

namespace ExprLang

def Number.IsDouble (n : Number) : Prop := ∃ x, n = .real x

def Value.Regular : Value → Prop
  | .number n => n.IsDouble
  | .closure _ _ body _ => WellFormed body
  | _ => True

/-- The errors that are a program's own. -/
def EvalError.Ordinary : EvalError → Prop
  | undefined _ | notNumber _ | divideByZero | notCallable _ => True
  | badTarget _ | unknownOperator .. | notExpression _ | overflow _ => False

theorem EvalError.Ordinary.message {e : EvalError} (h : e.Ordinary) :
    e.isInternal = false ∧ ((∃ rest, e.message = "Undefined variable " ++ rest) ∨
      (∃ rest, e.message = "Expected number but got " ++ rest) ∨
      (∃ rest, e.message = "Cannot call " ++ rest) ∨ e.message = "Divide by zero") := by
  cases e with
  | undefined n => exact ⟨rfl, .inl ⟨_, rfl⟩⟩
  | notNumber v => exact ⟨rfl, .inr (.inl ⟨_, rfl⟩)⟩
  | notCallable v => exact ⟨rfl, .inr (.inr (.inl ⟨_, rfl⟩))⟩
  | divideByZero => exact ⟨rfl, .inr (.inr (.inr rfl))⟩
  | badTarget | unknownOperator | notExpression | overflow => exact h.elim

theorem Value.Regular.display {v : Value} (h : v.Regular) : ∃ shown, v.display = .ok shown := by
  cases v with
  | number n =>
    obtain ⟨x, rfl⟩ := h
    exact ⟨_, rfl⟩
  | text | truth | closure | native => exact ⟨_, rfl⟩

theorem Operator.isSome_ofText? {op : String} (hop : IsOperator op) (hne : op ≠ "=") :
    (ofText? op).isSome := by
  rw [IsOperator, Grammar.precedence.eq_def] at hop
  split at hop
  case h_1 => exact absurd rfl hne
  case h_15 => cases hop
  all_goals rfl

theorem Number.isDouble_arithmetic {f : Number → Number → Except Overflow Number}
    (hf : f ∈ arithmetic) {m n : Number} (hm : m.IsDouble) (hn : n.IsDouble) :
    ∃ k, k.IsDouble ∧ f m n = .ok k := by
  obtain ⟨x, rfl⟩ := hm
  obtain ⟨y, rfl⟩ := hn
  simp only [arithmetic, List.mem_cons, List.not_mem_nil, or_false] at hf
  rcases hf with rfl | rfl | rfl | rfl | rfl
  case inr.inr.inr.inr =>
    show ∃ k : Number, k.IsDouble ∧ (if x.isInf then _ else _) = _
    split
    · exact ⟨_, ⟨_, rfl⟩, rfl⟩
    · exact ⟨_, ⟨_, rfl⟩, rfl⟩
  all_goals exact ⟨_, ⟨_, rfl⟩, rfl⟩

theorem WellFormed.of_mem_parts {e e' : Expr} (h : WellFormed e) (he' : e' ∈ e.parts) :
    WellFormed e' := by
  cases h with
  | number | text | truth | name | lambda => cases he'
  | call hc ha =>
    rcases List.mem_cons.1 he' with rfl | he'
    · exact hc
    · exact ha e' he'
  | cond ht hy hn =>
    rcases List.mem_cons.1 he' with rfl | he'
    · exact ht
    rcases List.mem_cons.1 he' with rfl | he'
    · exact hy
    · exact hn e' (Option.mem_toList.1 he')
  | assign _ hv =>
    rw [List.mem_singleton.1 he']
    exact hv
  | binary _ _ hl hr =>
    rcases List.mem_cons.1 he' with rfl | he'
    · exact hl
    · rw [List.mem_singleton.1 he']
      exact hr
  | block _ hi => exact hi e' he'

/-- A program, or a tree inside one. -/
def Parsed (e : Expr) : Prop := WellFormed e ∨ WellFormedProgram e

namespace Parsed

theorem of_mem_parts {e e' : Expr} (h : Parsed e) (he' : e' ∈ e.parts) : Parsed e' := by
  rcases h with h | ⟨items, rfl, hitems⟩
  · exact .inl (h.of_mem_parts he')
  · exact .inl (hitems e' he')

/-- Only a block is a program. -/
theorem wellFormed {e : Expr} (h : Parsed e) (hne : ∀ items, e ≠ .block items) : WellFormed e := by
  rcases h with h | ⟨items, rfl, -⟩
  · exact h
  · exact absurd rfl (hne items)

end Parsed

theorem displayAll_of_regular {vs : List Value} (hvs : ∀ v ∈ vs, v.Regular) :
    ∃ shown, Eval.displayAll vs = .ok shown := by
  induction vs with
  | nil => exact ⟨[], rfl⟩
  | cons v vs ih =>
    obtain ⟨hv, hvs⟩ := List.forall_mem_cons.1 hvs
    obtain ⟨s, hs⟩ := hv.display
    obtain ⟨shown, hshown⟩ := ih hvs
    refine ⟨s :: shown, ?_⟩
    rw [Eval.displayAll, hs, hshown]
    rfl

def Discipline.regular : Discipline .builtins where
  store st := st.All Value.Regular
  later _ _ := True
  value v _ := v.Regular
  tree e _ _ := Parsed e
  error := EvalError.Ordinary
  later_refl _ := trivial
  later_trans _ _ := trivial
  value_later hv _ := hv
  tree_later he _ := he
  tree_part := Parsed.of_mem_parts
  number x _ := ⟨x, rfl⟩
  text _ _ := trivial
  truth _ _ := trivial
  read hst _ hv := hst.get? hv
  unread _ _ _ := trivial
  assigned hst _ hv _ := ⟨hst.define hv, trivial⟩
  unassigned _ _ _ := trivial
  badTarget he hne := by
    cases he.wellFormed nofun
    exact absurd rfl (hne _)
  closure hst he := by
    cases he.wellFormed nofun with
    | lambda _ hb => exact ⟨hb, hst, trivial⟩
  enter hst hv hargs := ⟨.inl hv, (hst.extend _).bindParams hargs trivial, trivial⟩
  native {_ f args st} hst _ hargs := by
    refine wp_mono (Host.wp_print args st) ?_ ?_
    · rintro v st' ⟨rfl, t, rfl⟩
      exact ⟨trivial, hst, trivial⟩
    · rintro err st' ⟨⟨o, ho, -⟩, -⟩
      obtain ⟨shown, hshown⟩ := displayAll_of_regular hargs
      rw [hshown] at ho
      cases ho
  notCallable _ := trivial
  notNumber _ := trivial
  divideByZero := trivial
  calculated hf hm hn := by
    obtain ⟨k, hk, hr⟩ := Number.isDouble_arithmetic hf hm hn
    rw [hr]
    exact hk
  unknownOperator he hnone := by
    cases he.wellFormed nofun with
    | binary hop hne _ _ =>
      have hsome := Operator.isSome_ofText? hop hne
      rw [hnone] at hsome
      cases hsome
  alien he := by cases he.wellFormed nofun

/-- The failures that are a program's own. -/
def Failure.Ordinary : Failure → Prop
  | .source _ | .tooDeep => True
  | .evaluation e => e.Ordinary
  | _ => False

/-- They are reported, and not as internal. -/
theorem Failure.Ordinary.exists_notice {f : Failure} (h : f.Ordinary) :
    f.foreign? = none ∧ ∃ n, f.notice? = some n ∧ n.isInternal = false := by
  cases f with
  | source | tooDeep => exact ⟨rfl, _, rfl, rfl⟩
  | evaluation e =>
    cases e with
    | undefined | notNumber | divideByZero | notCallable => exact ⟨rfl, _, rfl, rfl⟩
    | badTarget | unknownOperator | notExpression | overflow => exact h.elim
  | language | interrupt | exit | noResult | undecodable | foreign => exact h.elim

theorem Failure.ordinary_ofParse (e : Stop SourceError) : (Failure.ofParse e).Ordinary := by
  cases e <;> trivial

/-- A program that was parsed keeps the store regular, and what it fails with is its own fault. -/
theorem wp_evaluate_program (limit : Nat) {p : Expr} (hp : WellFormedProgram p) {st : Store}
    (hst : st.All Value.Regular) : wp (evaluate .builtins limit p Store.root)
      (fun v st' => v.Regular ∧ st'.All Value.Regular)
      (fun e st' => (Failure.ofEval e).Ordinary ∧ st'.All Value.Regular) st := by
  refine wp_mono (Discipline.regular.wp_evaluate limit p Store.root st hst (.inr hp)) ?_ ?_
  · intro v st' hdone
    exact ⟨hdone.value, hdone.store⟩
  · rintro (_ | e) st' hstop
    · exact ⟨trivial, hstop⟩
    · exact hstop

/-- How interpreting `text` from `st` may fail, and with which store. -/
inductive Failure.Orderly (limit : Nat) (text : String) (st : Store) : Failure → Store → Prop
  | source {e : SourceError} (hparse : parse limit text = .error (.error e))
      (hstage : e.stage = .lexical ∨ e.stage = .parse) : Orderly limit text st (.source e) st
  | evaluation {e : EvalError} {st' : Store} (he : e.Ordinary) :
      Orderly limit text st (.evaluation e) st'
  | tooDeep {st' : Store} : Orderly limit text st .tooDeep st'

theorem Failure.Orderly.ordinary {limit : Nat} {text : String} {st st' : Store} {f : Failure}
    (h : f.Orderly limit text st st') : f.Ordinary := by
  cases h with
  | source | tooDeep => trivial
  | evaluation he => exact he

theorem wp_interpret (limit : Nat) (text : String) {st : Store} (hst : st.All Value.Regular) :
    wp (interpret .builtins limit text Store.root) (fun v st' => v.Regular ∧ st'.All Value.Regular)
      (fun f st' => f.Orderly limit text st st' ∧ st'.All Value.Regular) st := by
  cases hparse : parse limit text with
  | error err =>
    refine (wp_iff_of_error (interpret_of_unparsed hparse)).2 ⟨?_, hst⟩
    cases err with
    | tooDeep => exact .tooDeep
    | error e => exact .source hparse (stage_of_parse hparse)
  | ok p =>
    have hrun := wp_evaluate_program limit (wellFormedProgram_of_parse hparse) hst
    cases hr : evaluate .builtins limit p Store.root st with
    | ok v st' =>
      exact (wp_iff_of_ok (interpret_of_value hparse hr)).2 ((wp_iff_of_ok hr).1 hrun)
    | error err st' =>
      obtain ⟨hown, hst'⟩ := (wp_iff_of_error hr).1 hrun
      refine (wp_iff_of_error (interpret_of_failure hparse hr)).2 ⟨?_, hst'⟩
      cases err with
      | tooDeep => exact .tooDeep
      | error e => exact .evaluation hown

/-- The store after interpreting texts one after another in the root, each within its own depth; one
that fails leaves what it did before. -/
def interpretAll : List (Nat × String) → Store → Store
  | [], st => st
  | (limit, text) :: runs, st => match interpret .builtins limit text Store.root st with
    | .ok _ st' | .error _ st' => interpretAll runs st'

theorem regular_interpretAll (runs : List (Nat × String)) {st : Store}
    (hst : st.All Value.Regular) : (interpretAll runs st).All Value.Regular := by
  induction runs generalizing st with
  | nil => exact hst
  | cons run runs ih =>
    obtain ⟨limit, text⟩ := run
    have hrun := wp_interpret limit text hst
    rw [interpretAll]
    cases hr : interpret .builtins limit text Store.root st with
    | ok v st' => exact ih ((wp_iff_of_ok hr).1 hrun).2
    | error f st' => exact ih ((wp_iff_of_error hr).1 hrun).2

/-- Whatever was interpreted before, a text has a value that can be shown, or is refused before any
of it is evaluated, or fails for what it did, or runs out of depth. -/
theorem interpret_fails_orderly (runs : List (Nat × String)) (limit : Nat) (text : String) :
    match interpret .builtins limit text Store.root (interpretAll runs Store.initial) with
    | .ok v _ => ∃ shown, v.display = .ok shown
    | .error f st' =>
      (∃ e, f = .source e ∧ parse limit text = .error (.error e) ∧
        (e.stage = .lexical ∨ e.stage = .parse) ∧ st' = interpretAll runs Store.initial) ∨
      (∃ e, f = .evaluation e ∧ e.isInternal = false ∧
        ((∃ rest, e.message = "Undefined variable " ++ rest) ∨
          (∃ rest, e.message = "Expected number but got " ++ rest) ∨
          (∃ rest, e.message = "Cannot call " ++ rest) ∨ e.message = "Divide by zero")) ∨
      f = .tooDeep := by
  have hrun := wp_interpret limit text (regular_interpretAll runs (Store.all_initial trivial))
  cases hr : interpret .builtins limit text Store.root (interpretAll runs Store.initial) with
  | ok v st' =>
    obtain ⟨hv, -⟩ := (wp_iff_of_ok hr).1 hrun
    exact hv.display
  | error f st' =>
    obtain ⟨hf, -⟩ := (wp_iff_of_error hr).1 hrun
    cases hf with
    | source hparse hstage => exact .inl ⟨_, rfl, hparse, hstage, rfl⟩
    | evaluation he => exact .inr (.inl ⟨_, rfl, he.message⟩)
    | tooDeep => exact .inr (.inr rfl)

end ExprLang
