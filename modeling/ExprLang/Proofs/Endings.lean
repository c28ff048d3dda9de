import ExprLang.Launch
import ExprLang.Proofs.Output
import ExprLang.Proofs.Safety
import ExprLang.Proofs.Sessions

/-!
# How a run from the command line ends

A session on one source that is handed to a fatal reporter does what interpreting that source does
(`Launch.batch_of_ok`, `Launch.batch_of_error`): it returns and has written what the program wrote,
or it asks to end with status 1 and has written one report behind that. Interpreting fails only for
what the program did, so there is no third way to end.
-/

namespace ExprLang

namespace Launch

theorem conclude_of_ok {s s' : Session} {x : Run Unit} {answer : Option Unit}
    (h : Run.guarded x s = .ok answer s') : conclude s x = ⟨.returned, s'.store.output, ""⟩ := by
  simp only [conclude, EStateM.run, h]

theorem conclude_of_exit {s s' : Session} {x : Run Unit} {status : Option Int}
    (h : Run.guarded x s = .error (.exit status) s') :
    conclude s x = ⟨.exited status, s'.store.output, ""⟩ := by
  simp only [conclude, EStateM.run, h]

section
variable {s : Session} {source : String} {st : Store} (env : Surroundings)

theorem wp_batch (hs : s.queue = []) {Q : Unit → Session → Prop} {B : Failure → Session → Prop} :
    wp (batch env (some source)) Q B s ↔ wp (interpret .builtins s.limit source Store.root)
      (fun v st => Q () { s.idle with store := st, results := s.results ++ [v] })
      (fun f st => B f { s.working source 1 with store := st }) s.store := by
  rw [← Run.wp_add_runQueue hs]
  simp [batch, Run.start]

theorem batch_of_ok (hs : s.queue = []) {v : Value}
    (h : interpret .builtins s.limit source Store.root s.store = .ok v st) :
    batch env (some source) s =
      .ok () { s.idle with store := st, results := s.results ++ [v] } := by
  refine ok_of_wp ((wp_batch env hs).2 ?_)
  exact (wp_iff_of_ok h).2 ⟨rfl, rfl⟩

theorem batch_of_error (hs : s.queue = []) {f : Failure}
    (h : interpret .builtins s.limit source Store.root s.store = .error f st) :
    batch env (some source) s = .error f { s.working source 1 with store := st } := by
  refine error_of_wp ((wp_batch env hs).2 ?_)
  exact (wp_iff_of_error h).2 ⟨rfl, rfl⟩

end

variable {limit : Nat} {path source : String} {emphasize : String → String} {st : Store}

theorem conclude_batch_of_ok (env : Surroundings) {v : Value}
    (h : interpret .builtins limit source Store.root .initial = .ok v st) :
    conclude (.blank limit path ⟨true, emphasize, []⟩) (batch env (some source)) =
      ⟨.returned, st.output, ""⟩ :=
  conclude_of_ok (Run.guarded_of_ok (batch_of_ok env rfl h))

theorem conclude_batch_of_error (env : Surroundings) {f : Failure} {n : Notice}
    (h : interpret .builtins limit source Store.root .initial = .error f st) (hn : f.notice? = some n)
    (hinternal : n.isInternal = false) :
    conclude (.blank limit path ⟨true, emphasize, []⟩) (batch env (some source)) =
      ⟨.exited (some 1),
        st.output.push ⟨.report, Reporter.reportOn emphasize path ⟨source, 1⟩ n⟩, ""⟩ := by
  -- The trail holds the path alone, with the source that was added.
  have hreport : ((Reporter.mk true emphasize []).clear path |>.enter path source 1).report n =
      Reporter.reportOn emphasize path ⟨source, 1⟩ n := by
    refine Reporter.OnlyAt.report ?_ (Reporter.lookup_place ..) hinternal
    exact (Reporter.OnlyAt.of_idle (by simp)).clear.enter source 1
  have hfails := batch_of_error (s := .blank limit path ⟨true, emphasize, []⟩) env rfl h
  have hends := (Run.guarded_of_error hfails).trans (bind_of_error (Run.settle_of_fatal rfl hn))
  rw [conclude_of_exit hends, ← hreport]
  rfl

end Launch

/-- How a source fails in a new session, and what it has written by then. -/
inductive FailsWith (limit : Nat) (source : String) : Failure → Array Piece → Prop
  | parsing {e : Stop SourceError} (h : parse limit source = .error e) :
      FailsWith limit source (.ofParse e) #[]
  | evaluation {p : Expr} {e : Stop EvalError} {st : Store} (hp : parse limit source = .ok p)
      (h : evaluate .builtins limit p Store.root .initial = .error e st) :
      FailsWith limit source (.ofEval e) st.output

/-- A program given as an option ends in one of two ways. It is parsed and has a value: then all is
well and standard output is what the program wrote. Or it is refused or fails: then the status is 1,
and behind what the program wrote until then, which is nothing if it was refused, there is one
report, not marked as internal. -/
theorem option_returns_or_exits (limit : Nat) (env : Surroundings) {args : List String}
    {file : Option String} {source : String} {noColor : Bool}
    (hargs : CommandLine.read args = .ok (.run ⟨file, some (.text source), noColor⟩)) :
    (∃ p v st, parse limit source = .ok p ∧
      evaluate .builtins limit p Store.root .initial = .ok v st ∧
      (∀ piece ∈ st.output, piece.writer = .program) ∧
      launch limit env args = ⟨.returned, st.output, ""⟩) ∨
    (∃ f n written, FailsWith limit source f written ∧
      (∀ piece ∈ written, piece.writer = .program) ∧
      f.notice? = some n ∧ n.isInternal = false ∧
      launch limit env args = ⟨.exited (some 1), written.push ⟨.report,
        Reporter.reportOn (if noColor then id else env.emphasize) Launch.optionPath
          ⟨source, 1⟩ n⟩, ""⟩) := by
  have hlaunch : launch limit env args =
      Launch.conclude
        (.blank limit Launch.optionPath ⟨true, if noColor then id else env.emphasize, []⟩)
        (Launch.batch env (some source)) := by
    simp only [launch, hargs]
    rfl
  rw [hlaunch]
  cases hp : parse limit source with
  | error e =>
    obtain ⟨-, n, hn, hinternal⟩ := (Failure.ordinary_ofParse e).exists_notice
    refine .inr ⟨_, n, _, .parsing hp, by simp, hn, hinternal, ?_⟩
    exact Launch.conclude_batch_of_error env (interpret_of_unparsed hp) hn hinternal
  | ok p =>
    have hwritten := continued_evaluate Host.keepsOutput_builtins limit p Store.root .initial
    cases hr : evaluate .builtins limit p Store.root .initial with
    | ok v st =>
      rw [leaves_of_ok hr] at hwritten
      refine .inl ⟨p, v, st, rfl, hr, hwritten.writer_of_mem rfl, ?_⟩
      exact Launch.conclude_batch_of_ok env (interpret_of_value hp hr)
    | error e st =>
      rw [leaves_of_error hr] at hwritten
      have hrun := wp_evaluate_program limit (wellFormedProgram_of_parse hp)
        (Store.all_initial trivial)
      obtain ⟨hown, -⟩ := (wp_iff_of_error hr).1 hrun
      obtain ⟨-, n, hn, hinternal⟩ := hown.exists_notice
      refine .inr ⟨_, n, _, .evaluation hp hr, hwritten.writer_of_mem rfl, hn, hinternal, ?_⟩
      exact Launch.conclude_batch_of_error env (interpret_of_failure hp hr) hn hinternal

/-- The first call has written when the name behind it is found to be undefined. -/
theorem option_returns_or_exits_undefined :
    let source := "print(\"a\"); x"
    let args := ["--no-color", "-c", source]
    let env : Surroundings := ⟨"", fun _ => none, fun t => "*" ++ t ++ "*"⟩
    CommandLine.read args = .ok (.run ⟨none, some (.text source), true⟩) ∧
    ∃ f n, FailsWith 50 source f #[⟨.program, "a\n"⟩] ∧ f.notice? = some n ∧
      n.isInternal = false ∧ launch 50 env args = ⟨.exited (some 1), #[⟨.program, "a\n"⟩,
        ⟨.report, Reporter.reportOn id "<string>" ⟨source, 1⟩ n⟩], ""⟩ := by
  intro source args env
  have hargs : CommandLine.read args = .ok (.run ⟨none, some (.text source), true⟩) := by
    show CommandLine.read ["--no-color", "-c", "print(\"a\"); x"] =
      .ok (.run ⟨none, some (.text "print(\"a\"); x"), true⟩)
    rfl
  have houtput : (launch 50 env args).output = #[⟨.program, "a\n"⟩, ⟨.report,
      "  File '<string>', line 1:\n    print(\"a\"); x\nerror: Undefined variable x\n"⟩] := by
    decide +kernel
  refine ⟨hargs, ?_⟩
  rcases option_returns_or_exits 50 env hargs with
    ⟨p, v, st, -, -, hwritten, hlaunch⟩ | ⟨f, n, written, hfails, -, hn, hinternal, hlaunch⟩
  · -- A report was written, and not by the program.
    replace houtput : st.output = #[_, _] := hlaunch ▸ houtput
    rw [houtput] at hwritten
    simp at hwritten
  · replace houtput : written.push _ = #[⟨.program, "a\n"⟩].push _ := hlaunch ▸ houtput
    obtain ⟨-, rfl⟩ := Array.push_eq_push.1 houtput
    exact ⟨f, n, hfails, hn, hinternal, hlaunch⟩

end ExprLang
