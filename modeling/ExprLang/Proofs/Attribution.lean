import ExprLang.Proofs.Ledger
import ExprLang.Proofs.Safety

/-!
# Who is to blame

A session is told to add programs, to run them and to hand out results, and some of that is done
under the eyes of its reporter, which settles what fails. What the reporter has noted for the path
of the session depends on the last attempt to add a program or to run programs that wait, and on
nothing before it (`Attempt.noted`): after a failure that nobody settled it is the program that
failed, after one that was settled there is no note, and otherwise nothing is at work. So a report
shows the program that failed and no other, also when that one was added long before.
-/

namespace ExprLang

/-- How an attempt to add a program, or to run programs that wait, came out. -/
inductive Attempt where
  | passed
  /-- It failed at the program `x`, and the failure was passed on. -/
  | failed (x : Running)
  /-- It failed, and the reporter has settled that. -/
  | settled

namespace Attempt

/-- What an attempt leaves in the trail: no entry, or one with the program at work, if any. -/
def entry : Attempt → Option (Option Running)
  | passed => some none
  | failed x => some (some x)
  | settled => none

/-- The entry after attempts one after another: the last one decides. -/
def noted (before : Option (Option Running)) (attempts : List Attempt) : Option (Option Running) :=
  attempts.getLast?.elim before entry

theorem noted_append (before : Option (Option Running)) (as as' : List Attempt) :
    noted before (as ++ as') = noted (noted before as) as' := by
  cases h : as'.getLast? <;> simp [noted, List.getLast?_append, h]

end Attempt

def Queued.running (q : Queued) : Running := ⟨q.source, q.line⟩

/-- Of the programs, evaluated one after another from the store `st`, `q` is the first that fails:
it fails with `e` and leaves the store `st'`. -/
inductive FirstFailure (limit : Nat) : Store → List Queued → Queued → Stop EvalError → Store → Prop
  | here {q : Queued} {qs : List Queued} {e : Stop EvalError} {st st' : Store}
      (h : evaluate .builtins limit q.program Store.root st = .error e st') :
      FirstFailure limit st (q :: qs) q e st'
  | behind {p q : Queued} {qs : List Queued} {v : Value} {e : Stop EvalError} {st st₁ st' : Store}
      (h : evaluate .builtins limit p.program Store.root st = .ok v st₁)
      (hs : FirstFailure limit st₁ qs q e st') : FirstFailure limit st (p :: qs) q e st'

/-- What a session is told to do. -/
inductive Job where
  | call (c : Call)
  /-- To add a program and run what waits, with the reporter settling what fails. -/
  | guarded (source : String) (line : Int)

/-- Does a job; `none` if it failed and that was settled. -/
def Job.perform : Job → Run (Option Unit)
  | call c => do
    discard c.perform
    return some ()
  | guarded source line => Run.guarded do
    Run.add source line
    Run.runQueue

theorem Job.perform_call_of_ok {c : Call} {s s' : Session} {answer : Option Value}
    (h : c.perform s = .ok answer s') : (call c).perform s = .ok (some ()) s' := by
  refine ok_of_wp ?_
  simp [perform, wp_iff_of_ok h]

theorem Job.perform_call_of_error {c : Call} {s s' : Session} {f : Failure}
    (h : c.perform s = .error f s') : (call c).perform s = .error f s' := by
  refine error_of_wp ?_
  simp [perform, wp_iff_of_error h]

/-- The attempts that a job makes in the session `s`, by how it ended. Where a failure was settled,
the last that was written is the report on the program that failed. -/
inductive Job.Attempts (s : Session) :
    Job → EStateM.Result Failure Session (Option Unit) → List Attempt → Prop
  | added {source : String} {line : Int} {p : Expr} {s' : Session}
      (h : parse s.limit source = .ok p) :
      Attempts s (.call (.add source line)) (.ok (some ()) s') [.passed]
  | refused {source : String} {line : Int} {e : Stop SourceError} {s' : Session}
      (h : parse s.limit source = .error e) :
      Attempts s (.call (.add source line)) (.error (.ofParse e) s') [.failed ⟨source, line⟩]
  | idle {s' : Session} (h : s.queue = []) : Attempts s (.call .run) (.ok (some ()) s') []
  | ran {s' : Session} (h : s.queue ≠ []) : Attempts s (.call .run) (.ok (some ()) s') [.passed]
  | stopped {q : Queued} {e : Stop EvalError} {s' : Session}
      (h : FirstFailure s.limit s.store s.queue q e s'.store) :
      Attempts s (.call .run) (.error (.ofEval e) s') [.failed q.running]
  | popped {r : EStateM.Result Failure Session (Option Unit)} : Attempts s (.call .pop) r []
  | done {source : String} {line : Int} {p : Expr} {s' : Session}
      (h : parse s.limit source = .ok p) :
      Attempts s (.guarded source line) (.ok (some ()) s') [.passed, .passed]
  | notAdded {source : String} {line : Int} {e : Stop SourceError} {n : Notice} {s' : Session}
      (h : parse s.limit source = .error e) (hn : (Failure.ofParse e).notice? = some n)
      (hreport : s'.store = s.store.write .report
        (Reporter.reportOn s.reporter.emphasize s.path ⟨source, line⟩ n)) :
      Attempts s (.guarded source line) (.ok none s') [.settled]
  | notRun {source : String} {line : Int} {p : Expr} {q : Queued} {e : Stop EvalError} {n : Notice}
      {st : Store} {s' : Session} (h : parse s.limit source = .ok p)
      (hq : FirstFailure s.limit s.store (s.queue ++ [⟨source, line, p⟩]) q e st)
      (hn : (Failure.ofEval e).notice? = some n)
      (hreport : s'.store = st.write .report
        (Reporter.reportOn s.reporter.emphasize s.path q.running n)) :
      Attempts s (.guarded source line) (.ok none s') [.passed, .settled]

/-- The session that jobs one after another leave, however each of them ends. -/
def Session.afterJobs (s : Session) (jobs : List Job) : Session :=
  jobs.foldl (fun s j => leaves j.perform s) s

/-- The attempts of jobs one after another. -/
inductive Record : Session → List Job → List Attempt → Prop
  | nil (s : Session) : Record s [] []
  | cons {s : Session} {j : Job} {jobs : List Job} {as as' : List Attempt}
      (h : j.Attempts s (j.perform s) as) (hs : Record (leaves j.perform s) jobs as') :
      Record s (j :: jobs) (as ++ as')

/-- A session at `path` whose reporter is not fatal and has this entry for the path, and no other
program at work. The store and the programs that wait are such that no program can fail but for what
it does. -/
structure Session.Traced (path : String) (emphasize : String → String)
    (entry : Option (Option Running)) (s : Session) : Prop where
  at_path : s.path = path
  fatal : s.reporter.fatal = false
  emphasizes : s.reporter.emphasize = emphasize
  lookup : s.reporter.trail.lookup path = entry
  only : s.reporter.OnlyAt path
  regular : s.store.All Value.Regular
  programs : ∀ q ∈ s.queue, WellFormedProgram q.program

namespace Session.Traced
variable {path : String} {emphasize : String → String} {entry : Option (Option Running)}
  {s : Session}

theorem working (h : s.Traced path emphasize entry) (source : String) (line : Int) :
    (s.working source line).Traced path emphasize (some (some ⟨source, line⟩)) := by
  obtain ⟨rfl, hfatal, hemphasize, -, honly, hregular, hprograms⟩ := h
  exact ⟨rfl, hfatal, hemphasize, Reporter.lookup_place .., honly.enter source line, hregular,
    hprograms⟩

theorem idle (h : s.Traced path emphasize entry) : s.idle.Traced path emphasize (some none) := by
  obtain ⟨rfl, hfatal, hemphasize, -, honly, hregular, hprograms⟩ := h
  exact ⟨rfl, hfatal, hemphasize, Reporter.lookup_place .., honly.clear, hregular, hprograms⟩

/-- The reporter does not look at the queue, the results and the store. -/
theorem update (h : s.Traced path emphasize entry) {queue : List Queued} {store : Store}
    (hqueue : ∀ q ∈ queue, WellFormedProgram q.program) (hstore : store.All Value.Regular)
    (results : List Value) :
    Traced path emphasize entry { s with queue := queue, results := results, store := store } :=
  { h with regular := hstore, programs := hqueue }

theorem added (h : s.Traced path emphasize entry) {source : String} {p : Expr}
    (hp : parse s.limit source = .ok p) (line : Int) :
    Traced path emphasize (some none) { s.idle with queue := s.queue ++ [⟨source, line, p⟩] } := by
  refine h.idle.update ?_ h.regular s.results
  intro q hq
  rcases List.mem_append.1 hq with hq | hq
  · exact h.programs q hq
  · rw [List.mem_singleton.1 hq]
    exact wellFormedProgram_of_parse hp

/-- A failure of a program's own is reported, and leaves no entry. -/
theorem settle {x : Running} (h : s.Traced path emphasize (some (some x))) {f : Failure}
    (hf : f.Ordinary) : ∃ n s', f.notice? = some n ∧ Run.settle f s = .ok () s' ∧
      s'.store = s.store.write .report (Reporter.reportOn emphasize path x n) ∧
      s'.Traced path emphasize none := by
  obtain ⟨hown, n, hn, hinternal⟩ := hf.exists_notice
  refine ⟨n, _, hn, Run.settle_of_own h.fatal hown hn, ?_, ?_⟩
  · rw [h.only.report h.lookup hinternal, h.emphasizes]
  · exact { h with lookup := rfl, only := .of_idle (by simp) }

theorem wp_runAll {waiting : List Queued} (hs : s.queue = waiting)
    (h : s.Traced path emphasize entry) : wp (Run.runAll waiting)
      (fun _ s' => s'.Traced path emphasize (if waiting = [] then entry else some none))
      (fun f s' => ∃ q e, f = .ofEval e ∧ f.Ordinary ∧
        FirstFailure s.limit s.store waiting q e s'.store ∧
        s'.Traced path emphasize (some (some q.running))) s := by
  induction waiting generalizing s entry with
  | nil => exact h
  | cons q waiting ih =>
    have hqueue : ∀ q' ∈ q :: waiting, WellFormedProgram q'.program := hs ▸ h.programs
    obtain ⟨hq, hwaiting⟩ := List.forall_mem_cons.1 hqueue
    have hrun := wp_evaluate_program s.limit hq h.regular
    rw [Run.runAll_cons, wp_bind]
    cases hr : evaluate .builtins s.limit q.program Store.root s.store with
    | ok v st =>
      obtain ⟨-, hst⟩ := (wp_iff_of_ok hr).1 hrun
      rw [wp_iff_of_ok (Run.round_of_ok hr)]
      refine wp_mono (ih rfl (h.idle.update hwaiting hst (s.results ++ [v]))) ?_ ?_
      · -- The note is clear by now, so it makes no difference whether more programs wait.
        intro _ s' hs'
        simpa using hs'
      · rintro f s' ⟨q', e, hf, hown, hfirst, hs'⟩
        exact ⟨q', e, hf, hown, .behind hr hfirst, hs'⟩
    | error e st =>
      obtain ⟨hown, hst⟩ := (wp_iff_of_error hr).1 hrun
      rw [wp_iff_of_error (Run.round_of_error hr)]
      exact ⟨q, e, rfl, hown, .here hr, (h.working q.source q.line).update hwaiting hst s.results⟩

theorem call (h : s.Traced path emphasize entry) (c : Call) :
    ∃ as, (Job.call c).Attempts s ((Job.call c).perform s) as ∧
      (leaves (Job.call c).perform s).Traced path emphasize (Attempt.noted entry as) := by
  cases c with
  | add source line =>
    cases hp : parse s.limit source with
    | ok p =>
      have hadd : (Job.call (.add source line)).perform s = .ok (some ()) _ :=
        Job.perform_call_of_ok (bind_of_ok (Run.add_of_ok hp))
      rw [leaves_of_ok hadd, hadd]
      exact ⟨_, .added hp, h.added hp line⟩
    | error e =>
      have hadd : (Job.call (.add source line)).perform s = .error _ _ :=
        Job.perform_call_of_error (bind_of_error (Run.add_of_error hp))
      rw [leaves_of_error hadd, hadd]
      exact ⟨_, .refused hp, h.working source line⟩
  | run =>
    have hrun := h.wp_runAll rfl
    cases hr : Run.runAll s.queue s with
    | ok _ s' =>
      have hs' := (wp_iff_of_ok hr).1 hrun
      have hperform : (Job.call .run).perform s = .ok (some ()) s' :=
        Job.perform_call_of_ok (bind_of_ok hr)
      rw [leaves_of_ok hperform, hperform]
      by_cases hqueue : s.queue = []
      · rw [if_pos hqueue] at hs'
        exact ⟨_, .idle hqueue, hs'⟩
      · rw [if_neg hqueue] at hs'
        exact ⟨_, .ran hqueue, hs'⟩
    | error f s' =>
      obtain ⟨q, e, rfl, -, hfirst, hs'⟩ := (wp_iff_of_error hr).1 hrun
      have hperform : (Job.call .run).perform s = .error _ s' :=
        Job.perform_call_of_error (bind_of_error hr)
      rw [leaves_of_error hperform, hperform]
      exact ⟨_, .stopped hfirst, hs'⟩
  | pop =>
    refine ⟨[], .popped, ?_⟩
    rcases List.eq_nil_or_concat s.results with hresults | ⟨vs, v, hresults⟩
    · have hpop : Call.pop.perform s = .error .noResult s :=
        bind_of_error (Run.pop_of_nil hresults)
      rw [leaves_of_error (Job.perform_call_of_error hpop)]
      exact h
    · rw [List.concat_eq_append] at hresults
      have hpop : Call.pop.perform s = .ok (some v) { s with results := vs } :=
        bind_of_ok (Run.pop_of_append hresults)
      rw [leaves_of_ok (Job.perform_call_of_ok hpop)]
      exact h.update h.programs h.regular vs

theorem guarded (h : s.Traced path emphasize entry) (source : String) (line : Int) :
    ∃ as, (Job.guarded source line).Attempts s ((Job.guarded source line).perform s) as ∧
      (leaves (Job.guarded source line).perform s).Traced path emphasize (Attempt.noted entry as) := by
  cases hp : parse s.limit source with
  | error e =>
    have hfails : (do Run.add source line; Run.runQueue : Run Unit) s = .error _ _ :=
      bind_of_error (Run.add_of_error hp)
    obtain ⟨n, s', hn, hsettle, hreport, hs'⟩ :=
      (h.working source line).settle (Failure.ordinary_ofParse e)
    have hperform : (Job.guarded source line).perform s = .ok none s' :=
      (Run.guarded_of_error hfails).trans (bind_of_ok hsettle)
    rw [leaves_of_ok hperform, hperform]
    refine ⟨_, .notAdded hp hn ?_, hs'⟩
    rw [h.emphasizes, h.at_path]
    exact hreport
  | ok p =>
    have hadded := h.added hp line
    have hrun := hadded.wp_runAll rfl
    cases hr : Run.runAll (s.queue ++ [⟨source, line, p⟩])
        { s.idle with queue := s.queue ++ [⟨source, line, p⟩] } with
    | ok _ s' =>
      have hs' := (wp_iff_of_ok hr).1 hrun
      have hdoes : (do Run.add source line; Run.runQueue : Run Unit) s = .ok () s' :=
        (bind_of_ok (Run.add_of_ok hp)).trans hr
      have hperform : (Job.guarded source line).perform s = .ok (some ()) s' :=
        Run.guarded_of_ok hdoes
      rw [leaves_of_ok hperform, hperform]
      refine ⟨_, .done hp, ?_⟩
      simpa [Attempt.noted, Attempt.entry] using hs'
    | error f s₁ =>
      -- `q` may have waited since before this program was added.
      obtain ⟨q, e, rfl, hown, hfirst, hs₁⟩ := (wp_iff_of_error hr).1 hrun
      have hfails : (do Run.add source line; Run.runQueue : Run Unit) s = .error _ s₁ :=
        (bind_of_ok (Run.add_of_ok hp)).trans hr
      obtain ⟨n, s', hn, hsettle, hreport, hs'⟩ := hs₁.settle hown
      have hperform : (Job.guarded source line).perform s = .ok none s' :=
        (Run.guarded_of_error hfails).trans (bind_of_ok hsettle)
      rw [leaves_of_ok hperform, hperform]
      refine ⟨_, .notRun hp hfirst hn ?_, hs'⟩
      rw [h.emphasizes, h.at_path]
      exact hreport

/-- What one job does: the attempts it makes, and the entry that the last of them leaves. -/
theorem step (h : s.Traced path emphasize entry) (j : Job) : ∃ as, j.Attempts s (j.perform s) as ∧
    (leaves j.perform s).Traced path emphasize (Attempt.noted entry as) := by
  cases j with
  | call c => exact h.call c
  | guarded source line => exact h.guarded source line

end Session.Traced

theorem exists_record {path : String} {emphasize : String → String}
    {entry : Option (Option Running)} {s : Session} (h : s.Traced path emphasize entry)
    (jobs : List Job) : ∃ attempts, Record s jobs attempts ∧
      (s.afterJobs jobs).Traced path emphasize (Attempt.noted entry attempts) := by
  induction jobs generalizing s entry with
  | nil => exact ⟨[], .nil s, h⟩
  | cons j jobs ih =>
    obtain ⟨as, hattempts, hstep⟩ := h.step j
    obtain ⟨as', hrecord, hjobs⟩ := ih hstep
    exact ⟨as ++ as', .cons hattempts hrecord, (Attempt.noted_append ..).symm ▸ hjobs⟩

/-- Whatever a session was told to do, its reporter has noted what the last attempt to add a program
or to run some calls for: the program that failed if that failure was passed on, no entry if it was
settled, and nothing at work otherwise. Every failure that was settled was reported as one of the
program that failed to be parsed or evaluated. Such a report names the path and the number of that
program, shows it if it is one line, and shows no line of any other. Other sessions may share the
reporter, as long as they are not at work. -/
theorem failures_are_attributed (limit : Nat) (path : String) (emphasize : String → String)
    (others : List String) (jobs : List Job) :
    let s := Session.blank limit path ⟨false, emphasize, others.map (·, none)⟩
    (∃ attempts, Record s jobs attempts ∧
      (s.afterJobs jobs).reporter.trail.lookup path = Attempt.noted (some none) attempts) ∧
    ∀ (x : Running) (n : Notice), x.source.isEmpty = false → '\n' ∉ path.toList →
      '\n' ∉ (emphasize "^").toList →
      Text.lines (Reporter.reportOn emphasize path x n).toList = Reporter.headlines path x ++
        (Text.lines (emphasize "error: " ++ n.message).toList ++
        ((n.place.bind fun (line, column) => Diagnosis.of? x.source line column).elim []
          (Diagnosis.drawn emphasize) ++ [[]])) := by
  intro s
  have hs : s.Traced path emphasize (some none) :=
    { at_path := rfl
      fatal := rfl
      emphasizes := rfl
      lookup := Reporter.lookup_place ..
      only := (Reporter.OnlyAt.of_idle (by simp)).clear
      regular := Store.all_initial trivial
      programs := by simp [s, Session.blank] }
  obtain ⟨attempts, hrecord, hjobs⟩ := exists_record hs jobs
  refine ⟨⟨attempts, hrecord, hjobs.lookup⟩, fun x n hx hpath hcaret => ?_⟩
  exact Reporter.lines_reportOn hx hpath hcaret n

end ExprLang
