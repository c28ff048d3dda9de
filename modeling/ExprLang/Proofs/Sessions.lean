import ExprLang.Session
import ExprLang.Proofs.Outcome
import ExprLang.Proofs.Reports

/-!
# What the operations on a session do

One equation for each operation and each way it can end. A program that is parsed or evaluated is
noted with the reporter first (`Session.working`) and the note is cleared when that has succeeded
(`Session.idle`), so a failure is the only thing that leaves a note behind. A report that is made
while no other path has a note is about that one program (`Reporter.OnlyAt.report`).
-/

namespace ExprLang

namespace Reporter

theorem place_place (path : String) (x y : Option Running)
    (trail : List (String × Option Running)) :
    place path y (place path x trail) = place path y trail := by
  induction trail with
  | nil => simp [place]
  | cons entry trail ih =>
    by_cases h : entry.1 = path
    · simp [place, h]
    · simp [place, h, ih]

@[simp] theorem clear_enter (r : Reporter) (path source : String) (line : Int) :
    (r.enter path source line).clear path = r.clear path := by
  simp [clear, enter, place_place]

@[simp] theorem clear_clear (r : Reporter) (path : String) :
    (r.clear path).clear path = r.clear path := by
  simp [clear, place_place]

@[simp] theorem enter_clear (r : Reporter) (path source : String) (line : Int) :
    (r.clear path).enter path source line = r.enter path source line := by
  simp [clear, enter, place_place]

theorem lookup_place (path : String) (x : Option Running)
    (trail : List (String × Option Running)) : (place path x trail).lookup path = some x := by
  induction trail with
  | nil => simp [place]
  | cons entry trail ih =>
    obtain ⟨p, running⟩ := entry
    by_cases h : p = path
    · simp [place, h]
    · simp [place, h, List.lookup_cons, beq_false_of_ne (Ne.symm h), ih]

theorem of_mem_place {path : String} {trail : List (String × Option Running)}
    (h : ∀ entry ∈ trail, entry.2 = none) : ∀ entry ∈ place path none trail, entry.2 = none := by
  induction trail with
  | nil => simp [place]
  | cons entry trail ih =>
    obtain ⟨hentry, htrail⟩ := List.forall_mem_cons.1 h
    rw [place]
    split
    · exact List.forall_mem_cons.2 ⟨rfl, htrail⟩
    · exact List.forall_mem_cons.2 ⟨hentry, ih htrail⟩

/-- Nothing is at work but what may be at `path`. -/
def OnlyAt (r : Reporter) (path : String) : Prop := ∀ entry ∈ (r.clear path).trail, entry.2 = none

namespace OnlyAt
variable {r : Reporter} {path : String}

theorem of_idle (h : ∀ entry ∈ r.trail, entry.2 = none) : r.OnlyAt path := of_mem_place h

theorem enter (h : r.OnlyAt path) (source : String) (line : Int) :
    (r.enter path source line).OnlyAt path := by
  simpa [OnlyAt] using h

theorem clear (h : r.OnlyAt path) : (r.clear path).OnlyAt path := by
  simpa [OnlyAt] using h

theorem active (h : r.OnlyAt path) {x : Running} (hx : r.trail.lookup path = some (some x)) :
    r.active = if x.source.isEmpty then [] else [(path, x)] := by
  obtain ⟨fatal, emphasize, trail⟩ := r
  have none_active : ∀ trail : List (String × Option Running), (∀ entry ∈ trail, entry.2 = none) →
      Reporter.active ⟨fatal, emphasize, trail⟩ = [] := by
    intro trail htrail
    refine List.filterMap_eq_nil_iff.2 fun entry hentry => ?_
    simp [htrail entry hentry]
  replace h : ∀ entry ∈ place path none trail, entry.2 = none := h
  replace hx : trail.lookup path = some (some x) := hx
  induction trail with
  | nil => cases hx
  | cons entry trail ih =>
    obtain ⟨p, running⟩ := entry
    by_cases hp : p = path
    · subst hp
      simp only [place, beq_self_eq_true, if_true, List.forall_mem_cons] at h
      rw [List.lookup_cons, beq_self_eq_true] at hx
      cases hx
      have hrest := none_active trail h.2
      unfold Reporter.active at hrest ⊢
      rw [List.filterMap_cons, hrest]
      split <;> split <;> simp_all
    · simp only [place, beq_iff_eq, hp, if_false, List.forall_mem_cons] at h
      obtain ⟨rfl, h⟩ := h
      rw [List.lookup_cons, beq_false_of_ne (Ne.symm hp)] at hx
      exact ih h hx

theorem report (h : r.OnlyAt path) {x : Running} (hx : r.trail.lookup path = some (some x))
    {n : Notice} (hn : n.isInternal = false) : r.report n = reportOn r.emphasize path x n := by
  have hactive := h.active hx
  unfold Reporter.report reportOn
  rw [hactive, hn]
  by_cases hempty : x.source.isEmpty
  · simp [hempty]
  · simp only [if_neg hempty]
    rcases n.place with _ | ⟨line, column⟩
    · simp
    · cases hd : Diagnosis.of? x.source line column <;> simp [hd]

end OnlyAt

end Reporter

namespace Session

/-- The session at work on `source`. -/
def working (s : Session) (source : String) (line : Int) : Session :=
  { s with reporter := s.reporter.enter s.path source line }

/-- The session at work on nothing. -/
def idle (s : Session) : Session := { s with reporter := s.reporter.clear s.path }

end Session

namespace Run
variable {s : Session} {source : String} {line : Int} {q : Queued} {waiting : List Queued}

theorem add_of_ok {p : Expr} (h : parse s.limit source = .ok p) :
    add source line s = .ok () { s.idle with queue := s.queue ++ [⟨source, line, p⟩] } := by
  refine ok_of_wp ?_
  simp [add, enter, leave, h, ofParse, Session.idle]

theorem add_of_error {e : Stop SourceError} (h : parse s.limit source = .error e) :
    add source line s = .error (.ofParse e) (s.working source line) := by
  refine error_of_wp ?_
  simp [add, enter, h, ofParse, Session.working]

@[simp] theorem wp_ofEval {α : Type} {x : Eval α} {Q : α → Session → Prop}
    {B : Failure → Session → Prop} : wp (ofEval x) Q B s ↔
      wp x (fun a st => Q a { s with store := st })
        (fun e st => B (.ofEval e) { s with store := st }) s.store := by
  simp only [wp, ofEval, EStateM.run]
  cases x s.store <;> rfl

/-- What the run does with one program: takes it off the queue, evaluates it and keeps its value. -/
def round (q : Queued) (waiting : List Queued) : Run Unit := do
  modify fun s => { s with queue := waiting }
  enter q.source q.line
  let v ← ofEval (evaluate .builtins (← get).limit q.program Store.root)
  modify fun s => { s with results := s.results ++ [v] }
  leave

theorem runAll_cons (q : Queued) (waiting : List Queued) :
    runAll (q :: waiting) = round q waiting >>= fun _ => runAll waiting := by
  simp [runAll, round]

theorem round_of_ok {v : Value} {st : Store}
    (h : evaluate .builtins s.limit q.program Store.root s.store = .ok v st) : round q waiting s =
      .ok () { s.idle with queue := waiting, store := st, results := s.results ++ [v] } := by
  refine ok_of_wp ?_
  simp [round, enter, leave, Session.idle, wp_iff_of_ok h]

theorem round_of_error {e : Stop EvalError} {st : Store}
    (h : evaluate .builtins s.limit q.program Store.root s.store = .error e st) : round q waiting s =
      .error (.ofEval e) { s.working q.source q.line with queue := waiting, store := st } := by
  refine error_of_wp ?_
  simp [round, enter, Session.working, wp_iff_of_error h]

/-- With nothing waiting, to add a program and run it is to interpret it. -/
theorem wp_add_runQueue (hs : s.queue = []) {Q : Unit → Session → Prop}
    {B : Failure → Session → Prop} : wp (add source line) (fun _ => wp runQueue Q B) B s ↔
      wp (interpret .builtins s.limit source Store.root)
        (fun v st => Q () { s.idle with store := st, results := s.results ++ [v] })
        (fun f st => B f { s.working source line with store := st }) s.store := by
  cases hp : parse s.limit source with
  | error e =>
    rw [wp_iff_of_error (add_of_error hp), wp_iff_of_error (interpret_of_unparsed hp)]
    rfl
  | ok p =>
    rw [wp_iff_of_ok (add_of_ok hp)]
    show wp (runAll (s.queue ++ [⟨source, line, p⟩])) Q B _ ↔ _
    rw [hs, List.nil_append, runAll_cons, wp_bind]
    cases hr : evaluate .builtins s.limit p Store.root s.store with
    | ok v st =>
      rw [wp_iff_of_ok (interpret_of_value hp hr), wp_iff_of_ok (round_of_ok hr)]
      simp [runAll, Session.idle, hs]
    | error e st =>
      rw [wp_iff_of_error (interpret_of_failure hp hr), wp_iff_of_error (round_of_error hr)]
      simp [Session.idle, Session.working, hs]

theorem pop_of_nil (h : s.results = []) : pop s = .error .noResult s := by
  refine error_of_wp ?_
  simp [pop, h]

theorem pop_of_append {vs : List Value} {v : Value} (h : s.results = vs ++ [v]) :
    pop s = .ok v { s with results := vs } := by
  refine ok_of_wp ?_
  simp [pop, h]

theorem guarded_of_ok {α : Type} {x : Run α} {a : α} {s' : Session} (hx : x s = .ok a s') :
    guarded x s = .ok (some a) s' := by
  simp only [guarded, hx]

theorem guarded_of_error {α : Type} {x : Run α} {f : Failure} {s' : Session}
    (hx : x s = .error f s') : guarded x s = (settle f >>= fun _ => pure none) s' := by
  simp only [guarded, hx]

@[simp] theorem wp_guarded {α : Type} {x : Run α} {Q : Option α → Session → Prop}
    {B : Failure → Session → Prop} : wp (guarded x) Q B s ↔
      wp x (fun a => Q (some a)) (fun f => wp (settle f) (fun _ => Q none) B) s := by
  cases hx : x s with
  | ok a s' =>
    rw [wp_iff_of_ok hx, wp_iff_of_ok (guarded_of_ok hx)]
  | error f s' =>
    rw [wp_iff_of_error hx, wp, guarded_of_error hx]
    exact wp_bind (settle f) fun _ => pure none

/-- What is a program's own fault is reported and over, unless the reporter is fatal. -/
theorem settle_of_own {f : Failure} {n : Notice} (hfatal : s.reporter.fatal = false)
    (hown : f.foreign? = none) (hn : f.notice? = some n) :
    settle f s = .ok () { s with
      store := s.store.write .report (s.reporter.report n)
      reporter := { s.reporter with trail := [] } } := by
  have htake : s.reporter.take f =
      some ⟨s.reporter.report n, { s.reporter with trail := [] }, none⟩ := by
    simp [Reporter.take, hn, hfatal, hown]
  refine ok_of_wp ?_
  simp [settle, htake, write]

/-- A fatal reporter asks to end. -/
theorem settle_of_fatal {f : Failure} {n : Notice} (hfatal : s.reporter.fatal = true)
    (hn : f.notice? = some n) : settle f s = .error (.exit (some 1))
      { s with store := s.store.write .report (s.reporter.report n) } := by
  have htake : s.reporter.take f =
      some ⟨s.reporter.report n, s.reporter, some (.exit (some 1))⟩ := by
    simp [Reporter.take, hn, hfatal]
  refine error_of_wp ?_
  simp [settle, htake, write]

end Run

end ExprLang
