import ExprLang.Proofs.Sessions

/-!
# The ledger of a session

A session is told to add a program, to run what waits or to hand out a result, in any order and
whether or not earlier calls failed. What it does can be entered line by line: a program was
accepted, a program was evaluated, a value was taken. A line does one thing to the queue, the
results and the store (`Accounts.Posts`), and every call is a run of such lines (`Call.posts`). So
whatever the calls were, the programs that were evaluated and those that wait are together the ones
that were accepted, in their order.
-/

namespace ExprLang

/-- A call on a session. -/
inductive Call where
  | add (source : String) (line : Int)
  | run
  | pop

/-- Does a call. Only `pop` has an answer. -/
def Call.perform : Call → Run (Option Value)
  | add source line => do
    Run.add source line
    return none
  | run => do
    Run.runQueue
    return none
  | pop => return some (← Run.pop)

/-- The session that calls one after another leave, however each of them ends. -/
def Session.after (s : Session) (calls : List Call) : Session :=
  calls.foldl (fun s c => leaves c.perform s) s

/-- A line of the ledger. -/
inductive Entry where
  | accepted (q : Queued)
  | evaluated (q : Queued) (outcome : Except (Stop EvalError) Value)
  | taken (v : Value)

namespace Entry

/-- The programs that were accepted, in their order. -/
def accepted? : Entry → Option Queued
  | accepted q => some q
  | _ => none

/-- The programs that were evaluated, each with what it came to. -/
def evaluated? : Entry → Option (Queued × Except (Stop EvalError) Value)
  | evaluated q outcome => some (q, outcome)
  | _ => none

/-- A program that came to a value. -/
def ran (r : Queued × Value) : Entry := evaluated r.1 (.ok r.2)

/-- The values that stand after the entries if `vs` stood before: a program that came to a value
puts it on top, and what is taken is taken from the top. -/
def standing : List Value → List Entry → List Value
  | vs, [] => vs
  | vs, evaluated _ (.ok v) :: es => standing (vs ++ [v]) es
  | vs, taken _ :: es => standing vs.dropLast es
  | vs, _ :: es => standing vs es

theorem standing_append (vs : List Value) (es es' : List Entry) :
    standing vs (es ++ es') = standing (standing vs es) es' := by
  induction vs, es using standing.induct <;> simp_all [standing]

theorem standing_ran (vs : List Value) (done : List (Queued × Value)) :
    standing vs (done.map ran) = vs ++ done.map Prod.snd := by
  induction done generalizing vs with
  | nil => simp [standing]
  | cons r done ih => simp [standing, ran, ih]

theorem evaluated_ran (done : List (Queued × Value)) :
    (done.map ran).filterMap evaluated? = done.map fun r => (r.1, .ok r.2) := by
  induction done with
  | nil => rfl
  | cons r done ih => simp [ran, evaluated?, ih]

theorem accepted_ran (done : List (Queued × Value)) : (done.map ran).filterMap accepted? = [] := by
  simp [ran, accepted?]

end Entry

open Entry

/-- What the ledger is about. -/
structure Accounts where
  queue : List Queued
  results : List Value
  store : Store

def Session.accounts (s : Session) : Accounts := ⟨s.queue, s.results, s.store⟩

/-- What an entry does: a program that is accepted goes last, the one that is evaluated is the first
and is evaluated in the root, and the value that is taken is the last one. -/
inductive Accounts.Posts (limit : Nat) : Accounts → Entry → Accounts → Prop
  | accepted {qs : List Queued} {vs : List Value} {st : Store} (q : Queued) :
      Posts limit ⟨qs, vs, st⟩ (.accepted q) ⟨qs ++ [q], vs, st⟩
  | value {q : Queued} {qs : List Queued} {vs : List Value} {st st' : Store} {v : Value}
      (h : evaluate .builtins limit q.program Store.root st = .ok v st') :
      Posts limit ⟨q :: qs, vs, st⟩ (.evaluated q (.ok v)) ⟨qs, vs ++ [v], st'⟩
  | failure {q : Queued} {qs : List Queued} {vs : List Value} {st st' : Store} {e : Stop EvalError}
      (h : evaluate .builtins limit q.program Store.root st = .error e st') :
      Posts limit ⟨q :: qs, vs, st⟩ (.evaluated q (.error e)) ⟨qs, vs, st'⟩
  | taken {qs : List Queued} {vs : List Value} {st : Store} (v : Value) :
      Posts limit ⟨qs, vs ++ [v], st⟩ (.taken v) ⟨qs, vs, st⟩

/-- Entries one after another. -/
inductive Accounts.PostsAll (limit : Nat) : Accounts → List Entry → Accounts → Prop
  | nil (a : Accounts) : PostsAll limit a [] a
  | cons {a a' a'' : Accounts} {e : Entry} {es : List Entry} (h : a.Posts limit e a')
      (hs : PostsAll limit a' es a'') : PostsAll limit a (e :: es) a''

/-- Programs one after another, each evaluated once in the root of the store that the one before
left, whether that came to a value or not. -/
inductive Evaluations (limit : Nat) :
    Store → List (Queued × Except (Stop EvalError) Value) → Store → Prop
  | nil (st : Store) : Evaluations limit st [] st
  | value {q : Queued} {v : Value} {st st' st'' : Store}
      {rs : List (Queued × Except (Stop EvalError) Value)}
      (h : evaluate .builtins limit q.program Store.root st = .ok v st')
      (hs : Evaluations limit st' rs st'') : Evaluations limit st ((q, .ok v) :: rs) st''
  | failure {q : Queued} {e : Stop EvalError} {st st' st'' : Store}
      {rs : List (Queued × Except (Stop EvalError) Value)}
      (h : evaluate .builtins limit q.program Store.root st = .error e st')
      (hs : Evaluations limit st' rs st'') : Evaluations limit st ((q, .error e) :: rs) st''

namespace Accounts.PostsAll
variable {limit : Nat} {a a' a'' : Accounts} {es es' : List Entry}

theorem append (h : a.PostsAll limit es a') (h' : a'.PostsAll limit es' a'') :
    a.PostsAll limit (es ++ es') a'' := by
  induction h with
  | nil => exact h'
  | cons h _ ih => exact .cons h (ih h')

theorem queue (h : a.PostsAll limit es a') :
    a.queue ++ es.filterMap accepted? = (es.filterMap evaluated?).map Prod.fst ++ a'.queue := by
  induction h with
  | nil => simp
  | cons h _ ih =>
    rcases h with _ | _ | _ | _ <;>
      simpa [List.filterMap_cons, accepted?, evaluated?] using ih

theorem evaluations (h : a.PostsAll limit es a') :
    Evaluations limit a.store (es.filterMap evaluated?) a'.store := by
  induction h with
  | nil => exact .nil _
  | cons h _ ih =>
    rcases h with _ | h | h | _
    · exact ih
    · exact .value h ih
    · exact .failure h ih
    · exact ih

theorem results (h : a.PostsAll limit es a') : a'.results = standing a.results es := by
  induction h with
  | nil => rfl
  | cons h _ ih =>
    rcases h with _ | _ | _ | _ <;> simp [ih, standing]

/-- The entries of a run that stops at a program: it has dropped that one and those before it. -/
theorem stopped {done : List (Queued × Value)} {q : Queued} {e : Stop EvalError}
    (h : a.PostsAll limit (done.map ran ++ [.evaluated q (.error e)]) a') :
    a.queue = done.map Prod.fst ++ q :: a'.queue ∧
    Evaluations limit a.store (done.map (fun r => (r.1, .ok r.2)) ++ [(q, .error e)]) a'.store ∧
    a'.results = a.results ++ done.map Prod.snd := by
  have hevaluated : (done.map ran ++ [Entry.evaluated q (.error e)]).filterMap evaluated? =
      done.map (fun r => (r.1, .ok r.2)) ++ [(q, .error e)] := by
    rw [List.filterMap_append, evaluated_ran]
    rfl
  have hqueue := h.queue
  have hevaluations := h.evaluations
  have hresults := h.results
  rw [hevaluated] at hqueue hevaluations
  rw [List.filterMap_append, accepted_ran] at hqueue
  refine ⟨?_, hevaluations, ?_⟩
  · simpa [accepted?, List.filterMap_cons, Function.comp_def] using hqueue
  · simpa [standing_append, standing_ran, standing] using hresults

end Accounts.PostsAll

/-- How a call shows in the ledger, by how it ended. -/
inductive Call.Enters (limit : Nat) :
    Call → EStateM.Result Failure Session (Option Value) → List Entry → Prop
  | accepted {source : String} {line : Int} {p : Expr} {s : Session}
      (h : parse limit source = .ok p) :
      Enters limit (.add source line) (.ok none s) [.accepted ⟨source, line, p⟩]
  | refused {source : String} {line : Int} {f : Failure} {s : Session} :
      Enters limit (.add source line) (.error f s) []
  | ran {done : List (Queued × Value)} {s : Session} :
      Enters limit .run (.ok none s) (done.map Entry.ran)
  | stopped {done : List (Queued × Value)} {q : Queued} {e : Stop EvalError} {s : Session} :
      Enters limit .run (.error (.ofEval e) s) (done.map Entry.ran ++ [.evaluated q (.error e)])
  | taken {v : Value} {s : Session} : Enters limit .pop (.ok (some v) s) [.taken v]
  | nothing {f : Failure} {s : Session} : Enters limit .pop (.error f s) []

/-- What a run comes to: it evaluates all that waits, or up to the first program that fails. -/
theorem Run.wp_runAll {waiting : List Queued} {s : Session} (hs : s.queue = waiting) :
    wp (runAll waiting)
      (fun _ s' => s'.limit = s.limit ∧ s'.queue = [] ∧ ∃ done : List (Queued × Value),
        s.accounts.PostsAll s.limit (done.map ran) s'.accounts)
      (fun f s' => s'.limit = s.limit ∧ ∃ (done : List (Queued × Value)) (q : Queued)
        (e : Stop EvalError), f = .ofEval e ∧
        s.accounts.PostsAll s.limit (done.map ran ++ [.evaluated q (.error e)]) s'.accounts)
      s := by
  induction waiting generalizing s with
  | nil => exact ⟨rfl, hs, [], .nil _⟩
  | cons q waiting ih =>
    rw [runAll_cons, wp_bind]
    have haccounts : s.accounts = ⟨q :: waiting, s.results, s.store⟩ := by
      rw [Session.accounts, hs]
    cases hr : evaluate .builtins s.limit q.program Store.root s.store with
    | ok v st =>
      rw [wp_iff_of_ok (round_of_ok hr)]
      have hposts : s.accounts.Posts s.limit (.evaluated q (.ok v))
          ⟨waiting, s.results ++ [v], st⟩ := haccounts ▸ .value hr
      refine wp_mono (ih rfl) ?_ ?_
      · rintro _ s' ⟨hlimit, hqueue, done, hdone⟩
        exact ⟨hlimit, hqueue, (q, v) :: done, .cons hposts hdone⟩
      · rintro f s' ⟨hlimit, done, q', e, hf, hdone⟩
        exact ⟨hlimit, (q, v) :: done, q', e, hf, .cons hposts hdone⟩
    | error e st =>
      rw [wp_iff_of_error (round_of_error hr)]
      have hposts : s.accounts.Posts s.limit (.evaluated q (.error e)) ⟨waiting, s.results, st⟩ :=
        haccounts ▸ .failure hr
      exact ⟨rfl, [], q, e, rfl, .cons hposts (.nil _)⟩

theorem Run.wp_runQueue (s : Session) :
    wp runQueue
      (fun _ s' => s'.limit = s.limit ∧ s'.queue = [] ∧ ∃ done : List (Queued × Value),
        s.accounts.PostsAll s.limit (done.map ran) s'.accounts)
      (fun f s' => s'.limit = s.limit ∧ ∃ (done : List (Queued × Value)) (q : Queued)
        (e : Stop EvalError), f = .ofEval e ∧
        s.accounts.PostsAll s.limit (done.map ran ++ [.evaluated q (.error e)]) s'.accounts) s :=
  wp_runAll rfl

/-- Every call is a run of entries. -/
theorem Call.posts (c : Call) (s : Session) : ∃ es, c.Enters s.limit (c.perform s) es ∧
    s.accounts.PostsAll s.limit es (leaves c.perform s).accounts ∧
    (leaves c.perform s).limit = s.limit := by
  cases c with
  | add source line =>
    cases hp : parse s.limit source with
    | ok p =>
      have hadd : (add source line).perform s = .ok none _ := bind_of_ok (Run.add_of_ok hp)
      rw [leaves_of_ok hadd, hadd]
      exact ⟨_, .accepted hp, .cons (.accepted _) (.nil _), rfl⟩
    | error e =>
      have hadd : (add source line).perform s = .error _ _ := bind_of_error (Run.add_of_error hp)
      rw [leaves_of_error hadd, hadd]
      exact ⟨[], .refused, .nil _, rfl⟩
  | run =>
    have hrun := Run.wp_runQueue s
    cases hr : Run.runQueue s with
    | ok _ s' =>
      obtain ⟨hlimit, -, done, hdone⟩ := (wp_iff_of_ok hr).1 hrun
      have hperform : run.perform s = .ok none s' := bind_of_ok hr
      rw [leaves_of_ok hperform, hperform]
      exact ⟨_, .ran, hdone, hlimit⟩
    | error f s' =>
      obtain ⟨hlimit, done, q, e, rfl, hdone⟩ := (wp_iff_of_error hr).1 hrun
      have hperform : run.perform s = .error _ s' := bind_of_error hr
      rw [leaves_of_error hperform, hperform]
      exact ⟨_, .stopped, hdone, hlimit⟩
  | pop =>
    rcases List.eq_nil_or_concat s.results with h | ⟨vs, v, h⟩
    · have hpop : pop.perform s = .error .noResult s := bind_of_error (Run.pop_of_nil h)
      rw [leaves_of_error hpop, hpop]
      exact ⟨[], .nothing, .nil _, rfl⟩
    · rw [List.concat_eq_append] at h
      have hpop : pop.perform s = .ok (some v) { s with results := vs } :=
        bind_of_ok (Run.pop_of_append h)
      rw [leaves_of_ok hpop, hpop]
      have haccounts : s.accounts = ⟨s.queue, vs ++ [v], s.store⟩ := by
        rw [Session.accounts, h]
      exact ⟨_, .taken, haccounts ▸ .cons (.taken v) (.nil _), rfl⟩

/-- The ledger of calls one after another: the entries of each call, behind those of the calls
before. -/
inductive History : Session → List Call → List Entry → Prop
  | nil (s : Session) : History s [] []
  | cons {s : Session} {c : Call} {calls : List Call} {es es' : List Entry}
      (h : c.Enters s.limit (c.perform s) es) (hs : History (leaves c.perform s) calls es') :
      History s (c :: calls) (es ++ es')

theorem exists_history (s : Session) (calls : List Call) : ∃ es, History s calls es ∧
    s.accounts.PostsAll s.limit es (s.after calls).accounts := by
  induction calls generalizing s with
  | nil => exact ⟨[], .nil s, .nil _⟩
  | cons c calls ih =>
    obtain ⟨es, henters, hposts, hlimit⟩ := c.posts s
    obtain ⟨es', hhistory, hposts'⟩ := ih (leaves c.perform s)
    rw [hlimit] at hposts'
    exact ⟨es ++ es', .cons henters hhistory, hposts.append hposts'⟩

/-- Whatever a session was called for, the programs evaluated so far, each of them once, in order
and in the one root, and the programs that wait are together those that were accepted. The results
are the values of the programs that came to one, less those that were taken from the end. A run
leaves nothing waiting, or stops at a program that fails: then it has dropped this one, keeps those
behind it and has the results of those before it. A program that is refused changes nothing. -/
theorem session_keeps_ledger (s₀ : Session) (calls : List Call) :
    let s := s₀.after calls
    (∃ es, History s₀ calls es ∧
      s₀.queue ++ es.filterMap accepted? = (es.filterMap evaluated?).map Prod.fst ++ s.queue ∧
      Evaluations s₀.limit s₀.store (es.filterMap evaluated?) s.store ∧
      s.results = standing s₀.results es) ∧
    (∀ s', Run.runQueue s = .ok () s' → s'.queue = []) ∧
    (∀ f s', Run.runQueue s = .error f s' → ∃ (done : List (Queued × Value)) (q : Queued)
      (e : Stop EvalError), f = .ofEval e ∧ s.queue = done.map Prod.fst ++ q :: s'.queue ∧
      Evaluations s.limit s.store (done.map (fun r => (r.1, .ok r.2)) ++ [(q, .error e)]) s'.store ∧
      s'.results = s.results ++ done.map Prod.snd) ∧
    (∀ v s', Run.pop s = .ok v s' → s.results = s'.results ++ [v]) ∧
    (∀ source line f s', Run.add source line s = .error f s' →
      s'.queue = s.queue ∧ s'.results = s.results ∧ s'.store = s.store) := by
  intro s
  refine ⟨?_, ?_, ?_, ?_, ?_⟩
  · obtain ⟨es, hhistory, hposts⟩ := exists_history s₀ calls
    exact ⟨es, hhistory, hposts.queue, hposts.evaluations, hposts.results⟩
  · intro s' hr
    obtain ⟨-, hqueue, -⟩ := (wp_iff_of_ok hr).1 (Run.wp_runQueue s)
    exact hqueue
  · intro f s' hr
    obtain ⟨-, done, q, e, hf, hposts⟩ := (wp_iff_of_error hr).1 (Run.wp_runQueue s)
    exact ⟨done, q, e, hf, hposts.stopped⟩
  · intro v s' hr
    rcases List.eq_nil_or_concat s.results with h | ⟨vs, w, h⟩
    · rw [Run.pop_of_nil h] at hr
      cases hr
    · rw [List.concat_eq_append] at h
      rw [Run.pop_of_append h] at hr
      cases hr
      exact h
  · intro source line f s' hr
    cases hp : parse s.limit source with
    | ok p =>
      rw [Run.add_of_ok hp] at hr
      cases hr
    | error e =>
      rw [Run.add_of_error hp] at hr
      cases hr
      exact ⟨rfl, rfl, rfl⟩

end ExprLang
