import ExprLang.Interpret
import ExprLang.Reporter

/-!
# Sessions

A session runs programs one after another in one global scope. Programs are parsed when they are
added and wait in a queue; a run takes each off the queue before evaluating it, so a program that
fails is gone and the ones behind it still wait. The reporter knows the program at work from the
moment it is parsed or evaluated until that has succeeded.
-/

namespace ExprLang

/-- A program that waits to be run. -/
structure Queued where
  source : String
  line : Int
  program : Expr

structure Session where
  /-- How deep parsing and evaluation may nest. -/
  limit : Nat
  /-- What the programs are called in reports. -/
  path : String
  queue : List Queued
  /-- The values of the programs that were run, the most recent last. -/
  results : List Value
  reporter : Reporter
  store : Store

/-- A computation in a session; the session is kept when it fails. -/
abbrev Run := EStateM Failure Session

/-- The path of programs that are typed in. -/
def Session.shellPath : String := "<in>"

/-- A session with nothing to do. -/
def Session.blank (limit : Nat) (path : String) (reporter : Reporter) : Session :=
  { limit, path, queue := [], results := [], reporter := reporter.clear path, store := .initial }

namespace Run

def enter (source : String) (line : Int) : Run Unit :=
  modify fun s => { s with reporter := s.reporter.enter s.path source line }

def leave : Run Unit :=
  modify fun s => { s with reporter := s.reporter.clear s.path }

def write (writer : Writer) (text : String) : Run Unit :=
  modify fun s => { s with store := s.store.write writer text }

/-- Evaluates in the store of the session. -/
def ofEval {α : Type} (x : Eval α) : Run α := fun s =>
  match x.run s.store with
  | .ok a st => .ok a { s with store := st }
  | .error e st => .error (.ofEval e) { s with store := st }

def ofParse {α : Type} : Except (Stop SourceError) α → Run α
  | .ok a => pure a
  | .error e => throw (.ofParse e)

/-- Parses a program and puts it last in the queue. -/
def add (source : String) (line : Int) : Run Unit := do
  enter source line
  let program ← ofParse (parse (← get).limit source)
  modify fun s => { s with queue := s.queue ++ [⟨source, line, program⟩] }
  leave

/-- Evaluates the queued programs in turn. -/
def runAll : List Queued → Run Unit
  | [] => pure ()
  | q :: waiting => do
    modify fun s => { s with queue := waiting }
    enter q.source q.line
    let v ← ofEval (evaluate .builtins (← get).limit q.program Store.root)
    modify fun s => { s with results := s.results ++ [v] }
    leave
    runAll waiting

/-- Evaluates every program in the queue. -/
def runQueue : Run Unit := do runAll (← get).queue

/-- Takes the most recent result. -/
def pop : Run Value := do
  let s ← get
  match s.results.getLast? with
  | none => throw .noResult
  | some v =>
    set { s with results := s.results.dropLast }
    return v

/-- Hands a failure to the reporter, and fails on with whatever the reporter does not settle. -/
def settle (f : Failure) : Run Unit := do
  match (← get).reporter.take f with
  | none => throw f
  | some settled =>
    write .report settled.text
    modify fun s => { s with reporter := settled.reporter }
    match settled.onward with
    | none => return
    | some f => throw f

/-- Does `x`, handing its failure to the reporter; `none` if it failed. -/
def guarded {α : Type} (x : Run α) : Run (Option α) := fun s =>
  match x s with
  | .ok a s => .ok (some a) s
  | .error f s => (do settle f; return none : Run (Option α)) s

/-- The text of a file: UTF-8, with every line end as a newline. -/
def fileText (files : String → Option (List Nat)) (path : String) : Run String := do
  if path.toList.contains '\x00' then throw (.foreign "ValueError" "embedded null byte")
  match files path with
  | none => throw (.language ("'" ++ path ++ "' could not be opened") false)
  | some bytes => match Text.Utf8.decode bytes with
    | .error fault => throw (.undecodable fault)
    | .ok cs => return String.ofList (Text.foldNewlines cs)

/-- Starts a session: adds the source if one is given, otherwise what the file at the session's
path holds. The path of the shell names no file, and only an interactive session may have it; an
interactive session outlives its failures. -/
def start (files : String → Option (List Nat)) (interactive : Bool) (source : Option String) :
    Run Unit := do
  if interactive then
    modify fun s => { s with reporter := { s.reporter with fatal := false } }
  match source with
  | some source => add source 1
  | none =>
    let path := (← get).path
    if path != Session.shellPath then add (← fileText files path) 1
    else if !interactive then
      throw (.language ("'" ++ Session.shellPath ++ "' is a reserved filename") false)

end Run

end ExprLang
