import ExprLang.CommandLine
import ExprLang.Shell

/-!
# Starting from the command line

A program given as an option wins over one in a file or on standard input; with none of these the
shell starts. A mistake in the arguments ends with status 2, any failure of a program that is not
typed into the shell with status 1.
-/

namespace ExprLang

/-- Where programs come from. -/
inductive Task where
  /-- A source under the name `path`. -/
  | source (path text : String)
  /-- A program option that was left without text. -/
  | noText
  | file (path : String)
  | shell
  deriving DecidableEq, Repr

/-- What the command line reads from. -/
structure Surroundings where
  stdin : String
  /-- The bytes of the file at a path, if it can be opened. -/
  files : String → Option (List Nat)
  /-- How reports make a text stand out, if they may use colours. -/
  emphasize : String → String

/-- How a run from the command line ends. -/
inductive Ending where
  | returned
  | exited (status : Option Int)
  | raised (f : Failure)

structure Outcome where
  ending : Ending
  /-- What was written to standard output. -/
  output : Array Piece
  /-- What was written to standard error. -/
  complaint : String

namespace Launch

/-- The name of a program given as an option. -/
def optionPath : String := "<string>"

/-- The name of a program read from standard input. -/
def stdinPath : String := "<stdin>"

def task (stdin : String) (o : CommandLine.Options) : Task :=
  match o.command, o.file with
  | some (.text s), _ => .source optionPath s
  | some .dropped, _ => .noText
  | none, some "-" => .source stdinPath stdin
  | none, some path => .file path
  | none, none => .shell

def reporter (emphasize : String → String) (o : CommandLine.Options) : Reporter :=
  { fatal := true, emphasize := if o.noColor then id else emphasize, trail := [] }

/-- The lines of what is typed, without an empty one after the last newline. -/
def inputLines (stdin : String) : List String :=
  let lines := Text.lines stdin.toList
  let full := if lines.getLast? = some [] then lines.dropLast else lines
  full.map String.ofList

/-- Opens the shell and greets. -/
def greet (files : String → Option (List Nat)) : Talk Unit := do
  Talk.inSession (Run.start files true none)
  Talk.write (Shell.intro ++ "\n")

/-- The shell on `lines`, as if the end of input were typed behind them. -/
def talk (files : String → Option (List Nat)) (lines : List String) : Talk Unit := do
  greet files
  Talk.feedAll (lines ++ ["EOF"])

/-- How a session ends that does `x` and hands what it fails with to the reporter. -/
def conclude (s : Session) (x : Run Unit) : Outcome :=
  match (Run.guarded x).run s with
  | .ok _ s => ⟨.returned, s.store.output, ""⟩
  | .error (.exit status) s => ⟨.exited status, s.store.output, ""⟩
  | .error f s => ⟨.raised f, s.store.output, ""⟩

/-- Starts a session on a source or on the file at its path, and runs it. -/
def batch (env : Surroundings) (source : Option String) : Run Unit := do
  Run.start env.files false source
  Run.runQueue

/-- Does what the options ask for. -/
def perform (limit : Nat) (env : Surroundings) (o : CommandLine.Options) : Outcome :=
  let blank (path : String) : Session := .blank limit path (reporter env.emphasize o)
  match task env.stdin o with
  | .source path text => conclude (blank path) (batch env (some text))
  | .noText => conclude (blank optionPath) <|
    throw (.foreign "TypeError" "'in <string>' requires string as left operand, not list")
  | .file path => conclude (blank path) (batch env none)
  | .shell =>
    match (talk env.files (inputLines env.stdin)).run (.ofSession (blank Session.shellPath)) with
    | .ok _ sh => conclude sh.session (return)
    | .error f sh => conclude sh.session (throw f)

end Launch

/-- Everything that a run from the command line does. -/
def launch (limit : Nat) (env : Surroundings) (args : List String) : Outcome :=
  match CommandLine.read args with
  | .error m => ⟨.exited (some 2), #[], m.report⟩
  | .ok .help => ⟨.exited (some 0), #[⟨.shell, CommandLine.helpText⟩], ""⟩
  | .ok (.run o) => Launch.perform limit env o

end ExprLang
