import ExprLang.Continuation
import ExprLang.Session

/-!
# The shell

Lines are trimmed. A line that is a command by itself is carried out; any other line is program
text, also when it begins with the name of a command. Text that leaves a string or a bracket open
is kept and continued by the next line; otherwise it is run, and its value is shown unless it is
false.
-/

namespace ExprLang

structure Shell where
  session : Session
  /-- The lines that wait to be continued, each with its newline. -/
  pending : String
  /-- How many lines of program text there were. -/
  line : Nat
  prompt : String

/-- A computation in a shell; the shell is kept when it fails. -/
abbrev Talk := EStateM Failure Shell

/-- What a line leads to. -/
inductive Reply where
  | done
  /-- The line was blank. -/
  | blank
  | stop
  deriving DecidableEq, Repr

namespace Shell

def primaryPrompt : String := "> "

def secondaryPrompt : String := ". "

def intro : String :=
  "lambdalang interpreter :: Python backend\nType '?' or 'help' for more information."

def welcome : String :=
  "Welcome to the lambdalang interpreter!\n\n"
    ++ "lambdalang is a small expression language: numbers, strings, booleans, \n"
    ++ "variables, if/then/else, and closures. Expressions are separated by ';'.\n\n"
    ++ "Try it out by typing 'sum = lambda(x, y) x + y'. This will bind a function\n"
    ++ "to 'sum'. Next, try typing 'print(sum(2, 3))'. This will print '5'.\n"

def ofSession (session : Session) : Shell :=
  { session, pending := "", line := 0, prompt := primaryPrompt }

/-- Takes a line of program text: either it is kept, or the source it completes is to be run, with
the number of the source's first line. -/
def accept (sh : Shell) (text : String) : Option (String × Int) × Shell :=
  let line := sh.line + 1
  let source := sh.pending ++ text ++ "\n"
  if continues source then
    (none, { sh with line, pending := source, prompt := secondaryPrompt })
  else
    (some (source, line - source.toList.count '\n' + 1),
      { sh with line, pending := "", prompt := primaryPrompt })

/-- Whether `c` may be part of a command name. -/
def isCommandPart (c : Char) : Bool := c.isAlphanum || c == '_'

/-- What a line says, once trimmed. -/
inductive Line where
  | blank
  | help (argument : String)
  | exit (argument : String)
  | eof (argument : String)
  | code (text : String)
  deriving DecidableEq, Repr

/-- Takes a line apart: a leading question mark asks for help, and a leading run of letters,
digits and underscores may name a command, whose argument is the rest. -/
def Line.ofText (line : String) : Line :=
  match Text.trimChars line.toList with
  | [] => blank
  | c :: r =>
    let cs := if c = '?' then "help ".toList ++ r else c :: r
    let argument := String.ofList (Text.trimChars (cs.dropWhile isCommandPart))
    match String.ofList (cs.takeWhile isCommandPart) with
    | "help" => help argument
    | "exit" => exit argument
    | "EOF" => eof argument
    | _ => code (String.ofList cs)

end Shell

namespace Talk

/-- Does `x` in the session of the shell. -/
def inSession {α : Type} (x : Run α) : Talk α := fun sh =>
  match x sh.session with
  | .ok a s => .ok a { sh with session := s }
  | .error f s => .error f { sh with session := s }

def write (text : String) : Talk Unit := inSession (Run.write .shell text)

/-- Shows the most recent result, if there is one and it is not false. -/
def showResult : Run Unit := do
  unless (← get).results.isEmpty do
    match ← Run.pop with
    | .truth false => return
    | v => match v.display with
      | .ok shown => Run.write .shell (shown ++ "\n")
      | .error o => throw (.evaluation (.overflow o))

/-- Adds a source to the session under the number of its first line, runs it and shows its value;
the reporter settles what fails. -/
def submit (source : String) (line : Int) : Talk Unit :=
  discard <| inSession <| Run.guarded do
    Run.add source line
    Run.runQueue
    showResult

/-- Takes a line of program text, and submits the source that it completes. -/
def code (text : String) : Talk Unit := do
  match ← modifyGet (·.accept text) with
  | none => return
  | some (source, line) => submit source line

/-- Ends the shell; with an argument, the line is program text. -/
def exit (argument : String) : Talk Reply := do
  if argument.isEmpty then return .stop
  code ("exit " ++ argument)
  return .done

/-- Takes a line. -/
def feed (line : String) : Talk Reply := do
  match Shell.Line.ofText line with
  | .blank => return .blank
  | .help argument =>
    if argument.isEmpty then write Shell.welcome else code ("help " ++ argument)
    return .done
  | .eof argument =>
    write "\n"
    exit argument
  | .exit argument => exit argument
  | .code text =>
    code text
    return .done

/-- Takes lines until one of them ends the shell. -/
def feedAll : List String → Talk Unit
  | [] => return
  | line :: lines => do
    write (← get).prompt
    if (← feed line) != .stop then feedAll lines

end Talk

end ExprLang
