import ExprLang.Text.Digit
import ExprLang.Text.Quoted

/-!
# The command line

Arguments are first sorted into options, plain arguments and the separator `--`, behind which
everything is plain. An argument with a leading dash is plain if it looks like a negative number
or holds a blank. Long options may be cut short as long as one option remains; a short option may
have its value or further short options glued to it. One plain argument is the file, what is left
over is refused.
-/

namespace ExprLang.CommandLine

inductive Flag where
  | help
  | command
  | noColor
  deriving DecidableEq, Repr

/-- The spellings of the options. -/
def spellings : List (String × Flag) :=
  [("-h", .help), ("--help", .help), ("-c", .command), ("--command", .command),
   ("--no-color", .noColor)]

/-- What an option is called in a message. -/
def Flag.title : Flag → String
  | help => "-h/--help"
  | command => "-c/--command"
  | noColor => "--no-color"

/-- A mistake in the arguments. -/
inductive Misuse where
  | ambiguous (argument : String) (candidates : List String)
  | missingValue (flag : Flag)
  | needlessValue (flag : Flag) (value : String)
  | unrecognized (arguments : List String)
  deriving DecidableEq, Repr

def Misuse.message : Misuse → String
  | ambiguous argument candidates =>
    "ambiguous option: " ++ argument ++ " could match " ++ String.intercalate ", " candidates
  | missingValue flag => "argument " ++ flag.title ++ ": expected one argument"
  | needlessValue flag value =>
    "argument " ++ flag.title ++ ": ignored explicit argument " ++ Text.quoted value
  | unrecognized arguments => "unrecognized arguments: " ++ String.intercalate " " arguments

def usage : String := "usage: lambdalang [-h] [-c COMMAND] [--no-color] [file]\n"

def helpText : String :=
  usage
    ++ "\npositional arguments:\n"
    ++ "  file                  file to interpret and run ('-' reads standard input,\n"
    ++ "                        if empty and no command is given, goes to command-line\n"
    ++ "                        mode)\n"
    ++ "\noptions:\n"
    ++ "  -h, --help            show this help message and exit\n"
    ++ "  -c COMMAND, --command COMMAND\n"
    ++ "                        program passed in as a string\n"
    ++ "  --no-color            disable colored error output\n"

/-- What is written about a mistake. -/
def Misuse.report (m : Misuse) : String := usage ++ "lambdalang: error: " ++ m.message ++ "\n"

/-! ### Sorting arguments -/

/-- What an argument is. -/
inductive Kind where
  | plain
  | separator
  /-- An option, whether it is a long one, and what is glued to it. -/
  | option (flag : Flag) (long : Bool) (glued : Option (List Char))
  /-- Something that would be an option if there were one of that name. -/
  | unknown
  deriving DecidableEq, Repr

/-- Splits at the first equals sign. -/
def splitEquals (cs : List Char) : List Char × Option (List Char) :=
  match cs.dropWhile (· != '=') with
  | [] => (cs, none)
  | _ :: value => (cs.takeWhile (· != '='), some value)

def isLong (spelling : List Char) : Bool := "--".toList.isPrefixOf spelling

/-- The option of exactly this spelling. -/
def spelled? (spelling : List Char) : Option Flag := spellings.lookup (String.ofList spelling)

/-- Whether `cs` is a dash followed by a number, the digits of any script allowed; one newline may
follow. -/
def isNegativeNumber (cs : List Char) : Bool :=
  let body := match cs.getLast? with
    | some '\n' => cs.dropLast
    | _ => cs
  match body with
  | '-' :: r =>
    let whole := r.takeWhile Text.isDecimalDigit
    match r.dropWhile Text.isDecimalDigit with
    | [] => !whole.isEmpty
    | '.' :: fraction => !fraction.isEmpty && fraction.all Text.isDecimalDigit
    | _ => false
  | _ => false

/-- Sorts an argument with a leading dash that is no option as it stands. -/
def sortOther (argument : String) (cs : List Char) : Except Misuse Kind :=
  if isLong cs then
    let (name, glued) := splitEquals cs
    match spellings.filter fun s => name.isPrefixOf s.1.toList with
    | [] => .ok fallback
    | [(_, flag)] => .ok (.option flag true glued)
    | several => .error (.ambiguous argument (several.map Prod.fst))
  else match spelled? (cs.take 2) with
    | some flag => .ok (.option flag false (some (cs.drop 2)))
    | none => .ok fallback
where
  fallback : Kind :=
    if isNegativeNumber cs || cs.contains ' ' then .plain else .unknown

/-- Sorts an argument in front of the separator. -/
def sort (argument : String) : Except Misuse Kind :=
  let cs := argument.toList
  if cs.head? != some '-' then .ok .plain
  else match spelled? cs with
    | some flag => .ok (.option flag (isLong cs) none)
    | none =>
      if cs.length = 1 then .ok .plain
      else
        let (name, glued) := splitEquals cs
        match glued, spelled? name with
        | some g, some flag => .ok (.option flag (isLong name) (some g))
        | _, _ => sortOther argument cs

/-- Sorts all arguments. -/
def sortAll : List String → Except Misuse (List (String × Kind))
  | [] => .ok []
  | "--" :: r => .ok (("--", .separator) :: r.map (·, .plain))
  | a :: r => do
    let k ← sort a
    return (a, k) :: (← sortAll r)

/-! ### Carrying options out -/

/-- A program on the command line. -/
inductive CommandText where
  | text (s : String)
  /-- The value `--` glued to an option counts as a separator and is dropped, so that no text is
  left. -/
  | dropped
  deriving DecidableEq, Repr

structure Options where
  file : Option String
  command : Option CommandText
  noColor : Bool
  deriving DecidableEq, Repr

/-- What the arguments ask for. -/
inductive Request where
  | run (options : Options)
  | help
  deriving DecidableEq, Repr

/-- What is glued to the short help option: further short options, given the arguments that follow.
Only the last of them may have a value. -/
def checkCluster (following : List (String × Kind)) : List Char → Except Misuse Unit
  | [] => .ok ()
  | 'h' :: r => checkCluster following r
  | ['c'] => match following with
    | (_, .plain) :: _ => .ok ()
    | _ => .error (.missingValue .command)
  | 'c' :: _ => .ok ()
  | r => .error (.needlessValue .help (String.ofList r))

/-- A value glued to the command option. -/
def commandValue (value : List Char) : CommandText :=
  if value = ['-', '-'] then .dropped else .text (String.ofList value)

/-- Where reading the arguments stands. -/
structure Progress where
  options : Options
  /-- Whether there was an occasion to take the file. -/
  fileTaken : Bool
  /-- What no option and no file accounts for, in reverse. -/
  extras : List String
  deriving DecidableEq, Repr

def Progress.start : Progress := ⟨⟨none, none, false⟩, false, []⟩

def isOption : Kind → Bool
  | .option .. | .unknown => true
  | _ => false

/-- The file among arguments without options: it may stand on either side of the separator. -/
def takeFile (p : Progress) (args : List (String × Kind)) : Progress × List (String × Kind) :=
  if p.fileTaken then (p, args)
  else
    let took (file : Option String) : Progress :=
      { p with fileTaken := true, options := { p.options with file } }
    match args with
    | (_, .separator) :: (f, .plain) :: r => (took (some f), r)
    | (_, .separator) :: r => (took none, r)
    | (f, .plain) :: (_, .separator) :: r => (took (some f), r)
    | (f, .plain) :: r => (took (some f), r)
    | r => (took none, r)

/-- What is left when no option remains. -/
def finish (p : Progress) (args : List (String × Kind)) : Except Misuse Request :=
  let (p, left) := takeFile p args
  match p.extras.reverse ++ left.map Prod.fst with
  | [] => .ok (.run p.options)
  | extras => .error (.unrecognized extras)

/-- Carries out the sorted arguments in turn. -/
def carryOut (p : Progress) : List (String × Kind) → Except Misuse Request
  | [] => finish p []
  | (a, kind) :: r =>
    match kind with
    | .unknown => carryOut { p with extras := a :: p.extras } r
    | .option .noColor _ none =>
      carryOut { p with options := { p.options with noColor := true } } r
    | .option .noColor _ (some g) => .error (.needlessValue .noColor (String.ofList g))
    | .option .help _ none => .ok .help
    | .option .help long (some g) =>
      if long || g.isEmpty then .error (.needlessValue .help (String.ofList g))
      else do
        checkCluster r g
        return .help
    | .option .command _ (some g) =>
      carryOut { p with options := { p.options with command := some (commandValue g) } } r
    | .option .command _ none => match r with
      | (v, .plain) :: r =>
        carryOut { p with options := { p.options with command := some (.text v) } } r
      | _ => .error (.missingValue .command)
    | .plain | .separator =>
      if !r.any (isOption ·.2) then finish p ((a, kind) :: r)
      else if p.fileTaken then carryOut { p with extras := a :: p.extras } r
      else carryOut { p with fileTaken := true, options := { p.options with file := some a } } r

/-- Reads the arguments of the command line. -/
def read (args : List String) : Except Misuse Request := do
  carryOut .start (← sortAll args)

end ExprLang.CommandLine
