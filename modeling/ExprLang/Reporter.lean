import ExprLang.Failure
import ExprLang.Text.Blank
import ExprLang.Text.Lines

/-!
# Reports

A reporter knows, for each path, the source that is being worked on, if any. When a failure comes
to it, it writes these sources in the order in which their paths came up, the message, and, for an
error with a place, the line in question with a caret under the column. A fatal reporter then asks
to end; any other forgets its trail and goes on.
-/

namespace ExprLang

/-- A source at work and the number of its first line. -/
structure Running where
  source : String
  line : Int
  deriving DecidableEq, Repr

structure Reporter where
  fatal : Bool
  /-- How a text is made to stand out. -/
  emphasize : String → String
  /-- The paths in the order in which they came up, with what runs there. -/
  trail : List (String × Option Running)

/-- A line of a source with a caret below it. -/
structure Diagnosis where
  line : List Char
  /-- How many characters of the line stand before the caret. -/
  indent : Nat
  deriving DecidableEq, Repr

/-- The line of `source` that a place is in, with the caret at the character before the column;
`none` if there is no such line. -/
def Diagnosis.of? (source : String) (line column : Int) : Option Diagnosis :=
  if line < 1 then none
  else do
    let l ← (Text.lines source.toList)[(line - 1).toNat]?
    return ⟨l, min (column - 1).toNat l.length⟩

def Diagnosis.text (emphasize : String → String) (d : Diagnosis) : String :=
  "  " ++ String.ofList d.line ++ "\n  " ++ String.ofList (List.replicate d.indent ' ')
    ++ emphasize "^"

namespace Reporter

/-- Sets what runs at `path`; a new path comes last. -/
def place (path : String) (r : Option Running) :
    List (String × Option Running) → List (String × Option Running)
  | [] => [(path, r)]
  | (p, q) :: t => if p == path then (path, r) :: t else (p, q) :: place path r t

/-- Notes `path`, or that nothing runs there any more. -/
def clear (r : Reporter) (path : String) : Reporter := { r with trail := place path none r.trail }

/-- Notes that `source` runs at `path`. -/
def enter (r : Reporter) (path source : String) (line : Int) : Reporter :=
  { r with trail := place path (some ⟨source, line⟩) r.trail }

/-- The sources at work; an empty one does not count. -/
def active (r : Reporter) : List (String × Running) :=
  r.trail.filterMap fun (path, running) => match running with
    | some x => if x.source.isEmpty then none else some (path, x)
    | none => none

/-- A source in a report: where it is, and the source itself if it is one line. -/
def headline (path : String) (x : Running) : String :=
  let source := Text.trim x.source
  "  File '" ++ path ++ "', line " ++ toString x.line ++ ":\n"
    ++ (if source.toList.contains '\n' then "" else "    " ++ source ++ "\n")

/-- The text of a report. -/
def report (r : Reporter) (n : Notice) : String :=
  let active := r.active
  let trail := String.join (active.map fun (path, x) => headline path x)
  let caret := do
    let (line, column) ← n.place
    let (_, x) ← active.getLast?
    Diagnosis.of? x.source line column
  (if 1 < active.length then "Traceback:\n" else "") ++ trail
    ++ (if n.isInternal then r.emphasize "[internal] " else "")
    ++ r.emphasize "error: " ++ n.message ++ "\n"
    ++ (match caret with
      | some d => d.text r.emphasize ++ "\n"
      | none => "")

/-- What becomes of a failure that is reported. -/
structure Settlement where
  /-- The report to write. -/
  text : String
  reporter : Reporter
  /-- The failure to go on with, if it is not over. -/
  onward : Option Failure

/-- Reports a failure: a fatal reporter asks to end, any other forgets its trail, and a failure that
no program is to blame for is passed on. A request to end is not reported. -/
def take (r : Reporter) (f : Failure) : Option Settlement := do
  let n ← f.notice?
  let text := r.report n
  if r.fatal then return ⟨text, r, some (.exit (some 1))⟩
  return ⟨text, { r with trail := [] }, if f.foreign?.isSome then some f else none⟩

end Reporter

end ExprLang
