import ExprLang.Launch

/-!
# The program

Reads what the command line asks for, and writes what a run leaves behind. The shell is served
line by line.
-/

namespace ExprLang

/-- The bytes of a file, if it can be opened. -/
def readFile? (path : String) : IO (Option (List Nat)) := do
  try
    let bytes ← IO.FS.readBinFile path
    return some (bytes.toList.map UInt8.toNat)
  catch _ => return none

/-- Writes the pieces from the `n`-th on. -/
def writePieces (pieces : Array Piece) (n : Nat) : IO Unit := do
  let out ← IO.getStdout
  for p in pieces.toList.drop n do out.putStr p.text
  out.flush

/-- Everything that standard input holds, one piece for each line. -/
partial def readAll (h : IO.FS.Stream) (read : String) : IO String := do
  let line ← h.getLine
  if line.isEmpty then return read else readAll h (read ++ line)

/-- The text in bold red letters. -/
def boldRed (text : String) : String := "\x1b[1m\x1b[31m" ++ text ++ "\x1b[0m"

/-- The status that the program ends with. -/
def Ending.status : Ending → UInt32
  | returned => 0
  | exited status => UInt32.ofNat (status.getD 0).toNat
  | raised _ => 1

/-- Serves the shell until it stops, and answers the exit status. -/
partial def serve (h : IO.FS.Stream) (sh : Shell) (written : Nat) : IO UInt32 := do
  let sh := match (Talk.write sh.prompt).run sh with
    | .ok _ sh | .error _ sh => sh
  writePieces sh.session.store.output written
  let written := sh.session.store.output.size
  let typed ← h.getLine
  let line := if typed.isEmpty then "EOF" else
    String.ofList (if typed.endsWith "\n" then typed.toList.dropLast else typed.toList)
  match (Talk.feed line).run sh with
  | .ok reply sh =>
    writePieces sh.session.store.output written
    if reply = .stop then return 0 else serve h sh sh.session.store.output.size
  | .error f sh =>
    let outcome := Launch.conclude sh.session (throw f)
    writePieces outcome.output written
    return outcome.ending.status

end ExprLang

open ExprLang in
def main (args : List String) : IO UInt32 := do
  let stdin ← IO.getStdin
  let colored := (← (← IO.getStdout).isTty) && (← IO.getEnv "NO_COLOR").isNone
  let emphasize := if colored then boldRed else id
  match CommandLine.read args with
  | .ok (.run ⟨none, none, noColor⟩) =>
    let reporter := Launch.reporter emphasize ⟨none, none, noColor⟩
    let sh := Shell.ofSession (.blank defaultLimit Session.shellPath reporter)
    match (Launch.greet fun _ => none).run sh with
    | .ok _ sh | .error _ sh => do
      writePieces sh.session.store.output 0
      serve stdin sh sh.session.store.output.size
  | request =>
    let file := match request with
      | .ok (.run o) => o.file
      | _ => none
    let text ← if file = some "-" then readAll stdin "" else pure ""
    let bytes ← match file with
      | some path => readFile? path
      | none => pure none
    let outcome := launch defaultLimit ⟨text, fun _ => bytes, emphasize⟩ args
    writePieces outcome.output 0
    IO.eprint outcome.complaint
    return outcome.ending.status
