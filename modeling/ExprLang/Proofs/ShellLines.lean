import ExprLang.Shell
import ExprLang.Proofs.Sessions

/-!
# What the shell makes of a line

A line may hold program text (`Shell.Line.program?`), also behind the name of a command. The text
goes behind what is pending, and the whole is scanned (`Shell.source?`): either all of it is kept,
or it is all submitted (`Shell.submission?`). Taking a line is showing what a command shows,
counting the line, and adding what is submitted to the session under its line number
(`Talk.feed_eq_add`).
-/

namespace ExprLang

namespace Shell.Line

/-- The program text in a line. -/
def program? : Line → Option String
  | blank => none
  | help argument => if argument.isEmpty then none else some ("help " ++ argument)
  | exit argument | eof argument => if argument.isEmpty then none else some ("exit " ++ argument)
  | code text => some text

/-- What is shown before anything else is done. -/
def echo? : Line → Option String
  | help argument => if argument.isEmpty then some welcome else none
  | eof _ => some "\n"
  | blank | exit _ | code _ => none

def reply : Line → Reply
  | blank => .blank
  | exit argument | eof argument => if argument.isEmpty then .stop else .done
  | help _ | code _ => .done

end Shell.Line

namespace Talk

/-- A line is taken in three steps, the first two of which may have nothing to do. -/
theorem feed_eq_code (line : String) : feed line = (do
    (Shell.Line.ofText line).echo?.forM write
    (Shell.Line.ofText line).program?.forM code
    return (Shell.Line.ofText line).reply) := by
  unfold feed
  cases Shell.Line.ofText line with
  | blank => rfl
  | help argument =>
    by_cases h : argument.isEmpty <;> simp [Shell.Line.echo?, Shell.Line.program?, h] <;> rfl
  | exit argument =>
    by_cases h : argument.isEmpty <;> simp [exit, Shell.Line.program?, Shell.Line.reply, h] <;> rfl
  | eof argument =>
    by_cases h : argument.isEmpty <;> simp [exit, Shell.Line.program?, Shell.Line.reply, h] <;> rfl
  | code text => rfl

@[simp] theorem wp_inSession {α : Type} {x : Run α} {Q : α → Shell → Prop}
    {B : Failure → Shell → Prop} {sh : Shell} : wp (inSession x) Q B sh ↔
      wp x (fun a s => Q a { sh with session := s }) (fun f s => B f { sh with session := s })
        sh.session := by
  simp only [wp, inSession]
  cases x sh.session <;> rfl

end Talk

namespace Shell

/-- The source that the program text in a line is scanned as. -/
def source? (sh : Shell) (line : String) : Option String :=
  (Line.ofText line).program?.map fun text => sh.pending ++ text ++ "\n"

/-- The source that is submitted when a line is taken, with its line number. -/
def submission? (sh : Shell) (line : String) : Option (String × Int) :=
  (Line.ofText line).program?.bind fun text => (sh.accept text).1

/-- The shell with a line counted, before anything is run. -/
def noted (sh : Shell) (line : String) : Shell :=
  (Line.ofText line).program?.elim sh fun text => (sh.accept text).2

section
variable {sh sh' : Shell} {line source : String}

/-- Text that leaves something open is kept. -/
theorem kept_of_continues (h : sh.source? line = some source) (hsource : continues source) :
    sh.submission? line = none ∧ sh.noted line =
      { sh with line := sh.line + 1, pending := source, prompt := secondaryPrompt } := by
  obtain ⟨text, htext, rfl⟩ := Option.map_eq_some_iff.1 h
  rw [submission?, noted, htext, Option.bind_some, Option.elim_some, accept, if_pos hsource]
  exact ⟨rfl, rfl⟩

/-- With nothing open, all of it is submitted, and the shell is back at the primary prompt. -/
theorem submitted_of_complete (h : sh.source? line = some source)
    (hsource : continues source = false) : (∃ n, sh.submission? line = some (source, n)) ∧
      (sh.noted line).pending = "" ∧ (sh.noted line).prompt = primaryPrompt := by
  obtain ⟨text, htext, rfl⟩ := Option.map_eq_some_iff.1 h
  rw [submission?, noted, htext, Option.bind_some, Option.elim_some, accept,
    if_neg (by simp [hsource])]
  exact ⟨⟨_, rfl⟩, rfl, rfl⟩

/-- One of the two becomes of a source. -/
theorem kept_or_submitted (h : sh.source? line = some source) :
    (continues source → sh.submission? line = none ∧ (sh.noted line).pending = source) ∧
      (continues source = false → ∃ n, sh.submission? line = some (source, n)) := by
  refine ⟨fun hsource => ?_, fun hsource => (submitted_of_complete h hsource).1⟩
  obtain ⟨hnone, hnoted⟩ := kept_of_continues h hsource
  exact ⟨hnone, by rw [hnoted]⟩

theorem reply_of_source (h : sh.source? line = some source) : (Line.ofText line).reply = .done := by
  obtain ⟨text, htext, -⟩ := Option.map_eq_some_iff.1 h
  cases hline : Line.ofText line <;> simp_all [Line.program?, Line.reply]

/-- The shells have counted the same lines, and the same text is pending. -/
structure SameText (sh sh' : Shell) : Prop where
  line : sh'.line = sh.line
  pending : sh'.pending = sh.pending

namespace SameText

theorem accept (h : sh.SameText sh') (text : String) :
    (sh'.accept text).1 = (sh.accept text).1 ∧ (sh.accept text).2.SameText (sh'.accept text).2 := by
  simp only [Shell.accept, h.line, h.pending]
  split <;> exact ⟨rfl, rfl, rfl⟩

theorem submission? (h : sh.SameText sh') (line : String) :
    sh'.submission? line = sh.submission? line := by
  rw [Shell.submission?, Shell.submission?]
  exact congrArg _ (funext fun text => (h.accept text).1)

theorem noted (h : sh.SameText sh') (line : String) : (sh.noted line).SameText (sh'.noted line) := by
  rw [Shell.noted, Shell.noted]
  cases (Line.ofText line).program? with
  | none => exact h
  | some text => exact (h.accept text).2

end SameText

end

end Shell

namespace Talk
open Shell

theorem code_eq_submit (text : String) (sh : Shell) :
    code text sh = ((sh.accept text).1.forM fun s => submit s.1 s.2) (sh.accept text).2 := by
  have haccept : modifyGet (m := Talk) (·.accept text) sh =
      .ok (sh.accept text).1 (sh.accept text).2 := rfl
  rw [code, bind_of_ok haccept]
  cases (sh.accept text).1 <;> rfl

/-- A line is taken by showing what it shows, counting it, and adding what it completes to the
session, where that is run. -/
theorem feed_eq_add (line : String) (sh : Shell) : feed line sh = (do
    (Line.ofText line).echo?.forM write
    modify (·.noted line)
    (sh.submission? line).forM fun s => discard <| inSession <| Run.guarded do
      Run.add s.1 s.2
      Run.runQueue
      showResult
    return (Line.ofText line).reply : Talk Reply) sh := by
  -- what is shown touches neither the count nor what is pending
  have htake : ∀ sh' : Shell, sh.SameText sh' →
      (do (Line.ofText line).program?.forM code
          return (Line.ofText line).reply : Talk Reply) sh' =
      (do modify (·.noted line)
          (sh.submission? line).forM fun s => submit s.1 s.2
          return (Line.ofText line).reply : Talk Reply) sh' := by
    intro sh' hsame
    have hnoted : (modify (·.noted line) : Talk Unit) sh' = .ok () (sh'.noted line) := rfl
    rw [bind_of_ok hnoted, ← hsame.submission?, noted, submission?]
    cases (Line.ofText line).program? with
    | none => rfl
    | some text =>
      show EStateM.bind (code text) _ sh' = EStateM.bind _ _ (sh'.accept text).2
      rw [EStateM.bind, EStateM.bind, code_eq_submit]
      rfl
  rw [feed_eq_code]
  cases (Line.ofText line).echo? with
  | none => exact htake sh ⟨rfl, rfl⟩
  | some shown =>
    have hwrite : write shown sh = .ok () { sh with
      session.store := sh.session.store.write .shell shown } := rfl
    show (write shown >>= _) sh = (write shown >>= _) sh
    rw [bind_of_ok hwrite, bind_of_ok hwrite]
    exact htake _ ⟨rfl, rfl⟩

/-- Nothing in the shell but its session is touched by what a source does. -/
theorem wp_submit (source : String) (n : Int) (sh : Shell) :
    wp (submit source n) (fun _ sh' => ∃ s, sh' = { sh with session := s })
      (fun _ sh' => ∃ s, sh' = { sh with session := s }) sh := by
  rw [submit, wp_discard, wp_inSession]
  exact wp_of_forall (fun _ s => ⟨s, rfl⟩) fun _ s => ⟨s, rfl⟩

end Talk

end ExprLang
