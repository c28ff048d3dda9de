import ExprLang.Proofs.Safety
import ExprLang.Proofs.ShellLines

/-!
# The shell between two lines

Whatever is typed, the shell is ready for the next line: nothing waits in its session, no report is
under way, and the prompt says whether text is pending (`Shell.Ready`). A program that fails does
not change that, for what a program can fail with is its own fault, and that is reported and over.
-/

namespace ExprLang

/-- The failures that a report puts an end to. -/
def Failure.IsOwn (f : Failure) : Prop := f.foreign? = none ∧ ∃ n, f.notice? = some n

theorem Failure.Ordinary.isOwn {f : Failure} (h : f.Ordinary) : f.IsOwn := by
  obtain ⟨hown, n, hn, -⟩ := h.exists_notice
  exact ⟨hown, n, hn⟩

/-- Nothing waits and no value stands, reports are not fatal, and the store is a program's own. -/
structure Session.Quiet (s : Session) : Prop where
  queue : s.queue = []
  results : s.results = []
  fatal : s.reporter.fatal = false
  regular : s.store.All Value.Regular

/-- And no program is at work. -/
structure Session.AtRest (s : Session) : Prop extends s.Quiet where
  trail : ∀ entry ∈ s.reporter.trail, entry.2 = none

namespace Session
variable {s : Session}

theorem AtRest.write (h : s.AtRest) (writer : Writer) (text : String) :
    AtRest { s with store := s.store.write writer text } :=
  ⟨⟨h.queue, h.results, h.fatal, h.regular⟩, h.trail⟩

/-- A failure of a program's own is over once it is reported. -/
theorem Quiet.wp_settle (h : s.Quiet) {f : Failure} (hf : f.IsOwn) :
    wp (Run.settle f) (fun _ s' => s'.AtRest) (fun _ _ => False) s := by
  obtain ⟨hown, n, hn⟩ := hf
  rw [wp_iff_of_ok (Run.settle_of_own h.fatal hown hn)]
  exact ⟨⟨h.queue, h.results, h.fatal, h.regular⟩, by simp⟩

theorem AtRest.wp_add_runQueue (h : s.AtRest) (source : String) (line : Int) :
    wp (do Run.add source line; Run.runQueue; Talk.showResult) (fun _ s' => s'.AtRest)
      (fun f s' => f.IsOwn ∧ s'.Quiet) s := by
  simp only [Talk.showResult, wp_bind]
  rw [Run.wp_add_runQueue h.queue]
  refine wp_mono (wp_interpret s.limit source h.regular) ?_ ?_
  · rintro v st ⟨hv, hst⟩
    have hrest : AtRest { s.idle with store := st } :=
      ⟨⟨h.queue, h.results, h.fatal, hst⟩, Reporter.of_mem_place h.trail⟩
    have hpop : Run.pop { s.idle with store := st, results := s.results ++ [v] } =
        .ok v { s.idle with store := st, results := s.results } := Run.pop_of_append rfl
    obtain ⟨shown, hshown⟩ := hv.display
    simp only [wp_get, List.isEmpty_iff, List.append_eq_nil_iff, List.cons_ne_self, and_false,
      if_false, wp_bind]
    rw [wp_iff_of_ok hpop]
    split
    · exact hrest
    · rw [hshown]
      exact hrest.write .shell (shown ++ "\n")
  · rintro f st ⟨hf, hst⟩
    exact ⟨hf.ordinary.isOwn, h.queue, h.results, h.fatal, hst⟩

theorem AtRest.wp_guarded (h : s.AtRest) (source : String) (line : Int) :
    wp (Run.guarded (do Run.add source line; Run.runQueue; Talk.showResult)) (fun _ s' => s'.AtRest)
      (fun _ _ => False) s := by
  rw [Run.wp_guarded]
  refine wp_mono (h.wp_add_runQueue source line) (fun _ _ h => h) ?_
  rintro f s' ⟨hf, hs'⟩
  exact hs'.wp_settle hf

end Session

/-- The shell waits for a line: its session is at rest, and the prompt is the secondary one just if
text is pending, which is whole lines that leave something open. -/
structure Shell.Ready (sh : Shell) : Prop where
  session : sh.session.AtRest
  prompt : sh.prompt = if sh.pending = "" then primaryPrompt else secondaryPrompt
  pending : sh.pending ≠ "" → (∃ text, sh.pending = text ++ "\n") ∧ continues sh.pending

namespace Shell.Ready
variable {sh : Shell}

theorem write (h : sh.Ready) (text : String) :
    wp (Talk.write text) (fun _ sh' => sh'.Ready ∧ sh'.line = sh.line) (fun _ _ => False) sh := by
  rw [Talk.write, Talk.wp_inSession]
  exact ⟨⟨h.session.write .shell text, h.prompt, h.pending⟩, rfl⟩

theorem code (h : sh.Ready) (text : String) :
    wp (Talk.code text) (fun _ sh' => sh'.Ready ∧ sh'.line = sh.line + 1) (fun _ _ => False) sh := by
  rw [Talk.code, wp_bind, wp_modifyGet]
  by_cases hcontinues : continues (sh.pending ++ text ++ "\n")
  · have haccept : sh.accept text = (none, _) := if_pos hcontinues
    have hne : sh.pending ++ text ++ "\n" ≠ "" := by simp
    rw [haccept]
    exact ⟨⟨h.session, (if_neg hne).symm, fun _ => ⟨⟨_, rfl⟩, hcontinues⟩⟩, rfl⟩
  · have haccept : sh.accept text = (some (sh.pending ++ text ++ "\n", _), _) := if_neg hcontinues
    rw [haccept]
    show wp (Talk.submit _ _) _ _ _
    rw [Talk.submit, wp_discard, Talk.wp_inSession]
    refine wp_mono (h.session.wp_guarded _ _) ?_ fun _ _ h => h
    intro _ s' hs'
    exact ⟨⟨hs', rfl, fun hne => absurd rfl hne⟩, rfl⟩

theorem feed (h : sh.Ready) (line : String) :
    wp (Talk.feed line)
      (fun _ sh' => sh'.Ready ∧
        sh'.line = sh.line + if (Line.ofText line).program?.isSome then 1 else 0)
      (fun _ _ => False) sh := by
  have hecho : wp ((Line.ofText line).echo?.forM Talk.write)
      (fun _ sh' => sh'.Ready ∧ sh'.line = sh.line) (fun _ _ => False) sh := by
    cases (Line.ofText line).echo? with
    | none => exact ⟨h, rfl⟩
    | some text => exact h.write text
  rw [Talk.feed_eq_code, wp_bind]
  refine wp_mono hecho ?_ fun _ _ h => h
  rintro _ sh₁ ⟨h₁, hline₁⟩
  rw [wp_bind]
  cases (Line.ofText line).program? with
  | none => exact ⟨h₁, hline₁⟩
  | some text =>
    refine wp_mono (h₁.code text) ?_ fun _ _ h => h
    rintro _ sh₂ ⟨h₂, hline₂⟩
    exact ⟨h₂, hline₂.trans (congrArg (· + 1) hline₁)⟩

theorem feeds (h : sh.Ready) (lines : List String) :
    wp (lines.mapM Talk.feed)
      (fun replies sh' => sh'.Ready ∧ replies.length = lines.length ∧
        sh'.line = sh.line + lines.countP fun line => (Line.ofText line).program?.isSome)
      (fun _ _ => False) sh := by
  induction lines generalizing sh with
  | nil =>
    rw [List.mapM_nil, wp_pure]
    exact ⟨h, rfl, rfl⟩
  | cons line lines ih =>
    rw [List.mapM_cons, wp_bind]
    refine wp_mono (h.feed line) ?_ fun _ _ h => h
    rintro reply sh₁ ⟨h₁, hline₁⟩
    rw [wp_bind]
    refine wp_mono (ih h₁) ?_ fun _ _ h => h
    rintro replies sh₂ ⟨h₂, hlength, hline₂⟩
    refine ⟨h₂, by simp [hlength], ?_⟩
    rw [hline₂, hline₁, List.countP_cons]
    omega

end Shell.Ready

/-- A shell that was just opened. -/
def Shell.opened (limit : Nat) (emphasize : String → String) : Shell :=
  .ofSession
    { limit, path := Session.shellPath, queue := [], results := []
      reporter := ⟨false, emphasize, [(Session.shellPath, none)]⟩, store := .initial }

theorem Talk.start_eq (files : String → Option (List Nat)) (limit : Nat) (fatal : Bool)
    (emphasize : String → String) :
    inSession (Run.start files true none)
      (.ofSession (.blank limit Session.shellPath ⟨fatal, emphasize, []⟩)) =
      .ok () (Shell.opened limit emphasize) :=
  rfl

theorem Shell.ready_opened (limit : Nat) (emphasize : String → String) :
    (opened limit emphasize).Ready where
  session := ⟨⟨rfl, rfl, rfl, Store.all_initial trivial⟩, by simp [opened, ofSession]⟩
  prompt := rfl
  pending hne := absurd rfl hne

/-- Whatever is typed into a new shell, no failure comes out of it, and between two lines nothing
waits, no value stands, reports are not fatal and no source is under way. The secondary prompt
stands just if text is pending, which is whole lines that leave something open. The lines that are
counted are those that hold program text. -/
theorem shell_stays_ready (limit : Nat) (files : String → Option (List Nat)) (fatal : Bool)
    (emphasize : String → String) (lines : List String) : ∃ replies sh,
    (do Talk.inSession (Run.start files true none); lines.mapM Talk.feed : Talk (List Reply))
      (.ofSession (.blank limit Session.shellPath ⟨fatal, emphasize, []⟩)) = .ok replies sh ∧
    replies.length = lines.length ∧
    sh.session.queue = [] ∧ sh.session.results = [] ∧
    sh.session.reporter.fatal = false ∧ (∀ entry ∈ sh.session.reporter.trail, entry.2 = none) ∧
    (sh.prompt = Shell.secondaryPrompt ↔ sh.pending ≠ "") ∧
    (sh.prompt = Shell.primaryPrompt ↔ sh.pending = "") ∧
    (sh.pending ≠ "" → (∃ text, sh.pending = text ++ "\n") ∧ continues sh.pending) ∧
    sh.line = lines.countP fun line => (Shell.Line.ofText line).program?.isSome := by
  obtain ⟨replies, sh, hrun, hready, hlength, hline⟩ :=
    exists_ok_of_wp ((Shell.ready_opened limit emphasize).feeds lines)
  have hstart := Talk.start_eq files limit fatal emphasize
  have hne : Shell.primaryPrompt ≠ Shell.secondaryPrompt := by decide
  refine ⟨replies, sh, (bind_of_ok hstart).trans hrun, hlength, hready.session.queue,
    hready.session.results, hready.session.fatal, hready.session.trail, ?_, ?_, hready.pending, ?_⟩
  · rw [hready.prompt]
    by_cases h : sh.pending = "" <;> simp [h, hne]
  · rw [hready.prompt]
    by_cases h : sh.pending = "" <;> simp [h, hne.symm]
  · rw [hline]
    exact Nat.zero_add _

end ExprLang
