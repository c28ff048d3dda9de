import ExprLang.Proofs.ShellLines
import ExprLang.Proofs.Trimming

/-!
# Line numbers of sources

The shell counts the lines that hold program text, and works out where a source began from that
count and from the line breaks in the source. That is right as long as no line has a line break of
its own: the lines so far are then those that were submitted, in order and each once, followed by
those that are kept (`Shell.Counted`). One line keeps this (`Shell.Counted.feed`), whether it is
kept, completes a source, fails or holds no program text at all, and so any number of lines does
(`Shell.Counted.feeds`).
-/

namespace ExprLang

theorem mem_of_mem_trimChars {c : Char} {cs : List Char} (h : c ∈ Text.trimChars cs) : c ∈ cs := by
  obtain ⟨lead, trail, hcs, -⟩ := exists_trimChars cs
  rw [hcs]
  exact List.mem_append_right _ (List.mem_append_left _ h)

theorem count_unlines {lines : List (List Char)} (h : ∀ line ∈ lines, '\n' ∉ line) :
    (unlines lines).count '\n' = lines.length := by
  induction lines with
  | nil => rfl
  | cons line lines ih =>
    obtain ⟨hline, hlines⟩ := List.forall_mem_cons.1 h
    have hcount := ih hlines
    rw [unlines] at hcount ⊢
    rw [List.flatMap_cons, List.count_append, List.count_append, List.count_eq_zero.2 hline, hcount,
      List.count_singleton_self, List.length_cons]
    omega

namespace Shell

/-- The program text in lines, as it is counted: line by line. -/
def programLines (lines : List String) : List String :=
  lines.filterMap fun line => (Line.ofText line).program?

/-- The shell after lines, however taking each of them ended. -/
def afterLines (sh : Shell) (lines : List String) : Shell :=
  lines.foldl (fun sh line => leaves (Talk.feed line) sh) sh

/-- The sources that are submitted while lines are taken. -/
def submissions (sh : Shell) : List String → List (String × Int)
  | [] => []
  | line :: lines => (sh.submission? line).toList ++ (leaves (Talk.feed line) sh).submissions lines

variable {sh : Shell} {line : String}

/-- However it ends, taking a line leaves the count and the pending text as they were noted. -/
theorem leaves_feed (sh : Shell) (line : String) :
    (sh.noted line).SameText (leaves (Talk.feed line) sh) := by
  have hrest : ∀ sh' : Shell, (sh.noted line).SameText sh' → wp (do
      (sh.submission? line).forM fun s => Talk.submit s.1 s.2
      return (Line.ofText line).reply : Talk Reply) (fun _ => (sh.noted line).SameText)
      (fun _ => (sh.noted line).SameText) sh' := by
    intro sh' hsame
    cases sh.submission? line with
    | none => exact hsame
    | some s =>
      rw [wp_bind]
      refine wp_mono (Talk.wp_submit s.1 s.2 sh') ?_ ?_
      · rintro _ sh'' ⟨session, rfl⟩
        exact ⟨hsame.line, hsame.pending⟩
      · rintro _ sh'' ⟨session, rfl⟩
        exact ⟨hsame.line, hsame.pending⟩
  refine of_wp_leaves ?_
  rw [wp, Talk.feed_eq_add]
  show wp _ _ _ _
  rw [wp_bind]
  cases (Line.ofText line).echo? with
  | none => exact hrest _ ⟨rfl, rfl⟩
  | some shown =>
    have hshown : sh.SameText { sh with session.store := sh.session.store.write .shell shown } :=
      ⟨rfl, rfl⟩
    exact hrest _ (hshown.noted line)

/-- The program text in a line has no line break unless the line has one. -/
theorem not_mem_of_program? {text : String} (h : (Line.ofText line).program? = some text)
    (hline : '\n' ∉ line.toList) : '\n' ∉ text.toList := by
  have hword : ∀ {word argument : String}, '\n' ∉ word.toList → '\n' ∉ argument.toList →
      (if argument.isEmpty then none else some (word ++ argument)) = some text →
      '\n' ∉ text.toList := by
    intro word argument hword hargument htext
    split at htext
    · cases htext
    · cases htext
      rw [String.toList_append, List.mem_append]
      exact fun hmem => hmem.elim hword hargument
  unfold Line.ofText at h
  split at h
  · cases h
  rename_i c r htrim
  have hcs : '\n' ∉ if c = '?' then "help ".toList ++ r else c :: r := by
    have hr : '\n' ∉ c :: r := fun hmem => hline (mem_of_mem_trimChars (htrim ▸ hmem))
    split
    · rw [List.mem_append]
      exact fun hmem => hmem.elim (by decide) fun hmem => hr (List.mem_cons_of_mem c hmem)
    · exact hr
  generalize (if c = '?' then "help ".toList ++ r else c :: r) = cs at h hcs
  have hargument : '\n' ∉ (String.ofList (Text.trimChars (cs.dropWhile isCommandPart))).toList := by
    rw [String.toList_ofList]
    intro hmem
    exact hcs ((List.dropWhile_sublist isCommandPart).mem (mem_of_mem_trimChars hmem))
  simp only at h
  split at h
  · exact hword (by decide) hargument h
  · exact hword (by decide) hargument h
  · exact hword (by decide) hargument h
  · cases h
    rwa [String.toList_ofList]

/-- The characters of lines of program text, each with its line break. -/
def sourceOf (texts : List String) : List Char := unlines (texts.map String.toList)

theorem sourceOf_append (texts texts' : List String) :
    sourceOf (texts ++ texts') = sourceOf texts ++ sourceOf texts' := by
  simp [sourceOf, unlines]

/-- The lines of program text so far: `done` were submitted, and `kept` wait to be continued. -/
structure Counted (done kept : List String) (sh : Shell) : Prop where
  line : sh.line = done.length + kept.length
  pending : sh.pending.toList = sourceOf kept
  unbroken : ∀ text ∈ kept, '\n' ∉ text.toList

namespace Counted
variable {done kept : List String}

theorem ofSession (session : Session) : Counted [] [] (ofSession session) where
  line := rfl
  pending := rfl
  unbroken := by simp

/-- The count depends on nothing else in the shell. -/
theorem congr {sh' : Shell} (h : Counted done kept sh) (hsame : sh.SameText sh') :
    Counted done kept sh' :=
  ⟨hsame.line.trans h.line, (congrArg String.toList hsame.pending).trans h.pending, h.unbroken⟩

/-- A line of program text goes behind those that are kept. Either all of them are kept, or they are
submitted under the number of the first. -/
theorem accept (h : Counted done kept sh) {text : String} (htext : '\n' ∉ text.toList) :
    (sh.accept text).1 = none ∧ Counted done (kept ++ [text]) (sh.accept text).2 ∨
    ∃ source, (sh.accept text).1 = some (source, (done.length : Int) + 1) ∧
      source.toList = sourceOf (kept ++ [text]) ∧
      Counted (done ++ (kept ++ [text])) [] (sh.accept text).2 := by
  have hsource : (sh.pending ++ text ++ "\n").toList = sourceOf (kept ++ [text]) := by
    rw [sourceOf_append, ← h.pending]
    simp [sourceOf, unlines, String.toList_append]
  have hunbroken : ∀ t ∈ kept ++ [text], '\n' ∉ t.toList := by
    simpa [List.forall_mem_append, or_imp, forall_and] using And.intro h.unbroken htext
  have hline : sh.line + 1 = done.length + (kept ++ [text]).length := by
    rw [h.line, List.length_append, List.length_singleton, Nat.add_assoc]
  by_cases hcontinues : continues (sh.pending ++ text ++ "\n")
  · have haccept : sh.accept text = (none, _) := if_pos hcontinues
    rw [haccept]
    exact .inl ⟨rfl, hline, hsource, hunbroken⟩
  · have haccept : sh.accept text = (some (sh.pending ++ text ++ "\n", _), _) := if_neg hcontinues
    have hcount : (sh.pending ++ text ++ "\n").toList.count '\n' = kept.length + 1 := by
      rw [hsource, sourceOf, count_unlines (List.forall_mem_map.2 hunbroken), List.length_map,
        List.length_append, List.length_singleton]
    have hnumber : ((sh.line + 1 : Nat) : Int) -
        ((sh.pending ++ text ++ "\n").toList.count '\n' : Nat) + 1 = (done.length : Int) + 1 := by
      rw [hcount, h.line]
      omega
    rw [haccept]
    refine .inr ⟨_, congrArg (fun n => some (_, n)) hnumber, hsource, ?_, rfl, by simp⟩
    rw [List.length_append, List.length_nil, Nat.add_zero]
    exact hline

/-- What a line does to the count, and which source it completes. -/
theorem feed (h : Counted done kept sh) (hline : '\n' ∉ line.toList) : ∃ done' kept',
    Counted done' kept' (leaves (Talk.feed line) sh) ∧
    done' ++ kept' = done ++ kept ++ programLines [line] ∧
    sourceOf done' = sourceOf done ++ (sh.submission? line).toList.flatMap (·.1.toList) := by
  have hsame := leaves_feed sh line
  cases hp : (Line.ofText line).program? with
  | none =>
    rw [noted, hp] at hsame
    have hnone : sh.submission? line = none := by rw [submission?, hp]; rfl
    refine ⟨done, kept, h.congr hsame, by simp [programLines, hp], ?_⟩
    rw [hnone]
    exact (List.append_nil _).symm
  | some text =>
    rw [noted, hp] at hsame
    have hsubmission : sh.submission? line = (sh.accept text).1 := by rw [submission?, hp]; rfl
    rw [hsubmission]
    rcases h.accept (not_mem_of_program? hp hline) with ⟨hnone, hkept⟩ | ⟨source, hsome, hs, hdone⟩
    · refine ⟨done, kept ++ [text], hkept.congr hsame, by simp [programLines, hp], ?_⟩
      rw [hnone]
      exact (List.append_nil _).symm
    · refine ⟨done ++ (kept ++ [text]), [], hdone.congr hsame, by simp [programLines, hp],
        ?_⟩
      rw [hsome, sourceOf_append, ← hs]
      simp

theorem feeds (h : Counted done kept sh) {lines : List String}
    (hlines : ∀ line ∈ lines, '\n' ∉ line.toList) : ∃ done' kept',
    Counted done' kept' (sh.afterLines lines) ∧
    done' ++ kept' = done ++ kept ++ programLines lines ∧
    sourceOf done' = sourceOf done ++ (sh.submissions lines).flatMap (·.1.toList) := by
  induction lines generalizing sh done kept with
  | nil => exact ⟨done, kept, h, by simp [programLines], by simp [submissions]⟩
  | cons line lines ih =>
    obtain ⟨hline, hlines⟩ := List.forall_mem_cons.1 hlines
    obtain ⟨done₁, kept₁, h₁, hall₁, hsource₁⟩ := h.feed hline
    obtain ⟨done₂, kept₂, h₂, hall₂, hsource₂⟩ := ih h₁ hlines
    refine ⟨done₂, kept₂, h₂, ?_, ?_⟩
    · rw [hall₂, hall₁, List.append_assoc]
      exact congrArg _ (List.filterMap_append (l := [line])).symm
    · rw [hsource₂, hsource₁, submissions, List.flatMap_append, List.append_assoc]

end Counted

end Shell

open Shell

/-- Lines without line breaks are typed into a new shell, and then one more. Taking that one adds a
source to the session just if `submission?` says so. The source is then the lines of program text
from some line to this one, and its number is the ordinal of the first of them; the lines before
that are those that were submitted already. Under that number it comes last in the queue, or, if it
is refused, is known to the reporter as the program at work. -/
theorem source_numbered_by_first_line (session : Session) (lines : List String) (line : String)
    (hlines : ∀ l ∈ lines ++ [line], '\n' ∉ l.toList) :
    let sh := (ofSession session).afterLines lines
    Talk.feed line sh = (do
      (Line.ofText line).echo?.forM Talk.write
      modify (·.noted line)
      (sh.submission? line).forM fun s => discard <| Talk.inSession <| Run.guarded do
        Run.add s.1 s.2
        Run.runQueue
        Talk.showResult
      return (Line.ofText line).reply : Talk Reply) sh ∧
    ∀ source n, sh.submission? line = some (source, n) →
      (∃ before kept text, (Line.ofText line).program? = some text ∧
        programLines (lines ++ [line]) = before ++ (kept ++ [text]) ∧
        source.toList = sourceOf (kept ++ [text]) ∧ n = before.length + 1 ∧
        ((ofSession session).submissions lines).flatMap (·.1.toList) = sourceOf before) ∧
      ∀ s : Session,
        (∀ p, parse s.limit source = .ok p → ∃ s', Run.add source n s = .ok () s' ∧
          s'.queue = s.queue ++ [⟨source, n, p⟩]) ∧
        (∀ e, parse s.limit source = .error e → ∃ s', Run.add source n s = .error (.ofParse e) s' ∧
          s'.queue = s.queue ∧ s'.reporter.trail.lookup s.path = some (some ⟨source, n⟩)) := by
  intro sh
  refine ⟨Talk.feed_eq_add line sh, fun source n hsubmission => ⟨?_, fun s => ⟨?_, ?_⟩⟩⟩
  · have hbefore : ∀ l ∈ lines, '\n' ∉ l.toList := fun l hl => hlines l (List.mem_append_left _ hl)
    have hline : '\n' ∉ line.toList := hlines line (by simp)
    obtain ⟨before, kept, hcounted, hall, hsubmitted⟩ :=
      (Counted.ofSession session).feeds hbefore
    obtain ⟨text, htext, haccept⟩ := Option.bind_eq_some_iff.1 hsubmission
    refine ⟨before, kept, text, htext, ?_⟩
    have hprogram : programLines (lines ++ [line]) = before ++ (kept ++ [text]) := by
      rw [← List.append_assoc, hall]
      simp [programLines, htext]
    rcases hcounted.accept (not_mem_of_program? htext hline) with ⟨hnone, -⟩ | ⟨s, hsome, hs, -⟩
    · rw [haccept] at hnone
      cases hnone
    · rw [haccept] at hsome
      cases hsome
      exact ⟨hprogram, hs, rfl, hsubmitted.symm⟩
  · intro p hp
    exact ⟨_, Run.add_of_ok hp, rfl⟩
  · intro e he
    exact ⟨_, Run.add_of_error he, rfl, Reporter.lookup_place ..⟩

/-- A program that fails, a command, a blank line and a command name that is code: the last line
completes a source that began with the third line of program text, and is added as such. -/
theorem source_numbered_by_first_line_block :
    let session := Session.blank 60 Session.shellPath ⟨false, id, []⟩
    let lines := ["f(", "(a) b)", "?", "  help = \x7b  ", "", "\"x\","]
    let source := "help = \x7b\n\"x\",\n\x7d\n"
    (∀ l ∈ lines ++ ["\x7d"], '\n' ∉ l.toList) ∧
    ((ofSession session).afterLines lines).submission? "\x7d" = some (source, 3) ∧
    (∃ before kept text, (Line.ofText "\x7d").program? = some text ∧
      programLines (lines ++ ["\x7d"]) = before ++ (kept ++ [text]) ∧
      source.toList = sourceOf (kept ++ [text]) ∧ (3 : Int) = before.length + 1 ∧
      ((ofSession session).submissions lines).flatMap (·.1.toList) = sourceOf before) ∧
    ∃ s' p, Run.add source 3 session = .ok () s' ∧ s'.queue = [⟨source, 3, p⟩] := by
  intro session lines source
  have hlines : ∀ l ∈ lines ++ ["\x7d"], '\n' ∉ l.toList := by
    simp [lines]
  have hsubmission : ((ofSession session).afterLines lines).submission? "\x7d" =
      some (source, 3) := by decide +kernel
  have hparse : (parse 60 source).isOk := by decide +kernel
  obtain ⟨p, hp⟩ := exists_of_isOk hparse
  obtain ⟨hnumber, hadd⟩ :=
    (source_numbered_by_first_line session lines "\x7d" hlines).2 _ _ hsubmission
  obtain ⟨s', hs', hqueue⟩ := (hadd session).1 p hp
  exact ⟨hlines, hsubmission, hnumber, s', p, hs', hqueue⟩

end ExprLang
