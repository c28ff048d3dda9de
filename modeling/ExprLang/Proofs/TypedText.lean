import ExprLang.Proofs.Layout
import ExprLang.Proofs.ShellLines
import ExprLang.Proofs.Trimming

/-!
# What is typed and what is run

The shell does not run the characters that were typed: lines are trimmed, blank lines are dropped,
and a line that begins with the name of a command is put together again from the name and the
argument. Most of this cannot be seen in the lexemes. A line on its own keeps them unless it begins
with `EOF`, or with another command and, glued to it, a character that a name may go on with
(`Shell.lexed_typedText_iff`). Continued lines keep them unless a blank at the end of one of them is
inside of a string (`Tidied.lines`).
-/

namespace ExprLang
open Lexeme

theorem lexemes?_eq_some_iff {text : String} {ls : List Lexeme} :
    lexemes? text = some ls ↔ Lexed text.toList ls := by
  constructor
  · intro h
    obtain ⟨ts, hts, rfl⟩ := exists_of_lexemes? h
    obtain ⟨e, hs, he⟩ := Holds.of_tokenize hts
    exact hs.lexed rfl he
  · intro h
    obtain ⟨ts, e, hs, rfl, he⟩ := Lexed.holds (c := .ofText text) h
    rw [lexemes?, Holds.tokenize_eq hs, he]
    rfl

/-- A line on its own can be trimmed, unless it ends in blanks that are in a string. -/
theorem Lexed.trimmed {line : List Char} {ls : List Lexeme} (h : Lexed (line ++ ['\n']) ls)
    (hlast : insideString line → ∃ c, line.getLast? = some c ∧ Text.isBlank c = false)
    (hne : Text.trimChars line ≠ []) : Lexed (Text.trimChars line ++ ['\n']) ls := by
  obtain ⟨n, htidied, hn⟩ := Tidied.line (P := []) (.inl rfl) line []
  have hkeeps : KeepsStrings [] line := ⟨fun hin => absurd hin Bool.false_ne_true, hlast⟩
  have htidy := (htidied.lexed_iff h).2 (hn.2 hkeeps)
  rwa [tidy, if_neg hne, List.append_nil] at htidy

theorem skipLayout_word {word : String} (h : IsWord word) (r : List Char) :
    skipLayout (word.toList ++ r) = word.toList ++ r := by
  obtain ⟨c, cs, hcs, hc, -⟩ := h
  have hspace : c ≠ ' ' := ne_of_class hc rfl
  have htab : c ≠ '\t' := ne_of_class hc rfl
  have hbreak : c ≠ '\n' := ne_of_class hc rfl
  have hhash : c ≠ '#' := ne_of_class hc rfl
  simp [skipLayout, hcs, layoutLength, isSpace, hspace, htab, hbreak, hhash]

/-- A name is the first lexeme just where its characters stand and no name goes on behind them. -/
theorem Lexed.of_name {cs : List Char} {word : String} {ls : List Lexeme}
    (h : Lexed cs (.name word :: ls)) :
    ∃ r, skipLayout cs = word.toList ++ r ∧ Stops isNamePart r := by
  cases h with
  | lexeme hs h =>
    obtain ⟨w, r, hwr, rfl, hmax⟩ := maximal_of_scan hs
    cases hmax with
    | name hn hr => exact ⟨r, hwr, hr⟩

theorem lexed_word_iff {word : String} {r : List Char} {ls : List Lexeme}
    (hword : IsIdentifier word) (hr : Stops isNamePart r) :
    Lexed (word.toList ++ r) ls ↔ ∃ ls', ls = .name word :: ls' ∧ Lexed r ls' := by
  have hskip := skipLayout_word hword.1 r
  have hmax : Maximal (.name word) word.toList r := .name hword hr
  constructor
  · intro h
    have hscan : Lexeme.scan (skipLayout (word.toList ++ r)) =
        .lexeme (.name word) word.toList.length := by
      rw [hskip]
      exact hmax.scan
    cases h with
    | done hs => cases hs.symm.trans hscan
    | @lexeme _ l n ls hs h =>
      cases hs.symm.trans hscan
      rw [hskip, List.drop_left] at h
      exact ⟨ls, rfl, h⟩
  · rintro ⟨ls', rfl, h⟩
    exact .of_maximal hskip hmax h

theorem stops_space (r : List Char) : Stops isNamePart (' ' :: r) := by
  intro c hc
  cases hc
  rfl

theorem trimChars_ne_nil {cs : List Char}
    (h : ∃ c, cs.getLast? = some c ∧ Text.isBlank c = false) : Text.trimChars cs ≠ [] := by
  intro hnil
  obtain ⟨c, hc, hblank⟩ := h
  rw [isBlank_of_trimChars_eq_nil hnil c (List.mem_of_getLast? hc)] at hblank
  cases hblank

/-- Between a name and what follows it blanks may go and a blank may come, but only where no name
goes on. -/
theorem lexed_command_iff {word : String} {rest : List Char} {ls : List Lexeme}
    (hword : IsIdentifier word) (hlast : ∃ c, rest.getLast? = some c ∧ Text.isBlank c = false)
    (h : Lexed (word.toList ++ (rest ++ ['\n'])) ls) :
    Lexed (word.toList ++ ' ' :: (Text.trimChars rest ++ ['\n'])) ls ↔ Stops isNamePart rest := by
  have hblank := stops_space (Text.trimChars rest ++ ['\n'])
  constructor
  · intro h'
    obtain ⟨ls', rfl, -⟩ := (lexed_word_iff hword hblank).1 h'
    obtain ⟨r, hskip, hr⟩ := h.of_name
    rw [skipLayout_word hword.1, List.append_cancel_left_eq] at hskip
    subst hskip
    intro c hc
    exact hr c (by rw [List.head?_append, hc, Option.some_or])
  · intro hstops
    obtain ⟨ls', rfl, hrest⟩ := (lexed_word_iff hword (hstops.append_newline rfl [])).1 h
    refine (lexed_word_iff hword hblank).2 ⟨ls', rfl, ?_⟩
    have htrimmed := hrest.trimmed (fun _ => hlast) (trimChars_ne_nil hlast)
    exact htrimmed.of_skipLayout (skipLayout_cons rfl rfl _)

/-- The first lexemes differ already in their first letters. -/
theorem not_lexed_exit {r : List Char} {ls : List Lexeme} (h : Lexed ("EOF".toList ++ r) ls)
    (r' : List Char) : ¬ Lexed ("exit".toList ++ ' ' :: r') ls := by
  intro h'
  have hexit : IsIdentifier "exit" :=
    ⟨⟨'e', ['x', 'i', 't'], rfl, rfl, List.all_eq_true.1 rfl⟩, by decide⟩
  obtain ⟨ls', rfl, -⟩ := (lexed_word_iff hexit (stops_space r')).1 h'
  obtain ⟨s, hskip, -⟩ := h.of_name
  cases hskip

namespace Shell
variable {line : String}

/-- The letters, digits and underscores that a line begins with, once trimmed. -/
def commandWord (line : String) : String :=
  String.ofList ((Text.trimChars line.toList).takeWhile isCommandPart)

/-- What stands behind them. -/
def behindCommand (line : String) : List Char :=
  (Text.trimChars line.toList).dropWhile isCommandPart

theorem toList_commandWord (line : String) :
    (commandWord line).toList ++ behindCommand line = Text.trimChars line.toList := by
  rw [commandWord, behindCommand, String.toList_ofList, List.takeWhile_append_dropWhile]

/-- What the word is compared with decides what the line says. -/
theorem Line.ofText_eq (hne : Text.trimChars line.toList ≠ [])
    (hask : (Text.trimChars line.toList).head? ≠ some '?') : ofText line =
      let argument := String.ofList (Text.trimChars (behindCommand line))
      if commandWord line = "help" then help argument
      else if commandWord line = "exit" then exit argument
      else if commandWord line = "EOF" then eof argument
      else code (Text.trim line) := by
  unfold ofText commandWord behindCommand Text.trim
  cases hline : Text.trimChars line.toList with
  | nil => exact absurd hline hne
  | cons c r =>
    have hc : c ≠ '?' := by
      rintro rfl
      exact hask (by rw [hline]; rfl)
    simp only [if_neg hc]
    split
    · rename_i hword
      simp [hword]
    · rename_i hword
      simp [hword]
    · rename_i hword
      simp [hword]
    · rename_i h₁ h₂ h₃
      rw [if_neg h₁, if_neg h₂, if_neg h₃]

/-- The commands whose names are kept when a line is put together again. -/
def keptCommands : List String := ["help", "exit"]

/-- The program text in a line that is more than a command. -/
def typedText (line : String) : String :=
  let argument := String.ofList (Text.trimChars (behindCommand line))
  if commandWord line ∈ keptCommands then commandWord line ++ " " ++ argument
  else if commandWord line = "EOF" then "exit " ++ argument
  else Text.trim line

/-- The last character of a trimmed line is not blank. -/
theorem exists_getLast_behindCommand (h : behindCommand line ≠ []) :
    ∃ c, (behindCommand line).getLast? = some c ∧ Text.isBlank c = false := by
  obtain ⟨-, -, -, -, -, -, hlast⟩ := exists_trimChars line.toList
  rcases List.eq_nil_or_concat (behindCommand line) with hnil | ⟨r, c, hr⟩
  · exact absurd hnil h
  · rw [List.concat_eq_append] at hr
    refine ⟨c, by rw [hr, List.getLast?_concat], hlast c ?_⟩
    rw [← toList_commandWord, hr, ← List.append_assoc, List.head?_reverse, List.getLast?_concat]

theorem program?_of_line (hne : Text.trimChars line.toList ≠ [])
    (hask : (Text.trimChars line.toList).head? ≠ some '?')
    (hcommand : commandWord line ∈ ["help", "exit", "EOF"] → behindCommand line ≠ []) :
    (Line.ofText line).program? = some (typedText line) ∧
      (Line.ofText line).echo? = if commandWord line = "EOF" then some "\n" else none := by
  have hargument : commandWord line ∈ ["help", "exit", "EOF"] →
      (String.ofList (Text.trimChars (behindCommand line))).isEmpty = false := by
    intro hmem
    rw [String.isEmpty_eq_false_iff, ne_eq, String.ofList_eq_empty_iff]
    exact trimChars_ne_nil (exists_getLast_behindCommand (hcommand hmem))
  rw [Line.ofText_eq hne hask, typedText, keptCommands]
  by_cases h₁ : commandWord line = "help"
  · simp [h₁, Line.program?, Line.echo?, hargument]
  by_cases h₂ : commandWord line = "exit"
  · simp [h₂, Line.program?, Line.echo?, hargument]
  by_cases h₃ : commandWord line = "EOF"
  · simp [h₃, Line.program?, Line.echo?, hargument]
  · simp [h₁, h₂, h₃, Line.program?, Line.echo?]

theorem isIdentifier_of_mem {word : String} (h : word ∈ keptCommands) : IsIdentifier word := by
  simp only [keptCommands, List.mem_cons, List.not_mem_nil, or_false] at h
  rcases h with rfl | rfl
  · exact ⟨⟨'h', ['e', 'l', 'p'], rfl, rfl, List.all_eq_true.1 rfl⟩, by decide⟩
  · exact ⟨⟨'e', ['x', 'i', 't'], rfl, rfl, List.all_eq_true.1 rfl⟩, by decide⟩

theorem lexed_typedText_iff {ls : List Lexeme}
    (h : Lexed (Text.trimChars line.toList ++ ['\n']) ls)
    (hcommand : commandWord line ∈ ["help", "exit", "EOF"] → behindCommand line ≠ []) :
    Lexed (typedText line ++ "\n").toList ls ↔ commandWord line ≠ "EOF" ∧
      (commandWord line ∈ keptCommands → Stops isNamePart (behindCommand line)) := by
  rw [typedText]
  by_cases hkept : commandWord line ∈ keptCommands
  · have hmem : commandWord line ∈ ["help", "exit", "EOF"] := List.mem_append_left ["EOF"] hkept
    have hlast := exists_getLast_behindCommand (hcommand hmem)
    have heof : commandWord line ≠ "EOF" := by
      intro heof
      rw [heof] at hkept
      exact absurd hkept (by decide)
    rw [← toList_commandWord, List.append_assoc] at h
    have hiff := lexed_command_iff (isIdentifier_of_mem hkept) hlast h
    simp only [hkept, heof, if_true, ne_eq, not_false_eq_true, true_and, forall_const]
    rw [← hiff]
    simp [String.toList_append]
  rw [if_neg hkept]
  by_cases heof : commandWord line = "EOF"
  · rw [if_pos heof]
    rw [← toList_commandWord, heof, List.append_assoc] at h
    have hexit := not_lexed_exit h (Text.trimChars (behindCommand line) ++ ['\n'])
    refine iff_of_false (fun h' => hexit ?_) fun hkeeps => hkeeps.1 heof
    simpa [String.toList_append] using h'
  · rw [if_neg heof, Text.trim, String.toList_append, String.toList_ofList]
    exact iff_of_true h ⟨heof, fun hmem => absurd hmem hkept⟩

/-- No text with lexemes begins with a question mark. -/
theorem head_ne_question {cs : List Char} {ls : List Lexeme} (h : Lexed cs ls) :
    cs.head? ≠ some '?' := by
  intro hhead
  obtain ⟨r, rfl⟩ := List.head?_eq_some_iff.1 hhead
  exact h.scan_ne_stray '?' rfl

/-- With nothing pending, a line that is more than a command, has lexemes and leaves no string open
is program text: a source is made of it, and that is kept, or added to the session and run. The
source has the lexemes of the line, unless the line begins with `EOF`, in which case a line break is
shown too, or with another command that a name begins with, one that goes on with no letter, digit
or underscore. -/
theorem typed_line_submitted (sh : Shell) (line : String) (ls : List Lexeme)
    (hpending : sh.pending = "") (hls : lexemes? line = some ls)
    (hopen : insideString line.toList = false)
    (hline : Text.trim line ∉ ["", "help", "exit", "EOF"]) :
    ∃ source, sh.source? line = some source ∧
      Talk.feed line sh = (do
        if commandWord line = "EOF" then Talk.write "\n"
        modify (·.noted line)
        (sh.submission? line).forM fun s => discard <| Talk.inSession <| Run.guarded do
          Run.add s.1 s.2
          Run.runQueue
          Talk.showResult
        return .done : Talk Reply) sh ∧
      (continues source → sh.submission? line = none ∧ (sh.noted line).pending = source) ∧
      (continues source = false → ∃ n, sh.submission? line = some (source, n)) ∧
      (lexemes? source = some ls ↔ commandWord line ≠ "EOF" ∧
        (commandWord line ∈ ["help", "exit"] →
          ∀ c, (behindCommand line).head? = some c → isNamePart c = false)) := by
  have hne : Text.trimChars line.toList ≠ [] := by
    intro hnil
    exact hline (by simp [Text.trim, hnil])
  have hcommand : commandWord line ∈ ["help", "exit", "EOF"] → behindCommand line ≠ [] := by
    intro hmem hnil
    have hword : Text.trim line = commandWord line := by
      rw [Text.trim, ← toList_commandWord, hnil, List.append_nil, String.ofList_toList]
    exact hline (List.mem_cons_of_mem "" (hword ▸ hmem))
  have hbreak : Lexed (line.toList ++ ['\n']) ls := by
    have happend := (lexemes?_eq_some_iff.1 hls).append (.done rfl : Lexed [] []) hopen
    rwa [List.append_nil] at happend
  have htrimmed := hbreak.trimmed (fun hin => absurd hin (by simp [hopen])) hne
  have hask : (Text.trimChars line.toList).head? ≠ some '?' := by
    intro hhead
    exact head_ne_question htrimmed (by rw [List.head?_append, hhead, Option.some_or])
  obtain ⟨hprogram, hecho⟩ := program?_of_line hne hask hcommand
  have hsource : sh.source? line = some (typedText line ++ "\n") := by
    simp [source?, hprogram, hpending]
  obtain ⟨hkept, hsubmitted⟩ := kept_or_submitted hsource
  refine ⟨_, hsource, ?_, hkept, hsubmitted, ?_⟩
  · rw [Talk.feed_eq_add, hecho, reply_of_source hsource]
    split <;> simp only [Option.forM, pure_bind]
  · rw [lexemes?_eq_some_iff]
    exact lexed_typedText_iff htrimmed hcommand

/-- The name of a command as a variable, with a blank behind it. -/
theorem typed_line_submitted_exit :
    let sh := Shell.ofSession (.blank 60 Session.shellPath ⟨false, id, []⟩)
    let line := " exit = help # bye "
    let ls := [.name "exit", .operator "=", .name "help"]
    (sh.pending = "" ∧ lexemes? line = some ls ∧ insideString line.toList = false ∧
      Text.trim line ∉ ["", "help", "exit", "EOF"]) ∧
    ∃ source n, sh.source? line = some source ∧ sh.submission? line = some (source, n) ∧
      Talk.feed line sh = (do
        modify (·.noted line)
        discard <| Talk.inSession <| Run.guarded do
          Run.add source n
          Run.runQueue
          Talk.showResult
        return .done : Talk Reply) sh ∧
      lexemes? source = some ls := by
  intro sh line ls
  have hls : lexemes? line = some ls := by decide +kernel
  have hopen : insideString line.toList = false := by decide +kernel
  have hline : Text.trim line ∉ ["", "help", "exit", "EOF"] := by decide +kernel
  have hword : commandWord line ≠ "EOF" := by decide +kernel
  have hbehind : (behindCommand line).head? = some ' ' := by decide +kernel
  refine ⟨⟨rfl, hls, hopen, hline⟩, ?_⟩
  obtain ⟨source, hsource, hfeed, -, hsubmitted, hiff⟩ :=
    typed_line_submitted sh line ls rfl hls hopen hline
  have htext : sh.source? line = some "exit = help # bye\n" := by decide +kernel
  obtain rfl : source = "exit = help # bye\n" := Option.some.inj (hsource.symm.trans htext)
  obtain ⟨n, hn⟩ := hsubmitted (by decide +kernel)
  simp only [if_neg hword, hn] at hfeed
  refine ⟨_, n, hsource, hn, hfeed, hiff.2 ⟨hword, fun _ c hc => ?_⟩⟩
  rw [hbehind] at hc
  cases hc
  rfl

/-- A name that a command is the beginning of is taken apart. -/
theorem typed_name_taken_apart :
    let sh := Shell.ofSession (.blank 60 Session.shellPath ⟨false, id, []⟩)
    let line := "help-me = x"
    (sh.pending = "" ∧ lexemes? line = some [.name "help-me", .operator "=", .name "x"] ∧
      insideString line.toList = false ∧ Text.trim line ∉ ["", "help", "exit", "EOF"]) ∧
    sh.source? line = some "help -me = x\n" ∧
    lexemes? "help -me = x\n" =
      some [.name "help", .operator "-", .name "me", .operator "=", .name "x"] := by
  decide +kernel

/-! ### Lines that are continued -/

/-- A line that does not begin like a command. -/
def Plain (line : String) : Prop :=
  ∀ word ∈ ["help", "exit", "EOF", "?"], ¬ word.toList <+: (Text.trim line).toList

namespace Plain
variable {sh sh' : Shell} {source : String}

theorem ofText (h : Plain line) : Line.ofText line =
    if Text.trimChars line.toList = [] then .blank else .code (Text.trim line) := by
  simp only [Plain, Text.trim, String.toList_ofList] at h
  split
  · rename_i hnil
    rw [Line.ofText, hnil]
  · rename_i hne
    have hask : (Text.trimChars line.toList).head? ≠ some '?' := by
      intro hhead
      obtain ⟨r, hr⟩ := List.head?_eq_some_iff.1 hhead
      exact h "?" (by decide) ⟨r, hr.symm⟩
    have hword : ∀ word ∈ ["help", "exit", "EOF"], commandWord line ≠ word := by
      rintro word hmem rfl
      exact h _ (List.mem_append_left ["?"] hmem) ⟨_, toList_commandWord line⟩
    rw [Line.ofText_eq hne hask]
    rw [if_neg (hword "help" (by decide)), if_neg (hword "exit" (by decide)),
      if_neg (hword "EOF" (by decide))]

/-- The line goes behind what is pending as it is kept. -/
theorem toList_source (h : Plain line) (hs : sh.source? line = some source) :
    source.toList = sh.pending.toList ++ tidy line.toList := by
  rw [Shell.source?, h.ofText] at hs
  by_cases hnil : Text.trimChars line.toList = []
  · rw [if_pos hnil] at hs
    cases hs
  · rw [if_neg hnil] at hs
    cases hs
    rw [tidy, if_neg hnil, Text.trim]
    simp [String.toList_append]

theorem feed (h : Plain line) (hs : sh.source? line = some source) :
    Talk.feed line sh = (do
      modify (·.noted line)
      (sh.submission? line).forM fun s => discard <| Talk.inSession <| Run.guarded do
        Run.add s.1 s.2
        Run.runQueue
        Talk.showResult
      return .done : Talk Reply) sh := by
  have hecho : (Line.ofText line).echo? = none := by
    rw [h.ofText]
    split <;> rfl
  rw [Talk.feed_eq_add, hecho, reply_of_source hs]
  simp only [Option.forM, pure_bind]

/-- A line that leaves something open is kept, and nothing else is done. -/
theorem feed_of_continues (h : Plain line) (hs : sh.source? line = some source)
    (hsource : continues source) : Talk.feed line sh = .ok .done { sh with
      line := sh.line + 1, pending := source, prompt := secondaryPrompt } := by
  obtain ⟨hnone, hnoted⟩ := kept_of_continues hs hsource
  rw [h.feed hs, hnone, ← hnoted]
  rfl

/-- After a line that leaves nothing open the shell is back at the primary prompt. -/
theorem prompt_of_complete {reply : Reply} (h : Plain line) (hs : sh.source? line = some source)
    (hsource : continues source = false) (hf : Talk.feed line sh = .ok reply sh') :
    sh'.prompt = primaryPrompt := by
  obtain ⟨⟨n, hn⟩, -, hprompt⟩ := submitted_of_complete hs hsource
  rw [h.feed hs, hn] at hf
  obtain ⟨_, sh₁, hnoted, hf⟩ := ok_of_bind hf
  cases hnoted
  obtain ⟨_, sh₂, hsubmit, hpure⟩ := ok_of_bind hf
  cases hpure
  obtain ⟨session, rfl⟩ := (wp_iff_of_ok hsubmit).1 (Talk.wp_submit source n (sh.noted line))
  exact hprompt

theorem feed_blank (h : Plain line) (hnil : Text.trimChars line.toList = []) :
    Talk.feed line sh = .ok .blank sh := by
  rw [Talk.feed, h.ofText, if_pos hnil]
  rfl

/-- A line that the shell wants to be continued is kept. -/
theorem toList_pending {reply : Reply} (h : Plain line) (hf : Talk.feed line sh = .ok reply sh')
    (hp : sh'.prompt = secondaryPrompt) :
    sh'.pending.toList = sh.pending.toList ++ tidy line.toList := by
  by_cases hnil : Text.trimChars line.toList = []
  · rw [h.feed_blank hnil] at hf
    cases hf
    rw [tidy, if_pos hnil, List.append_nil]
  · have hs : sh.source? line = some (sh.pending ++ Text.trim line ++ "\n") := by
      rw [Shell.source?, h.ofText, if_neg hnil]
      rfl
    rw [← h.toList_source hs]
    by_cases hcontinues : continues (sh.pending ++ Text.trim line ++ "\n")
    · rw [h.feed_of_continues hs hcontinues] at hf
      cases hf
      rfl
    · rw [h.prompt_of_complete hs (by simpa using hcontinues) hf] at hp
      exact absurd hp (by decide)

end Plain

/-- Taking the lines one after another, the shell wants each to be continued. -/
inductive Awaits : Shell → List String → Shell → Prop
  | nil (sh : Shell) : Awaits sh [] sh
  | cons {sh sh₁ sh' : Shell} {line : String} {lines : List String} {reply : Reply}
      (hf : Talk.feed line sh = .ok reply sh₁) (hp : sh₁.prompt = secondaryPrompt)
      (h : Awaits sh₁ lines sh') : Awaits sh (line :: lines) sh'

theorem Awaits.toList_pending {sh sh' : Shell} {lines : List String} (h : Awaits sh lines sh')
    (hplain : ∀ line ∈ lines, Plain line) :
    sh'.pending.toList = sh.pending.toList ++ tidied (lines.map String.toList) := by
  induction h with
  | nil => exact (List.append_nil _).symm
  | cons hf hp h ih =>
    obtain ⟨hline, hlines⟩ := List.forall_mem_cons.1 hplain
    rw [ih hlines, hline.toList_pending hf hp, List.append_assoc]
    rfl

/-- A line that leaves something open is one that the shell wants to be continued. -/
theorem Awaits.kept {sh sh' : Shell} {lines : List String} {source : String} (h : Plain line)
    (hs : sh.source? line = some source) (hcontinues : continues source)
    (hlines : Awaits { sh with
      line := sh.line + 1, pending := source, prompt := secondaryPrompt } lines sh') :
    Awaits sh (line :: lines) sh' :=
  .cons (h.feed_of_continues hs hcontinues) rfl hlines

theorem Awaits.skipped {sh sh' : Shell} {lines : List String} (h : Plain line)
    (hnil : Text.trimChars line.toList = []) (hp : sh.prompt = secondaryPrompt)
    (hlines : Awaits sh lines sh') : Awaits sh (line :: lines) sh' :=
  .cons (h.feed_blank hnil) hp hlines

/-- With nothing pending, lines are typed that do not begin like commands, and the shell wants all
but the last to be continued. Then the last one is program text, and the source it makes, which is
added to the session and run if nothing is open, has the lexemes that the lines have behind one
another, unless some line begins or ends inside of a string with a blank at that end, or with
nothing there at all. -/
theorem continued_lines_submitted (sh sh' : Shell) (lines : List String) (last source : String)
    (ls : List Lexeme) (hpending : sh.pending = "")
    (hplain : ∀ line ∈ lines ++ [last], ∀ word ∈ ["help", "exit", "EOF", "?"],
      ¬ word.toList <+: (Text.trim line).toList)
    (hawaits : Awaits sh lines sh') (hsource : sh'.source? last = some source)
    (hls : lexemes? ("\n".intercalate (lines ++ [last]) ++ "\n") = some ls) :
    Talk.feed last sh' = (do
      modify (·.noted last)
      (sh'.submission? last).forM fun s => discard <| Talk.inSession <| Run.guarded do
        Run.add s.1 s.2
        Run.runQueue
        Talk.showResult
      return .done : Talk Reply) sh' ∧
    (continues source → sh'.submission? last = none ∧ (sh'.noted last).pending = source) ∧
    (continues source = false → ∃ n, sh'.submission? last = some (source, n)) ∧
    (lexemes? source = some ls ↔ AllKeepStrings [] ((lines ++ [last]).map String.toList)) := by
  have hlast : Plain last := hplain last (by simp)
  obtain ⟨hkept, hsubmitted⟩ := kept_or_submitted hsource
  refine ⟨hlast.feed hsource, hkept, hsubmitted, ?_⟩
  have htext : source.toList = tidied ((lines ++ [last]).map String.toList) := by
    have hlines : ∀ line ∈ lines, Plain line := fun line hline => hplain line (by simp [hline])
    rw [hlast.toList_source hsource, hawaits.toList_pending hlines, hpending, List.map_append]
    simp [tidied]
  rw [lexemes?_eq_some_iff, String.toList_append, String.toList_intercalate] at hls
  rw [show "\n".toList = ['\n'] from rfl, intercalate_newline (by simp)] at hls
  rw [lexemes?_eq_some_iff, htext]
  obtain ⟨n, htidied, hn⟩ := Tidied.lines (P := []) (.inl rfl) ((lines ++ [last]).map String.toList)
  exact (htidied.lexed_iff hls).trans hn

/-- A call is broken up by a blank line and goes on with a string over two lines. Blanks around the
lines are dropped, but none of them is in the string. -/
theorem continued_lines_submitted_call :
    let sh := Shell.ofSession (.blank 60 Session.shellPath ⟨false, id, []⟩)
    let lines := ["  f(a,  ", "   ", " \"x"]
    let last := "y\" ) # done "
    let ls := [.name "f", .mark "(", .name "a", .mark ",", .text "x\ny", .mark ")"]
    (∀ line ∈ lines ++ [last], ∀ word ∈ ["help", "exit", "EOF", "?"],
      ¬ word.toList <+: (Text.trim line).toList) ∧
    lexemes? ("\n".intercalate (lines ++ [last]) ++ "\n") = some ls ∧
    ∃ sh' source n, Awaits sh lines sh' ∧ sh'.source? last = some source ∧
      sh'.submission? last = some (source, n) ∧
      Talk.feed last sh' = (do
        modify (·.noted last)
        discard <| Talk.inSession <| Run.guarded do
          Run.add source n
          Run.runQueue
          Talk.showResult
        return .done : Talk Reply) sh' ∧
      lexemes? source = some ls ∧ AllKeepStrings [] ((lines ++ [last]).map String.toList) := by
  intro sh lines last ls
  have hplain : ∀ line ∈ lines ++ [last], Plain line := by
    unfold Plain
    decide +kernel
  have hls : lexemes? ("\n".intercalate (lines ++ [last]) ++ "\n") = some ls := by decide +kernel
  let sh₁ : Shell := { sh with line := 1, pending := "f(a,\n", prompt := secondaryPrompt }
  let sh₂ : Shell := { sh with line := 2, pending := "f(a,\n\"x\n", prompt := secondaryPrompt }
  have hawaits : Awaits sh lines sh₂ := by
    have hfirst : sh.source? "  f(a,  " = some sh₁.pending := by decide +kernel
    have hthird : sh₁.source? " \"x" = some sh₂.pending := by decide +kernel
    refine .kept (hplain _ (by simp [lines])) hfirst (by decide +kernel) ?_
    refine .skipped (hplain _ (by simp [lines])) (by decide +kernel) rfl ?_
    exact .kept (hplain _ (by simp [lines])) hthird (by decide +kernel) (.nil sh₂)
  have hsource : sh₂.source? last = some "f(a,\n\"x\ny\" ) # done\n" := by decide +kernel
  have hlexemes : lexemes? "f(a,\n\"x\ny\" ) # done\n" = some ls := by decide +kernel
  obtain ⟨hfeed, -, hsubmitted, hiff⟩ :=
    continued_lines_submitted sh sh₂ lines last _ ls rfl hplain hawaits hsource hls
  obtain ⟨n, hn⟩ := hsubmitted (by decide +kernel)
  rw [hn] at hfeed
  exact ⟨hplain, hls, sh₂, _, n, hawaits, hsource, hn, hfeed, hlexemes, hiff.1 hlexemes⟩

/-- A blank is lost in the string that the second line closes. -/
theorem continued_string_shortened :
    let sh := Shell.ofSession (.blank 60 Session.shellPath ⟨false, id, []⟩)
    let lines := ["x = \"a", " b\""]
    (∀ line ∈ lines, ∀ word ∈ ["help", "exit", "EOF", "?"],
      ¬ word.toList <+: (Text.trim line).toList) ∧
    (∃ sh', Awaits sh ["x = \"a"] sh' ∧ sh'.source? " b\"" = some "x = \"a\nb\"\n") ∧
    continues "x = \"a\nb\"\n" = false ∧
    lexemes? ("\n".intercalate lines ++ "\n") =
      some [.name "x", .operator "=", .text "a\n b"] ∧
    lexemes? "x = \"a\nb\"\n" = some [.name "x", .operator "=", .text "a\nb"] := by
  intro sh lines
  have hplain : ∀ line ∈ lines, Plain line := by
    unfold Plain
    decide +kernel
  have hawaits : ∃ sh', Awaits sh ["x = \"a"] sh' ∧
      sh'.source? " b\"" = some "x = \"a\nb\"\n" := by
    have hfirst : sh.source? "x = \"a" = some "x = \"a\n" := by decide +kernel
    refine ⟨_, .kept (hplain _ List.mem_cons_self) hfirst ?_ (.nil _), ?_⟩
    · decide +kernel
    · decide +kernel
  refine ⟨hplain, hawaits, ?_, ?_, ?_⟩
  · decide +kernel
  · decide +kernel
  · decide +kernel

end Shell

end ExprLang
