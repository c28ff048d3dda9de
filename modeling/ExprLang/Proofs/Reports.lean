import ExprLang.Reporter

/-!
# What a report shows

A report on one program (`Reporter.reportOn`) is read line by line: where the program is and the
number of its first line, the program itself if it is one line, the message, and for an error with a
place the line that the place is in, with the caret below it (`Reporter.lines_reportOn`).
-/

namespace ExprLang

namespace Text

theorem lines_ne_nil (cs : List Char) : lines cs ≠ [] := by
  cases cs with
  | nil => simp [lines]
  | cons c r =>
    unfold lines
    split
    · simp
    · split <;> simp

/-- Lines end at line breaks. All that is said of lines here follows from this. -/
theorem lines_append_newline (cs ds : List Char) :
    lines (cs ++ '\n' :: ds) = lines cs ++ lines ds := by
  induction cs with
  | nil => simp [lines]
  | cons c cs ih =>
    by_cases hc : c = '\n'
    · simp [lines, hc, ih]
    · obtain ⟨l, ls, hls⟩ := List.exists_cons_of_ne_nil (lines_ne_nil cs)
      simp [lines, hc, ih, hls]

theorem lines_of_unbroken {l : List Char} (h : '\n' ∉ l) : lines l = [l] := by
  induction l with
  | nil => rfl
  | cons c l ih =>
    obtain ⟨hc, hl⟩ := List.ne_and_not_mem_of_not_mem_cons h
    simp [lines, Ne.symm hc, ih hl]

theorem length_lines (cs : List Char) : (lines cs).length = cs.count '\n' + 1 := by
  induction cs with
  | nil => rfl
  | cons c cs ih =>
    by_cases hc : c = '\n'
    · simp [lines, hc, ih]
    · obtain ⟨l, ls, hls⟩ := List.exists_cons_of_ne_nil (lines_ne_nil cs)
      simpa [lines, hc, hls] using ih

theorem newline_not_mem_of_mem_lines {cs l : List Char} (h : l ∈ lines cs) : '\n' ∉ l := by
  induction cs generalizing l with
  | nil =>
    rw [List.mem_singleton.1 h]
    exact List.not_mem_nil
  | cons c cs ih =>
    obtain ⟨l', ls, hls⟩ := List.exists_cons_of_ne_nil (lines_ne_nil cs)
    by_cases hc : c = '\n'
    · simp only [lines, hc, if_true] at h
      rcases List.mem_cons.1 h with rfl | h
      · exact List.not_mem_nil
      · exact ih h
    · simp only [lines, hc, if_false, hls] at h ih
      rcases List.mem_cons.1 h with rfl | h
      · exact List.not_mem_cons_of_ne_of_not_mem (Ne.symm hc) (ih (List.mem_cons_self ..))
      · exact ih (List.mem_cons_of_mem _ h)

/-- A text that goes on behind a line break. -/
theorem lines_unbroken_append {l : List Char} (h : '\n' ∉ l) (cs : List Char) :
    lines (l ++ '\n' :: cs) = l :: lines cs := by
  rw [lines_append_newline, lines_of_unbroken h]
  rfl

theorem newline_not_mem_repr (n : Nat) : '\n' ∉ n.repr.toList := by
  rw [Nat.repr_eq_ofList_toDigits, String.toList_ofList]
  intro h
  have hdigit := Nat.isDigit_of_mem_toDigits (by decide) (by decide) h
  revert hdigit
  decide

theorem newline_not_mem_int_repr (i : Int) : '\n' ∉ i.repr.toList := by
  cases i with
  | ofNat n => exact newline_not_mem_repr n
  | negSucc n =>
    rw [Int.repr, String.toList_append, List.mem_append]
    exact fun h => h.elim (by decide) (newline_not_mem_repr (n + 1))

end Text

open Text

namespace Diagnosis

/-- The two lines that are drawn, both behind two blanks: the line in question, and below it the
caret, under the character that has as many others before it. -/
def drawn (emphasize : String → String) (d : Diagnosis) : List (List Char) :=
  [' ' :: ' ' :: d.line, List.replicate (d.indent + 2) ' ' ++ (emphasize "^").toList]

theorem newline_not_mem_line {source : String} {line column : Int} {d : Diagnosis}
    (h : of? source line column = some d) : '\n' ∉ d.line := by
  rw [of?] at h
  split at h
  · cases h
  · obtain ⟨l, hl, hd⟩ := Option.bind_eq_some_iff.1 h
    cases hd
    exact newline_not_mem_of_mem_lines (List.mem_of_getElem? hl)

theorem lines_text {source : String} {line column : Int} {d : Diagnosis} {emphasize : String → String}
    (h : of? source line column = some d) (hcaret : '\n' ∉ (emphasize "^").toList) :
    lines (d.text emphasize).toList = d.drawn emphasize := by
  have hline : '\n' ∉ ' ' :: ' ' :: d.line := by simp [newline_not_mem_line h]
  have hbelow : '\n' ∉ List.replicate (d.indent + 2) ' ' ++ (emphasize "^").toList := by
    simp [hcaret]
  have htext : (d.text emphasize).toList = (' ' :: ' ' :: d.line) ++ '\n' ::
      (List.replicate (d.indent + 2) ' ' ++ (emphasize "^").toList) := by
    simp [text, String.toList_append, List.replicate_succ]
  rw [htext, lines_unbroken_append hline, lines_of_unbroken hbelow, drawn]

end Diagnosis

namespace Reporter

/-- What a report says if the program `x` alone is at work: an empty program is not shown. -/
def reportOn (emphasize : String → String) (path : String) (x : Running) (n : Notice) : String :=
  if x.source.isEmpty then emphasize "error: " ++ n.message ++ "\n"
  else
    headline path x ++ emphasize "error: " ++ n.message ++ "\n" ++
      match n.place.bind fun (line, column) => Diagnosis.of? x.source line column with
      | some d => d.text emphasize ++ "\n"
      | none => ""

/-- The lines of a headline: it names the path and the number of the first line, and shows the
program if it is one line. -/
def headlines (path : String) (x : Running) : List (List Char) :=
  ("  File '" ++ path ++ "', line " ++ toString x.line ++ ":").toList ::
    if '\n' ∈ (Text.trim x.source).toList then [] else [("    " ++ Text.trim x.source).toList]

theorem lines_headline_append {path : String} (hpath : '\n' ∉ path.toList) (x : Running)
    (cs : List Char) : lines ((headline path x).toList ++ cs) = headlines path x ++ lines cs := by
  have hwhere : '\n' ∉ ("  File '" ++ path ++ "', line " ++ toString x.line ++ ":").toList := by
    simp [String.toList_append, hpath, newline_not_mem_int_repr]
  rw [headline, headlines]
  by_cases hbroken : '\n' ∈ (Text.trim x.source).toList
  · rw [if_pos hbroken, List.cons_append, List.nil_append, ← lines_unbroken_append hwhere]
    simp [String.toList_append, hbroken]
  · have hshown : '\n' ∉ ("    " ++ Text.trim x.source).toList := by
      simp [String.toList_append, hbroken]
    rw [if_neg hbroken, List.cons_append, List.cons_append, List.nil_append,
      ← lines_unbroken_append hshown, ← lines_unbroken_append hwhere]
    simp [String.toList_append, hbroken]

/-- What is read in a report on a program that is not empty. -/
theorem lines_reportOn {emphasize : String → String} {path : String} {x : Running}
    (hx : x.source.isEmpty = false) (hpath : '\n' ∉ path.toList)
    (hcaret : '\n' ∉ (emphasize "^").toList) (n : Notice) :
    lines (reportOn emphasize path x n).toList = headlines path x ++
      (lines (emphasize "error: " ++ n.message).toList ++
      ((n.place.bind fun (line, column) => Diagnosis.of? x.source line column).elim []
        (Diagnosis.drawn emphasize) ++ [[]])) := by
  have htext : (reportOn emphasize path x n).toList = (headline path x).toList ++
      ((emphasize "error: " ++ n.message).toList ++ '\n' ::
      ((n.place.bind fun (line, column) => Diagnosis.of? x.source line column).elim []
        fun d => (d.text emphasize).toList ++ ['\n'])) := by
    rw [reportOn, if_neg (by simp [hx])]
    cases n.place.bind fun (line, column) => Diagnosis.of? x.source line column <;>
      simp [String.toList_append]
  rw [htext, lines_headline_append hpath, lines_append_newline]
  cases hd : n.place.bind fun (line, column) => Diagnosis.of? x.source line column with
  | none => rfl
  | some d =>
    obtain ⟨⟨line, column⟩, -, hd⟩ := Option.bind_eq_some_iff.1 hd
    simp only [Option.elim_some]
    rw [lines_append_newline, Diagnosis.lines_text hd hcaret]
    rfl

end Reporter

end ExprLang
