import ExprLang.Proofs.MaximalMunch
import ExprLang.Proofs.Reports
import ExprLang.Proofs.SyntaxErrors

/-!
# Where the caret stands

A syntax error stands at a place that reading has come to: behind some first part of the text
(`Munch.exists_behind`). That place is in a line of the text, with as many characters of the line
before it as its column says (`LineAt`), so every syntax error is shown with its line.

The caret stands one character before the place. For an error behind a token that is the last
character of the token. An error about a character that begins no lexeme stands before that
character, and the caret then misses it by one, unless it is the first of its line.
-/

namespace ExprLang

namespace Text

/-- In the text `before ++ (l ++ after)`, `l` is a whole line. -/
structure IsLine (before l after : List Char) : Prop where
  unbroken : '\n' ∉ l
  start : before = [] ∨ ∃ b, before = b ++ ['\n']
  stop : after = [] ∨ ∃ a, after = '\n' :: a

namespace IsLine
variable {before l after before' l' after' : List Char}

theorem getElem?_lines (h : IsLine before l after) :
    (lines (before ++ (l ++ after)))[before.count '\n']? = some l := by
  obtain ⟨ls, hls⟩ : ∃ ls, lines (l ++ after) = l :: ls := by
    rcases h.stop with rfl | ⟨a, rfl⟩
    · exact ⟨[], by rw [List.append_nil, lines_of_unbroken h.unbroken]⟩
    · exact ⟨lines a, by rw [lines_append_newline, lines_of_unbroken h.unbroken]; rfl⟩
  rcases h.start with rfl | ⟨b, rfl⟩
  · simp [hls]
  · have hcount : (b ++ ['\n']).count '\n' = (lines b).length := by simp [length_lines]
    rw [hcount, List.append_assoc, List.singleton_append, lines_append_newline, hls]
    simp

theorem length_le (h : IsLine before l after) (h' : IsLine before' l' after')
    (heq : before ++ (l ++ after) = before' ++ (l' ++ after')) {k : Nat} (hk : before'.length ≤ k)
    (hl : k < before.length + l.length) : before'.length ≤ before.length := by
  rcases h'.start with rfl | ⟨b, rfl⟩
  · exact Nat.zero_le _
  -- otherwise the line break before the second line stands in the first
  refine Nat.le_of_not_lt fun hlt => ?_
  simp only [List.length_append, List.length_singleton] at hk hlt
  have hbreak : (before ++ (l ++ after))[b.length]? = some '\n' := by
    rw [heq]
    simp
  rw [List.getElem?_append_right (by omega), List.getElem?_append_left (by omega)] at hbreak
  exact h.unbroken (List.mem_of_getElem? hbreak)

/-- Every character is in one line. -/
theorem length_eq (h : IsLine before l after) (h' : IsLine before' l' after')
    (heq : before ++ (l ++ after) = before' ++ (l' ++ after')) {k : Nat} (hk : before.length ≤ k)
    (hl : k < before.length + l.length) (hk' : before'.length ≤ k)
    (hl' : k < before'.length + l'.length) : before.length = before'.length :=
  Nat.le_antisymm (h'.length_le h heq.symm hk hl') (h.length_le h' heq hk' hl)

end IsLine

theorem exists_stop (cs : List Char) :
    ∃ head after, cs = head ++ after ∧ '\n' ∉ head ∧ (after = [] ∨ ∃ a, after = '\n' :: a) := by
  by_cases hmem : '\n' ∈ cs
  · obtain ⟨head, a, rfl, hhead⟩ := List.eq_append_cons_of_mem hmem
    exact ⟨head, '\n' :: a, rfl, hhead, .inr ⟨a, rfl⟩⟩
  · exact ⟨cs, [], by simp, hmem, .inl rfl⟩

theorem exists_start (cs : List Char) :
    ∃ before tail, cs = before ++ tail ∧ '\n' ∉ tail ∧
      (before = [] ∨ ∃ b, before = b ++ ['\n']) := by
  obtain ⟨head, after, hcs, hhead, hafter⟩ := exists_stop cs.reverse
  refine ⟨after.reverse, head.reverse, ?_, by simpa using hhead, ?_⟩
  · rw [← List.reverse_append, ← hcs, List.reverse_reverse]
  · rcases hafter with rfl | ⟨a, rfl⟩
    · exact .inl rfl
    · exact .inr ⟨a.reverse, by simp⟩

end Text

open Text

/-- The place between `p` and `q` is in the line `tail ++ head`, with `tail` before it. -/
structure LineAt (p q before tail head after : List Char) : Prop where
  front : p = before ++ tail
  back : q = head ++ after
  line : IsLine before (tail ++ head) after

theorem exists_lineAt (p q : List Char) : ∃ before tail head after,
    LineAt p q before tail head after := by
  obtain ⟨before, tail, hp, htail, hbefore⟩ := exists_start p
  obtain ⟨head, after, hq, hhead, hafter⟩ := exists_stop q
  exact ⟨before, tail, head, after, hp, hq, by simp [htail, hhead], hbefore, hafter⟩

namespace LineAt
variable {p q before tail head after : List Char}

theorem append_eq (h : LineAt p q before tail head after) :
    p ++ q = before ++ ((tail ++ head) ++ after) := by
  rw [h.front, h.back]
  simp

theorem newline_not_mem (h : LineAt p q before tail head after) : '\n' ∉ tail :=
  fun hmem => h.line.unbroken (List.mem_append_left _ hmem)

theorem lineAfter_eq (h : LineAt p q before tail head after) : lineAfter p = lineAfter before := by
  simp [h.front, lineAfter, List.count_eq_zero.2 h.newline_not_mem]

theorem columnAfter_eq (h : LineAt p q before tail head after) : columnAfter p = tail.length := by
  have htail : ∀ c ∈ tail.reverse, (c != '\n') = true := by
    intro c hc
    rw [bne_iff_ne]
    rintro rfl
    exact h.newline_not_mem (List.mem_reverse.1 hc)
  rw [columnAfter, h.front, List.reverse_append, List.takeWhile_append_of_pos htail]
  rcases h.line.start with rfl | ⟨b, rfl⟩ <;> simp

end LineAt

namespace Diagnosis

/-- The caret stands under the character of the text that has `k` characters before it, below the
line that this character is in. -/
def PointsAt (d : Diagnosis) (cs : List Char) (k : Nat) : Prop :=
  ∃ before after, cs = before ++ (d.line ++ after) ∧ IsLine before d.line after ∧
    d.indent < d.line.length ∧ k = before.length + d.indent

/-- Below its line, the caret stands under the character that it is moved to. -/
theorem pointsAt_iff {before l after : List Char} (hl : IsLine before l after) {k indent : Nat}
    (hk : before.length ≤ k) (hk' : k < before.length + l.length) :
    PointsAt ⟨l, indent⟩ (before ++ (l ++ after)) k ↔ k = before.length + indent := by
  constructor
  · rintro ⟨before', after', htext, hl', hindent, rfl⟩
    have hsame := hl.length_eq hl' htext hk hk' (Nat.le_add_right _ _)
      (Nat.add_lt_add_left hindent _)
    simp only [hsame]
  · rintro rfl
    exact ⟨before, after, rfl, hl, Nat.lt_of_add_lt_add_left hk', rfl⟩

/-- Of a place in a text its whole line is shown, with the caret one character before the place. -/
theorem of?_place {text : String} {p q before tail head after : List Char}
    (htext : text.toList = p ++ q) (h : LineAt p q before tail head after) :
    of? text (lineAfter p) (columnAfter p) = some ⟨tail ++ head, tail.length - 1⟩ := by
  have hone : ¬ (lineAfter before : Int) < 1 := by
    simp only [lineAfter]
    omega
  have hnumber : ((lineAfter before : Int) - 1).toNat = before.count '\n' := by
    simp only [lineAfter]
    omega
  have hindent : min ((tail.length : Int) - 1).toNat (tail ++ head).length = tail.length - 1 := by
    rw [List.length_append]
    omega
  rw [of?, h.lineAfter_eq, h.columnAfter_eq, if_neg hone, hnumber, htext, h.append_eq,
    h.line.getElem?_lines]
  show some (Diagnosis.mk _ (min _ _)) = _
  rw [hindent]

section
variable {text : String} {p q : List Char} {c : Char}

theorem exists_pointsAt_before (htext : text.toList = p ++ q) (hp : columnAfter p ≠ 0) :
    ∃ d, of? text (lineAfter p) (columnAfter p) = some d ∧
      d.PointsAt text.toList (p.length - 1) := by
  obtain ⟨before, tail, head, after, h⟩ := exists_lineAt p q
  refine ⟨_, of?_place htext h, ?_⟩
  rw [h.columnAfter_eq] at hp
  rw [htext, h.append_eq, h.front, List.length_append]
  refine (pointsAt_iff h.line ?_ ?_).2 ?_
  · omega
  · rw [List.length_append]
    omega
  · omega

/-- The caret stands under the character behind a place only if the place is where a line starts. -/
theorem exists_pointsAt_behind_iff (htext : text.toList = p ++ c :: q) (hc : c ≠ '\n') :
    ∃ d, of? text (lineAfter p) (columnAfter p) = some d ∧
      (d.PointsAt text.toList p.length ↔ columnAfter p = 0) := by
  obtain ⟨before, tail, head, after, h⟩ := exists_lineAt p (c :: q)
  refine ⟨_, of?_place htext h, ?_⟩
  have hhead : 0 < head.length := by
    refine List.length_pos_iff.2 ?_
    rintro rfl
    have hback : c :: q = after := h.back
    rcases h.line.stop with rfl | ⟨a, rfl⟩
    · cases hback
    · cases hback
      exact hc rfl
  rw [htext, h.append_eq, h.columnAfter_eq, h.front, List.length_append, pointsAt_iff h.line]
  · omega
  · omega
  · rw [List.length_append]
    omega

end

end Diagnosis

theorem Munch.eq_append {cs s r : List Char} {gs : List Segment} (h : Munch cs gs s r) :
    cs = (Segment.chars gs ++ s) ++ r := by
  induction h with
  | ended => rfl
  | lexeme _ _ _ ih => rw [ih]; simp [Segment.chars]

theorem Munch.exists_rest {cs s r : List Char} {gs₁ gs₂ : List Segment} {g : Segment}
    (h : Munch cs (gs₁ ++ g :: gs₂) s r) : ∃ q, cs = Segment.chars (gs₁ ++ [g]) ++ q := by
  refine ⟨Segment.chars gs₂ ++ (s ++ r), ?_⟩
  rw [h.eq_append]
  simp [Segment.chars]

/-- A token stands behind the segments up to its own. -/
theorem Segment.exists_of_mem_tokens {before : List Char} {gs : List Segment} {t : Token}
    (h : t ∈ tokens before gs) : ∃ gs₁ g gs₂, gs = gs₁ ++ g :: gs₂ ∧
      t.place = (lineAfter (before ++ chars (gs₁ ++ [g])),
        columnAfter (before ++ chars (gs₁ ++ [g]))) := by
  induction gs generalizing before with
  | nil => cases h
  | cons g gs ih =>
    rcases List.mem_cons.1 h with rfl | h
    · exact ⟨[], g, gs, rfl, by simp [chars, Token.place]⟩
    · obtain ⟨gs₁, g', gs₂, rfl, hplace⟩ := ih h
      refine ⟨g :: gs₁, g', gs₂, rfl, ?_⟩
      rw [hplace]
      simp [chars]

theorem TextEnd.placeOf_cases (e : TextEnd) (ts : List Token) (n : Nat) :
    e.placeOf ts n = e.place ∨ ∃ t ∈ ts, e.placeOf ts n = t.place := by
  unfold placeOf
  cases ht : ts[ts.length - n]? with
  | none => exact .inl rfl
  | some t => exact .inr ⟨t, List.mem_of_getElem? ht, rfl⟩

namespace Munch
variable {limit : Nat} {text : String} {err : SourceError} {gs : List Segment} {s r : List Char}

/-- A syntax error stands behind some first part of the text. -/
theorem exists_behind (hcut : Munch text.toList gs s r)
    (h : parse limit text = .error (.error err)) :
    ∃ p q, text.toList = p ++ q ∧ err.IsAt (lineAfter p) (columnAfter p) := by
  have hs : Holds (.ofText text) _ _ := holds [] hcut
  obtain ⟨err', -, rfl⟩ := hs.exists_of_parse_error h
  rcases TextEnd.placeOf_cases _ (Segment.tokens [] gs) err'.line.toNat with
    hplace | ⟨t, ht, hplace⟩
  · exact ⟨_, r, hcut.eq_append, TextEnd.isAt_locate_of_place hplace⟩
  · obtain ⟨gs₁, g, gs₂, rfl, htoken⟩ := Segment.exists_of_mem_tokens ht
    obtain ⟨q, hq⟩ := hcut.exists_rest
    exact ⟨_, q, hq, TextEnd.isAt_locate_of_place (hplace.trans htoken)⟩

/-- A lexical error is about the character at which the cut of the text ends, and stands before
it. -/
theorem exists_stray (hcut : Munch text.toList gs s r)
    (h : parse limit text = .error (.error err)) (hstage : err.stage = .lexical) :
    ∃ c r', r = c :: r' ∧ err.complaint = .strayCharacter c ∧
      err.IsAt (lineAfter (Segment.chars gs ++ s)) (columnAfter (Segment.chars gs ++ s)) := by
  have hs : Holds (.ofText text) _ _ := holds [] hcut
  obtain ⟨err', hw, rfl⟩ := hs.exists_of_parse_error h
  have hblames := Words.blames_of_parse hw
  generalize hstop : Stop.error err' = stop at hblames
  cases hblames with
  | tooDeep => cases hstop
  | target | word =>
    cases hstop
    cases hstage
  | @lexical c hc =>
    cases hstop
    obtain ⟨r', rfl⟩ : ∃ r', r = c :: r' := List.head?_eq_some_iff.1 hc
    exact ⟨c, r', rfl, rfl, TextEnd.isAt_locate_of_place TextEnd.placeOf_nil⟩

theorem stray_ne_newline {cs : List Char} {c : Char} (h : Munch cs gs s (c :: r)) : c ≠ '\n' := by
  generalize hr : c :: r = rest at h
  induction h with
  | ended _ hstray =>
    subst hr
    rintro rfl
    cases (hstray _ rfl).1
  | lexeme _ _ _ ih => exact ih hr

theorem written_ne_nil {cs : List Char} (h : Munch cs gs s r) : ∀ g ∈ gs, g.written ≠ [] := by
  induction h with
  | ended => simp
  | lexeme _ hl _ ih =>
    obtain ⟨c, cs', hwritten, -⟩ := hl.eq_cons
    exact List.forall_mem_cons.2 ⟨by simp [hwritten], ih⟩

/-- Behind a lexeme that does not end with a line break there is no start of a line. -/
theorem columnAfter_ne_zero {cs : List Char} {gs₁ gs₂ : List Segment} {g : Segment}
    (h : Munch cs (gs₁ ++ g :: gs₂) s r) (hg : g.written.getLast? ≠ some '\n') :
    columnAfter (Segment.chars (gs₁ ++ [g])) ≠ 0 := by
  have hne : g.written ≠ [] := h.written_ne_nil g (by simp)
  obtain ⟨b, c, hwritten⟩ := (List.eq_nil_or_concat g.written).resolve_left hne
  have hc : c ≠ '\n' := by
    rintro rfl
    exact hg (by simp [hwritten])
  simp [Segment.chars, hwritten, columnAfter, hc]

end Munch

/-! ### The caret of an error -/

theorem SourceError.IsAt.diagnosis {err : SourceError} {line column : Nat}
    (h : err.IsAt line column) (text : String) :
    Diagnosis.of? text err.line err.column = Diagnosis.of? text line column := by
  rw [h.1, h.2]

/-- Who refuses a text, and where. -/
def refusedAt? (limit : Nat) (text : String) : Option (Stage × Int × Int) :=
  match parse limit text with
  | .error (.error err) => some (err.stage, err.line, err.column)
  | _ => none

theorem exists_of_refusedAt? {limit : Nat} {text : String} {stage : Stage} (line column : Nat)
    (h : refusedAt? limit text = some (stage, (line : Int), (column : Int))) : ∃ err,
      parse limit text = .error (.error err) ∧ err.stage = stage ∧ err.IsAt line column := by
  unfold refusedAt? at h
  split at h
  · rename_i err hparse
    simp only [Option.some.injEq, Prod.mk.injEq] at h
    exact ⟨err, hparse, h.1, h.2⟩
  · cases h

/-- The caret of an error behind a token stands under the last character of the token, if that is no
line break. The caret of an error about a character that begins no lexeme stands under the character
before it, and under the character itself only if that is the first of its line. Two lines are
drawn, with the caret in the lower one. -/
theorem caret_stands_before_place (limit : Nat) (text : String) (err : SourceError)
    (h : parse limit text = .error (.error err)) :
    ∃ gs s r, Munch text.toList gs s r ∧
      (err.stage = .lexical → ∃ c r' d, r = c :: r' ∧ err.complaint = .strayCharacter c ∧
        Diagnosis.of? text err.line err.column = some d ∧
        (d.PointsAt text.toList (Segment.chars gs ++ s).length ↔
          columnAfter (Segment.chars gs ++ s) = 0) ∧
        (columnAfter (Segment.chars gs ++ s) ≠ 0 →
          d.PointsAt text.toList ((Segment.chars gs ++ s).length - 1))) ∧
      (err.stage = .parse → ∀ gs₁ g gs₂, gs = gs₁ ++ g :: gs₂ →
        err.IsAt (lineAfter (Segment.chars (gs₁ ++ [g])))
          (columnAfter (Segment.chars (gs₁ ++ [g]))) →
        g.written.getLast? ≠ some '\n' →
        ∃ d, Diagnosis.of? text err.line err.column = some d ∧
          d.PointsAt text.toList ((Segment.chars (gs₁ ++ [g])).length - 1)) ∧
      ∀ d emphasize, Diagnosis.of? text err.line err.column = some d →
        '\n' ∉ (emphasize "^").toList → lines (d.text emphasize).toList =
          [' ' :: ' ' :: d.line, List.replicate (d.indent + 2) ' ' ++ (emphasize "^").toList] := by
  obtain ⟨gs, s, r, hcut⟩ := exists_munch text.toList
  refine ⟨gs, s, r, hcut, ?_, ?_, fun d emphasize hd hcaret => Diagnosis.lines_text hd hcaret⟩
  · intro hstage
    obtain ⟨c, r', rfl, hcomplaint, hat⟩ := hcut.exists_stray h hstage
    have hc : c ≠ '\n' := hcut.stray_ne_newline
    obtain ⟨d, hd, hiff⟩ := Diagnosis.exists_pointsAt_behind_iff hcut.eq_append hc
    refine ⟨c, r', d, rfl, hcomplaint, (hat.diagnosis text).trans hd, hiff, ?_⟩
    intro hcolumn
    obtain ⟨d', hd', hpoints⟩ := Diagnosis.exists_pointsAt_before hcut.eq_append hcolumn
    obtain rfl : d = d' := Option.some.inj (hd.symm.trans hd')
    exact hpoints
  · rintro - gs₁ g gs₂ rfl hat hlast
    obtain ⟨q, hq⟩ := hcut.exists_rest
    obtain ⟨d, hd, hpoints⟩ := Diagnosis.exists_pointsAt_before hq (hcut.columnAfter_ne_zero hlast)
    exact ⟨d, (hat.diagnosis text).trans hd, hpoints⟩

/-- A bracket on the second line is refused, and the caret stands under it. -/
theorem caret_stands_before_place_bracket : ∃ err d, parse 60 "(\n ]" = .error (.error err) ∧
    err.stage = .parse ∧ Diagnosis.of? "(\n ]" err.line err.column = some d ∧
    d.PointsAt "(\n ]".toList 3 ∧ lines (d.text id).toList = d.drawn id := by
  have hcut : Munch ['(', '\n', ' ', ']'] [⟨[], ['('], .mark (String.ofList ['('])⟩,
      ⟨['\n', ' '], [']'], .mark (String.ofList [']'])⟩] [] [] :=
    .lexeme (g := ⟨[], ['('], _⟩) (.spacing .nil) (.mark rfl)
      (.lexeme (g := ⟨['\n', ' '], [']'], _⟩) (.spacing (.blank rfl (.blank rfl .nil))) (.mark rfl)
        (.ended (.spacing .nil) nofun))
  have hrefused : refusedAt? 60 "(\n ]" = some (.parse, 2, 2) := by decide +kernel
  obtain ⟨err, hparse, hstage, hat⟩ := exists_of_refusedAt? 2 2 hrefused
  obtain ⟨gs, s, r, hcut', -, hbehind, hdrawn⟩ := caret_stands_before_place 60 "(\n ]" err hparse
  obtain ⟨rfl, -, -⟩ := hcut'.unique hcut
  obtain ⟨d, hd, hpoints⟩ := hbehind hstage [_] _ [] rfl hat (by decide)
  exact ⟨err, d, hparse, hstage, hd, hpoints, hdrawn d id hd (by decide)⟩

/-- The last character begins no lexeme, and the caret stands under the blank before it. -/
theorem caret_misses_stray_character : ∃ err d, parse 60 "1 + @" = .error (.error err) ∧
    err.stage = .lexical ∧ err.complaint.description = "Can't handle character: @" ∧
    "1 + @".toList[4]? = some '@' ∧ Diagnosis.of? "1 + @" err.line err.column = some d ∧
    ¬ d.PointsAt "1 + @".toList 4 ∧ d.PointsAt "1 + @".toList 3 := by
  have hrefusal : refusal? 60 "1 + @" = some (.lexical, "Can't handle character: @") := by
    decide +kernel
  obtain ⟨err, hparse, hstage, hdesc⟩ := exists_of_refusal? hrefusal
  have hrefused : refusedAt? 60 "1 + @" = some (.lexical, 1, 4) := by decide +kernel
  obtain ⟨err', hparse', -, hat⟩ := exists_of_refusedAt? 1 4 hrefused
  obtain rfl : err = err' := by simpa [hparse] using hparse'
  have hd : Diagnosis.of? "1 + @" 1 4 = some ⟨"1 + @".toList, 3⟩ := by decide
  refine ⟨err, _, hparse, hstage, hdesc, by decide, (hat.diagnosis _).trans hd, ?_, ?_⟩
  · rintro ⟨before, after, htext, -, -, hk⟩
    have hlen := congrArg List.length htext
    simp only [List.length_append] at hlen hk
    omega
  · exact ⟨[], [], by simp, ⟨by decide, .inl rfl, .inl rfl⟩, by decide, rfl⟩

/-- A syntax error is in a line of the text that its number names, at a column of that line, and is
shown with that line whole and, below it, a caret that needs no moving to stay in it. -/
theorem syntax_error_shows_its_line (limit : Nat) (text : String) (err : SourceError)
    (h : parse limit text = .error (.error err)) :
    1 ≤ err.line ∧ err.line ≤ 1 + text.toList.count '\n' ∧
      ∃ before l after, text.toList = before ++ (l ++ after) ∧ IsLine before l after ∧
        err.line = lineAfter before ∧ 0 ≤ err.column ∧ err.column ≤ l.length ∧
        ∃ d, Diagnosis.of? text err.line err.column = some d ∧
          d = ⟨l, (err.column - 1).toNat⟩ ∧ ∀ emphasize, '\n' ∉ (emphasize "^").toList →
          lines (d.text emphasize).toList = [' ' :: ' ' :: l,
            List.replicate ((err.column - 1).toNat + 2) ' ' ++ (emphasize "^").toList] := by
  obtain ⟨gs, s, r, hcut⟩ := exists_munch text.toList
  obtain ⟨p, q, htext, hat⟩ := hcut.exists_behind h
  obtain ⟨before, tail, head, after, hl⟩ := exists_lineAt p q
  have hplace := (hat.diagnosis text).trans (Diagnosis.of?_place htext hl)
  rw [hl.append_eq] at htext
  rw [SourceError.IsAt, hl.lineAfter_eq, hl.columnAfter_eq] at hat
  have hfirst : 1 ≤ lineAfter before := by
    simp only [lineAfter]
    omega
  have hlast : lineAfter before ≤ 1 + text.toList.count '\n' := by
    simp only [lineAfter, htext, List.count_append]
    omega
  have hindent : (err.column - 1).toNat = tail.length - 1 := by omega
  refine ⟨by omega, by omega, before, tail ++ head, after, htext, hl.line, hat.1, by omega, ?_, ?_⟩
  · rw [List.length_append]
    omega
  · have hd : Diagnosis.of? text err.line err.column =
        some ⟨tail ++ head, (err.column - 1).toNat⟩ := by rw [hplace, hindent]
    exact ⟨_, hd, rfl, fun emphasize => Diagnosis.lines_text hd⟩

/-- A string that is not closed reaches over a line break to the end of the text. -/
theorem syntax_error_shows_its_line_string : ∃ err, parse 60 "f(\n \"a\nb" = .error (.error err) ∧
    1 ≤ err.line ∧ err.line ≤ 1 + "f(\n \"a\nb".toList.count '\n' ∧
      ∃ before l after, "f(\n \"a\nb".toList = before ++ (l ++ after) ∧ IsLine before l after ∧
        err.line = lineAfter before ∧ 0 ≤ err.column ∧ err.column ≤ l.length ∧
        ∃ d, Diagnosis.of? "f(\n \"a\nb" err.line err.column = some d ∧
          d = ⟨l, (err.column - 1).toNat⟩ ∧ ∀ emphasize, '\n' ∉ (emphasize "^").toList →
          lines (d.text emphasize).toList = [' ' :: ' ' :: l,
            List.replicate ((err.column - 1).toNat + 2) ' ' ++ (emphasize "^").toList] := by
  have hrefused : refusedAt? 60 "f(\n \"a\nb" = some (.parse, 3, 1) := by decide +kernel
  obtain ⟨err, hparse, -, -⟩ := exists_of_refusedAt? 3 1 hrefused
  exact ⟨err, hparse, syntax_error_shows_its_line 60 _ err hparse⟩

end ExprLang
