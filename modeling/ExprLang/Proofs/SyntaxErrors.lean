import ExprLang.Proofs.Lookahead
import ExprLang.Proofs.Recognition

/-!
# Where syntax errors are reported

A parse error that is not about the target of an assignment points at the first token that cannot
go on to a program: the tokens before it begin some program (`Words.blames_of_parse`), and with it
they begin none. For the latter, whatever follows that token the parser would complain of it all the
same (`Words.parse_misfit_ahead`), but programs are accepted.
-/

namespace ExprLang
open Grammar

theorem head?_toList_append {s : String} {c : Char} (h : s.toList.head? = some c) (t : String) :
    (s ++ t).toList.head? = some c := by
  rw [String.toList_append, List.head?_append, h]
  rfl

theorem Complaint.IsMisfit.description_ne {c : Complaint} (h : c.IsMisfit) (rest : String) :
    c.description ≠ "Cannot assign to" ++ rest := by
  -- the first letter tells these complaints from the one about targets
  have hfirst : c.description.toList.head? = some 'E' ∨ c.description.toList.head? = some 'U' := by
    cases c with
    | expectedMark m =>
      exact .inl (head?_toList_append (head?_toList_append (by decide) m) _)
    | expectedKeyword k =>
      exact .inl (head?_toList_append (head?_toList_append (by decide) k) _)
    | expectedName => exact .inl (by decide)
    | unexpected found =>
      cases found with
      | none => exact .inr (by decide)
      | some l =>
        exact .inr (head?_toList_append (head?_toList_append
          (head?_toList_append (by decide) l.kind) " ") l.quoted)
    | strayCharacter | badTarget | other => exact h.elim
  intro hdesc
  rw [hdesc, head?_toList_append (c := 'C') (by decide) rest] at hfirst
  rcases hfirst with hfirst | hfirst
  · cases hfirst
  · cases hfirst

theorem Complaint.description_badTarget (e : Expr) :
    (badTarget e).description = "Cannot assign to" ++ (" " ++ e.quoted) := by
  show "Cannot assign to " ++ e.quoted = _
  rw [← String.append_assoc]
  rfl

namespace Words
variable {limit n : Nat} {c : Complaint}

/-- A complaint about a word is made whatever follows it. -/
theorem parse_misfit_ahead {p r : List Lexeme} {st : Option Char}
    (h : parse limit ⟨p ++ r, st⟩ = .error (.error (.at .parse c n 0))) (hc : c.IsMisfit)
    (hn : r.length < n) (r' : List Lexeme) :
    ∃ n', parse limit ⟨p ++ r', none⟩ = .error (.error (.at .parse c n' 0)) := by
  have hlocal := ((Simulation.ahead r r' st none).program (Eq.refl limit)).2 p
  unfold parse at h ⊢
  cases hr : program limit (⟨p ++ r, st⟩ : Words) with
  | ok tree w => rw [hr] at h; cases h
  | error err w =>
    rw [hr] at h
    cases h
    have hrun := (wp_iff_of_error hr).1 hlocal c n hc rfl hn
    cases hr' : program limit (⟨p ++ r', none⟩ : Words) with
    | ok tree w' => exact ((wp_iff_of_ok hr').1 hrun).elim
    | error err' w' =>
      obtain ⟨n', rfl⟩ := (wp_iff_of_error hr').1 hrun
      exact ⟨n', rfl⟩

/-- Of the words of a program none is complained of. -/
theorem not_isProgram_of_misfit {w : List Lexeme}
    (h : parse limit ⟨w, none⟩ = .error (.error (.at .parse c n 0))) (hc : c.IsMisfit) :
    ¬ IsProgram w := by
  intro hw
  obtain ⟨ps, hps, hlisted⟩ := hw.exists_spells
  rcases parse_of_spells limit hps hlisted with hok | ⟨err, herr, hdeep | ⟨-, target, n', rfl⟩⟩
  · rw [hok] at h
    cases h
  · rw [herr, hdeep] at h
    cases h
  · rw [herr] at h
    have hcomplaint := congrArg SourceError.complaint (Stop.error.inj (Except.error.inj h))
    obtain rfl : .badTarget target = c := hcomplaint
    exact hc

/-- The word that is complained of is the first that does not fit. -/
theorem not_begins_of_misfit {u v : List Lexeme} {l : Lexeme} {st : Option Char}
    (h : parse limit ⟨u ++ l :: v, st⟩ = .error (.error (.at .parse c (v.length + 1) 0)))
    (hc : c.IsMisfit) : ¬ Begins IsProgram (u ++ [l]) := by
  rintro ⟨z, hz⟩
  have h' : parse limit ⟨(u ++ [l]) ++ v, st⟩ = .error (.error (.at .parse c (v.length + 1) 0)) := by
    simpa using h
  obtain ⟨n', hz'⟩ := parse_misfit_ahead h' hc (Nat.lt_succ_self _) z
  exact not_isProgram_of_misfit hz' hc hz

end Words

theorem Cursor.end_advance (c : Cursor) (n : Nat) :
    (c.advance n).pos.after (c.advance n).rest = c.pos.after c.rest := by
  rw [advance, Position.after, Position.after, Position.after, ← List.foldl_append,
    List.take_append_drop]

theorem TokenStream.end_read {s s' : TokenStream} {o : Option Token} (h : read s = .ok o s') :
    s'.input.pos.after s'.input.rest = s.input.pos.after s.input.rest := by
  have hskip : s.skipped.input.pos.after s.skipped.input.rest = s.input.pos.after s.input.rest :=
    s.input.end_advance _
  rw [read_eq] at h
  split at h
  · cases h
    exact hskip
  · cases h
  · cases h
    exact (s.skipped.input.end_advance _).trans hskip

/-- Behind its last token, a text that is not cut short is read to its end. -/
theorem Holds.place_end {s : TokenStream} {ts : List Token} {e : TextEnd} (h : Holds s ts e)
    (hs : s.lookahead = none) (he : e.stray = none) :
    e.line = (s.input.pos.after s.input.rest).line ∧
      e.column = (s.input.pos.after s.input.rest).column := by
  induction h with
  | @ended s s' hl hr =>
    have hend := TokenStream.end_read hr
    rw [TokenStream.read_eq] at hr
    split at hr
    · rename_i hscan
      cases hr
      rw [TokenStream.scan_nothing hscan] at hend
      rw [← hend]
      exact ⟨rfl, rfl⟩
    · cases hr
    · cases hr
  | stuck _ hc => rw [he] at hc; cases hc
  | @token s s' t ts e hn hp h ih =>
    obtain ⟨i, la⟩ := s
    obtain rfl : la = none := hs
    have hr : TokenStream.read ⟨i, none⟩ = .ok (some t) s' := hn
    rw [← TokenStream.end_read hr]
    exact ih (TokenStream.read_lookahead hr) he

/-- An error stands at a place of the text. -/
def SourceError.IsAt (err : SourceError) (line column : Nat) : Prop :=
  err.line = line ∧ err.column = column

theorem TextEnd.isAt_locate_of_place {e : TextEnd} {ts : List Token} {err : SourceError}
    {line column : Nat} (h : e.placeOf ts err.line.toNat = (line, column)) :
    (e.locate ts err).IsAt line column := by
  rw [locate, h]
  exact ⟨rfl, rfl⟩

/-- An error that complains of the token at which it stands. -/
theorem TextEnd.isAt_locate (e : TextEnd) (ts₁ ts₂ : List Token) (t : Token) (c : Complaint) :
    (e.locate (ts₁ ++ t :: ts₂) (.at .parse c (ts₂.length + 1) 0)).IsAt t.line t.column :=
  isAt_locate_of_place (placeOf_cons (List.suffix_append ts₁ (t :: ts₂)))

/-- An error that complains of the end of the text. -/
theorem Holds.isAt_locate_end {text : String} {ts : List Token} {e : TextEnd}
    (h : Holds (.ofText text) ts e) (he : e.stray = none) (c : Complaint) :
    (e.locate ts (.at .parse c 0 0)).IsAt (Position.start.after text.toList).line
      (Position.start.after text.toList).column := by
  obtain ⟨hline, hcolumn⟩ := h.place_end rfl he
  have hplace : e.placeOf ts 0 = e.place := TextEnd.placeOf_nil
  exact TextEnd.isAt_locate_of_place (hplace.trans (Prod.ext hline hcolumn))

/-- The first `k` tokens of the text begin a program. The error stands at the next one, with which
they begin none; or there is no further one, it stands at the end of the text, and they are none. -/
def SourceError.MisfitsAfter (err : SourceError) (text : String) (ts : List Token) (k : Nat) :
    Prop :=
  k ≤ ts.length ∧ Begins IsProgram ((ts.take k).map Token.lexeme) ∧
    ((∃ t, ts[k]? = some t ∧ err.IsAt t.line t.column ∧
        ¬ Begins IsProgram ((ts.take (k + 1)).map Token.lexeme)) ∨
      k = ts.length ∧ tokenize text = .ok ts ∧
        err.IsAt (Position.start.after text.toList).line
          (Position.start.after text.toList).column ∧
        ¬ IsProgram (ts.map Token.lexeme))

/-- A parse error stands at the first token that cannot go on to a program, or at the end of a text
that is none; if it is about the target of an assignment, it stands at an `=`. -/
theorem parse_error_at_first_misfit (limit : Nat) (text : String) (err : SourceError)
    (h : parse limit text = .error (.error err)) (hstage : err.stage = .parse) :
    ∃ ts e, Holds (.ofText text) ts e ∧
      ((∀ rest, err.complaint.description ≠ "Cannot assign to" ++ rest) →
        ∃ k, err.MisfitsAfter text ts k) ∧
      ∀ rest, err.complaint.description = "Cannot assign to" ++ rest →
        ∃ t ∈ ts, t.lexeme = .operator "=" ∧ err.IsAt t.line t.column := by
  obtain ⟨ts, e, hs⟩ := Holds.exists_of_lookahead (.ofText text) rfl
  refine ⟨ts, e, hs, ?_⟩
  rw [hs.parse_eq] at h
  cases hw : (Words.ofTokens ts e).parse limit with
  | ok tree =>
    rw [hw] at h
    cases h
  | error stop =>
    have hblames := Words.blames_of_parse hw
    rw [hw] at h
    cases hblames with
    | tooDeep => cases h
    | lexical =>
      cases h
      cases hstage
    | @target target u v hleft =>
      cases h
      obtain ⟨ts₁, rest, rfl, -, hrest⟩ := List.map_eq_append_iff.1 hleft
      obtain ⟨t, ts₂, rfl, ht, rfl⟩ := List.map_eq_cons_iff.1 hrest
      refine ⟨fun hno => absurd (Complaint.description_badTarget target) (hno _), fun _ _ => ?_⟩
      refine ⟨t, by simp, ht, ?_⟩
      simpa using e.isAt_locate ts₁ ts₂ t (.badTarget target)
    | @word c u v hc hleft hend hbegins =>
      cases h
      refine ⟨fun _ => ?_, fun rest hdesc => absurd hdesc (hc.description_ne rest)⟩
      obtain ⟨ts₁, ts₂, rfl, rfl, rfl⟩ := List.map_eq_append_iff.1 hleft
      refine ⟨ts₁.length, by simp, by simpa using hbegins, ?_⟩
      cases ts₂ with
      | nil =>
        have hstray : e.stray = none := hend rfl
        rw [List.append_nil] at hs hw ⊢
        have hmisfit : Words.parse limit ⟨ts₁.map Token.lexeme, none⟩ =
            .error (.error (.at .parse c 0 0)) := by
          simpa [Words.ofTokens, hstray] using hw
        have htokens : tokenize text = .ok ts₁ := by rw [hs.tokenize_eq, hstray]
        exact .inr ⟨rfl, htokens, hs.isAt_locate_end hstray c,
          Words.not_isProgram_of_misfit hmisfit hc⟩
      | cons t ts₂ =>
        refine .inl ⟨t, by simp, ?_, ?_⟩
        · simpa using e.isAt_locate ts₁ ts₂ t c
        · have hmisfit : Words.parse limit ⟨ts₁.map Token.lexeme ++ t.lexeme :: ts₂.map Token.lexeme,
              e.stray⟩ = .error (.error (.at .parse c ((ts₂.map Token.lexeme).length + 1) 0)) := by
            simpa [Words.ofTokens] using hw
          have htake : (ts₁ ++ t :: ts₂).take (ts₁.length + 1) = ts₁ ++ [t] := by
            simp [List.take_append, List.take_of_length_le]
          rw [htake, List.map_append]
          exact Words.not_begins_of_misfit hmisfit hc

/-- Who refuses a text, and in which words. -/
def refusal? (limit : Nat) (text : String) : Option (Stage × String) :=
  match parse limit text with
  | .error (.error err) => some (err.stage, err.complaint.description)
  | _ => none

theorem exists_of_refusal? {limit : Nat} {text : String} {stage : Stage} {description : String}
    (h : refusal? limit text = some (stage, description)) : ∃ err,
      parse limit text = .error (.error err) ∧ err.stage = stage ∧
        err.complaint.description = description := by
  unfold refusal? at h
  split at h
  · rename_i err hparse
    obtain ⟨rfl, rfl⟩ := Prod.mk.inj (Option.some.inj h)
    exact ⟨err, hparse, rfl, rfl⟩
  · cases h

/-- A comma is missing between two arguments. -/
theorem parse_error_at_first_misfit_comma : ∃ err ts e k, parse 60 "f(a b)" = .error (.error err) ∧
    err.stage = .parse ∧ Holds (.ofText "f(a b)") ts e ∧ err.MisfitsAfter "f(a b)" ts k := by
  have hrefusal : refusal? 60 "f(a b)" = some (.parse, "Expected punctuation: \",\"") := by
    decide +kernel
  obtain ⟨err, hparse, hstage, hdesc⟩ := exists_of_refusal? hrefusal
  have hno : ∀ rest, err.complaint.description ≠ "Cannot assign to" ++ rest := by
    intro rest hrest
    have hfirst := head?_toList_append (s := "Cannot assign to") (c := 'C') (by decide) rest
    rw [← hrest, hdesc] at hfirst
    exact absurd hfirst (by decide)
  obtain ⟨ts, e, hs, hmisfit, -⟩ := parse_error_at_first_misfit 60 "f(a b)" err hparse hstage
  obtain ⟨k, hk⟩ := hmisfit hno
  exact ⟨err, ts, e, k, hparse, hstage, hs, hk⟩

end ExprLang
