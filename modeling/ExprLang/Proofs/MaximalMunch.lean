import ExprLang.Proofs.LexemeText

/-!
# Maximal munch

A text is cut into lexemes, each with the layout before it, up to its end or to a character that
begins no lexeme (`Munch`). Every lexeme of a cut is as long as it can be, and that leaves one way
to cut a text (`exists_munch`, `Munch.unique`). The tokens of a text are the lexemes of its cut,
each with the line and the column that the characters up to its end lead to (`Munch.tokenize_eq`).
-/

namespace ExprLang
open Lexeme

/-- Blanks, and comments with the line breaks that end them. -/
inductive IsSpacing : List Char → Prop
  | nil : IsSpacing []
  | blank {c : Char} {cs : List Char} (hc : isSpace c) (h : IsSpacing cs) : IsSpacing (c :: cs)
  | comment {body cs : List Char} (hb : '\n' ∉ body) (h : IsSpacing cs) :
      IsSpacing ('#' :: (body ++ '\n' :: cs))

/-- Blanks and comments in front of `r`. With nothing behind it, the last comment may reach to the
end of the text. -/
inductive IsLayout : List Char → List Char → Prop
  | spacing {s r : List Char} (h : IsSpacing s) : IsLayout s r
  | comment {s body : List Char} (h : IsSpacing s) (hb : '\n' ∉ body) :
      IsLayout (s ++ '#' :: body) []

/-- What follows is not layout. -/
def Solid (r : List Char) : Prop := ∀ c, r.head? = some c → isSpace c = false ∧ c ≠ '#'

theorem Solid.layoutLength {r : List Char} (h : Solid r) : layoutLength false r = 0 := by
  cases r with
  | nil => rfl
  | cons c r =>
    obtain ⟨hspace, hhash⟩ := h c rfl
    simp [Lexeme.layoutLength, hspace, hhash]

theorem layoutLength_comment {body : List Char} (hb : '\n' ∉ body) (r : List Char) :
    layoutLength true (body ++ '\n' :: r) = body.length + 1 + layoutLength false r := by
  induction body with
  | nil => simp [layoutLength, Nat.add_comm]
  | cons c body ih =>
    obtain ⟨hc, hb⟩ := List.ne_and_not_mem_of_not_mem_cons hb
    have hne : (c != '\n') = true := bne_iff_ne.2 (Ne.symm hc)
    rw [List.cons_append, layoutLength, hne, ih hb, List.length_cons]
    omega

theorem layoutLength_openComment {body : List Char} (hb : '\n' ∉ body) :
    layoutLength true body = body.length := by
  induction body with
  | nil => rfl
  | cons c body ih =>
    obtain ⟨hc, hb⟩ := List.ne_and_not_mem_of_not_mem_cons hb
    have hne : (c != '\n') = true := bne_iff_ne.2 (Ne.symm hc)
    rw [layoutLength, hne, ih hb, List.length_cons]

theorem layoutLength_hash (r : List Char) :
    layoutLength false ('#' :: r) = layoutLength true r + 1 := rfl

theorem IsSpacing.layoutLength_append {s : List Char} (h : IsSpacing s) (r : List Char) :
    layoutLength false (s ++ r) = s.length + layoutLength false r := by
  induction h with
  | nil => simp
  | blank hc _ ih =>
    rw [List.cons_append, layoutLength, if_pos hc, ih, List.length_cons]
    omega
  | comment hb _ ih =>
    rw [List.cons_append, List.append_assoc, List.cons_append, layoutLength_hash,
      layoutLength_comment hb, ih]
    simp only [List.length_cons, List.length_append]
    omega

namespace IsLayout
variable {s r s' r' : List Char}

/-- Layout is skipped as a whole, and nothing else is. -/
theorem layoutLength_append (h : IsLayout s r) (hr : Solid r) :
    layoutLength false (s ++ r) = s.length := by
  cases h with
  | spacing h => rw [h.layoutLength_append, hr.layoutLength, Nat.add_zero]
  | comment h hb =>
    rw [List.append_nil, h.layoutLength_append, layoutLength_hash, layoutLength_openComment hb,
      List.length_append, List.length_cons]

theorem unique (h : IsLayout s r) (hr : Solid r) (h' : IsLayout s' r') (hr' : Solid r')
    (heq : s ++ r = s' ++ r') : s = s' ∧ r = r' := by
  have hlen : s.length = s'.length := by
    rw [← h.layoutLength_append hr, heq, h'.layoutLength_append hr']
  exact List.append_inj heq hlen

end IsLayout

theorem exists_layout (cs : List Char) : ∃ s r, cs = s ++ r ∧ IsLayout s r ∧ Solid r := by
  generalize hn : cs.length = n
  induction n using Nat.strongRecOn generalizing cs with
  | ind n ih =>
  cases cs with
  | nil => exact ⟨[], [], rfl, .spacing .nil, nofun⟩
  | cons c cs =>
    subst hn
    by_cases hspace : isSpace c
    · obtain ⟨s, r, rfl, hs, hr⟩ := ih cs.length (Nat.lt_succ_self _) cs rfl
      refine ⟨c :: s, r, rfl, ?_, hr⟩
      cases hs with
      | spacing hs => exact .spacing (.blank hspace hs)
      | comment hs hb => exact .comment (.blank hspace hs) hb
    by_cases hhash : c = '#'
    · subst hhash
      by_cases hline : '\n' ∈ cs
      · obtain ⟨body, after, rfl, hb⟩ := List.eq_append_cons_of_mem hline
        have hlt : after.length < ('#' :: (body ++ '\n' :: after)).length := by
          simp only [List.length_cons, List.length_append]
          omega
        obtain ⟨s, r, rfl, hs, hr⟩ := ih after.length hlt after rfl
        refine ⟨'#' :: (body ++ '\n' :: s), r, by simp, ?_, hr⟩
        cases hs with
        | spacing hs => exact .spacing (.comment hb hs)
        | @comment s' body' hs hb' =>
          have h : IsLayout ('#' :: (body ++ '\n' :: s') ++ '#' :: body') [] :=
            .comment (.comment hb hs) hb'
          simpa using h
      · exact ⟨'#' :: cs, [], (List.append_nil _).symm, .comment .nil hline, nofun⟩
    · refine ⟨[], c :: cs, rfl, .spacing .nil, ?_⟩
      intro d hd
      cases hd
      exact ⟨Bool.eq_false_iff.2 hspace, hhash⟩

/-! ### Cuts -/

/-- A lexeme as it stands in a text, with the layout before it. -/
structure Segment where
  layout : List Char
  written : List Char
  lexeme : Lexeme

namespace Segment

/-- The characters of segments one after another. -/
def chars (gs : List Segment) : List Char := gs.flatMap fun g => g.layout ++ g.written

end Segment

/-- A character that is no layout and begins no lexeme. -/
def IsStray (c : Char) : Prop := isSpace c = false ∧ c ≠ '#' ∧ ¬ Lexeme.Starts c

/-- The text is cut into segments, a last run of layout, and a rest that no lexeme begins: `s`
stands behind the last lexeme, and `r` is empty or begins with a stray character. -/
inductive Munch : List Char → List Segment → List Char → List Char → Prop
  | ended {s r : List Char} (hs : IsLayout s r) (hr : ∀ c, r.head? = some c → IsStray c) :
      Munch (s ++ r) [] s r
  | lexeme {g : Segment} {cs : List Char} {gs : List Segment} {s r : List Char}
      (hs : IsLayout g.layout (g.written ++ cs)) (hl : g.lexeme.Maximal g.written cs)
      (h : Munch cs gs s r) : Munch (g.layout ++ (g.written ++ cs)) (g :: gs) s r

theorem exists_munch (cs : List Char) : ∃ gs s r, Munch cs gs s r := by
  generalize hn : cs.length = n
  induction n using Nat.strongRecOn generalizing cs with
  | ind n ih =>
  obtain ⟨s, r, rfl, hs, hr⟩ := exists_layout cs
  cases r with
  | nil => exact ⟨[], s, [], .ended hs nofun⟩
  | cons c r =>
    by_cases hc : Lexeme.Starts c
    · obtain ⟨l, cs', r', hsplit, hmax⟩ := exists_maximal hc r
      rw [hsplit] at hs hn ⊢
      obtain ⟨d, ds, hd, -⟩ := hmax.eq_cons
      have hlt : r'.length < n := by
        rw [← hn, hd]
        simp only [List.length_append, List.length_cons]
        omega
      obtain ⟨gs, s', r'', h⟩ := ih r'.length hlt r' rfl
      exact ⟨_, s', r'', .lexeme (g := ⟨s, cs', l⟩) hs hmax h⟩
    · refine ⟨[], s, c :: r, .ended hs fun d hd => ?_⟩
      cases hd
      obtain ⟨hspace, hhash⟩ := hr c rfl
      exact ⟨hspace, hhash, hc⟩

theorem solid_of_stray {r : List Char} (hr : ∀ c, r.head? = some c → IsStray c) : Solid r :=
  fun c hc => ⟨(hr c hc).1, (hr c hc).2.1⟩

namespace Lexeme.Maximal
variable {l l' : Lexeme} {cs cs' r r' : List Char}

theorem solid (h : l.Maximal cs r) : Solid (cs ++ r) := by
  obtain ⟨c, cs', rfl, hspace, hhash⟩ := h.eq_cons
  intro d hd
  cases hd
  exact ⟨hspace, hhash⟩

theorem unique (h : l.Maximal cs r) (h' : l'.Maximal cs' r') (heq : cs ++ r = cs' ++ r') :
    l = l' ∧ cs = cs' ∧ r = r' := by
  have hscan := h.scan
  rw [heq, h'.scan] at hscan
  obtain ⟨hl, hlen⟩ := Scan.lexeme.inj hscan
  exact ⟨hl.symm, List.append_inj heq hlen.symm⟩

theorem not_stray (h : l.Maximal cs r) : ¬ ∀ c, (cs ++ r).head? = some c → IsStray c := by
  intro hstray
  obtain ⟨c, cs', rfl, -⟩ := h.eq_cons
  have hscan : Lexeme.scan (c :: (cs' ++ r)) = _ := h.scan
  rw [scan_stray (hstray c rfl).2.2] at hscan
  cases hscan

end Lexeme.Maximal

namespace Munch
variable {cs s r s' r' : List Char} {gs gs' : List Segment}

/-- There is one way to cut a text. -/
theorem unique (h : Munch cs gs s r) (h' : Munch cs gs' s' r') : gs = gs' ∧ s = s' ∧ r = r' := by
  induction h generalizing gs' with
  | @ended s r hs hr =>
    generalize hcs : s ++ r = cs at h'
    cases h' with
    | ended hs' hr' =>
      exact ⟨rfl, hs.unique (solid_of_stray hr) hs' (solid_of_stray hr') hcs⟩
    | lexeme hs' hl' =>
      obtain ⟨-, rfl⟩ := hs.unique (solid_of_stray hr) hs' hl'.solid hcs
      exact absurd hr hl'.not_stray
  | @lexeme g cs₁ gs s r hs hl _ ih =>
    generalize hcs : g.layout ++ (g.written ++ cs₁) = cs at h'
    cases h' with
    | ended hs' hr' =>
      obtain ⟨-, rfl⟩ := hs.unique hl.solid hs' (solid_of_stray hr') hcs
      exact absurd hr' hl.not_stray
    | @lexeme g' cs₁' gs' _ _ hs' hl' h' =>
      obtain ⟨layout, written, lexeme⟩ := g
      obtain ⟨layout', written', lexeme'⟩ := g'
      obtain ⟨rfl, heq⟩ := hs.unique hl.solid hs' hl'.solid hcs
      obtain ⟨rfl, rfl, rfl⟩ := hl.unique hl' heq
      obtain ⟨rfl, rfl, rfl⟩ := ih h'
      exact ⟨rfl, rfl, rfl⟩

end Munch

/-- One more than the line breaks that were passed. -/
def lineAfter (cs : List Char) : Nat := 1 + cs.count '\n'

/-- The characters behind the last line break that was passed. -/
def columnAfter (cs : List Char) : Nat := (cs.reverse.takeWhile (· != '\n')).length

theorem Position.after_append (p : Position) (cs ds : List Char) :
    p.after (cs ++ ds) = (p.after cs).after ds :=
  List.foldl_append

theorem Position.start_after (cs : List Char) :
    Position.start.after cs = ⟨cs.length, lineAfter cs, columnAfter cs⟩ := by
  -- over the characters in the order from the last to the first, as columns are counted
  suffices h : ∀ rs : List Char, Position.start.after rs.reverse =
      ⟨rs.length, 1 + rs.count '\n', (rs.takeWhile (· != '\n')).length⟩ by
    have hcs := h cs.reverse
    rw [List.reverse_reverse, List.length_reverse, List.count_reverse] at hcs
    exact hcs
  intro rs
  induction rs with
  | nil => rfl
  | cons c rs ih =>
    rw [List.reverse_cons, after_append, ih]
    by_cases hc : c = '\n'
    · simp [after, step, hc, Nat.add_assoc]
    · simp [after, step, hc]

/-- The lexemes of segments, each with the place behind it, where `before` stands before the first.
-/
def Segment.tokens : (before : List Char) → List Segment → List Token
  | _, [] => []
  | before, g :: gs =>
    let passed := before ++ (g.layout ++ g.written)
    ⟨g.lexeme, lineAfter passed, columnAfter passed⟩ :: tokens passed gs

theorem Segment.lexemes_tokens (before : List Char) (gs : List Segment) :
    (tokens before gs).map Token.lexeme = gs.map Segment.lexeme := by
  induction gs generalizing before with
  | nil => rfl
  | cons g gs ih => exact congrArg (g.lexeme :: ·) (ih _)

namespace Munch
variable {cs s r : List Char} {gs : List Segment} (before : List Char)

/-- The stream that has come to `rest`. -/
def streamAt (before rest : List Char) : TokenStream := ⟨⟨rest, Position.start.after before⟩, none⟩

theorem line_streamAt (rest : List Char) :
    (streamAt before rest).input.pos.line = lineAfter before := by
  rw [streamAt, Position.start_after]

theorem column_streamAt (rest : List Char) :
    (streamAt before rest).input.pos.column = columnAfter before := by
  rw [streamAt, Position.start_after]

theorem advance_streamAt (cs r : List Char) :
    (streamAt before (cs ++ r)).input.advance cs.length = (streamAt (before ++ cs) r).input := by
  rw [streamAt, Cursor.advance, List.drop_left, List.take_left, ← Position.after_append, streamAt]

theorem skipped_streamAt (hs : IsLayout s r) (hr : Solid r) :
    (streamAt before (s ++ r)).skipped = streamAt (before ++ s) r := by
  have hlen : layoutLength false (streamAt before (s ++ r)).input.rest = s.length :=
    hs.layoutLength_append hr
  rw [TokenStream.skipped, hlen, advance_streamAt]
  rfl

theorem read_ended (hs : IsLayout s []) :
    TokenStream.read (streamAt before (s ++ [])) = .ok none (streamAt (before ++ s) []) := by
  rw [TokenStream.read_eq, skipped_streamAt before hs nofun]
  rfl

theorem read_stray {c : Char} (hc : IsStray c) (hs : IsLayout s (c :: r)) :
    TokenStream.read (streamAt before (s ++ c :: r)) = .error (TextEnd.error
      ⟨some c, lineAfter (before ++ s), columnAfter (before ++ s)⟩ c)
      (streamAt (before ++ s) (c :: r)) := by
  have hsolid : Solid (c :: r) := by
    intro d hd
    cases hd
    exact ⟨hc.1, hc.2.1⟩
  have hscan : Lexeme.scan (streamAt (before ++ s) (c :: r)).input.rest = .stray c :=
    scan_stray hc.2.2 r
  rw [TokenStream.read_eq, skipped_streamAt before hs hsolid, hscan]
  simp only [line_streamAt, column_streamAt]
  rfl

theorem read_lexeme {g : Segment} (hs : IsLayout g.layout (g.written ++ cs))
    (hl : g.lexeme.Maximal g.written cs) :
    TokenStream.read (streamAt before (g.layout ++ (g.written ++ cs))) =
      .ok (some ⟨g.lexeme, lineAfter (before ++ (g.layout ++ g.written)),
          columnAfter (before ++ (g.layout ++ g.written))⟩)
        (streamAt (before ++ (g.layout ++ g.written)) cs) := by
  have hscan : Lexeme.scan (streamAt (before ++ g.layout) (g.written ++ cs)).input.rest =
      .lexeme g.lexeme g.written.length := hl.scan
  rw [TokenStream.read_eq, skipped_streamAt before hs hl.solid, hscan]
  simp only [advance_streamAt, List.append_assoc, line_streamAt, column_streamAt]
  rfl

/-- A stream holds the lexemes of a cut of its text, and ends where the cut does. -/
theorem holds (h : Munch cs gs s r) :
    Holds (streamAt before cs) (Segment.tokens before gs) ⟨r.head?,
      lineAfter (before ++ (Segment.chars gs ++ s)),
      columnAfter (before ++ (Segment.chars gs ++ s))⟩ := by
  induction h generalizing before with
  | @ended s r hs hr =>
    cases r with
    | nil =>
      have hholds := Holds.ended rfl (read_ended before hs)
      rw [line_streamAt, column_streamAt] at hholds
      exact hholds
    | cons c r => exact .stuck rfl rfl (read_stray before (hr c rfl) hs)
  | @lexeme g cs gs s r hs hl _ ih =>
    have hread := read_lexeme before hs hl
    have hrest := ih (before ++ (g.layout ++ g.written))
    rw [List.append_assoc] at hrest
    have hchars : Segment.chars (g :: gs) ++ s =
        (g.layout ++ g.written) ++ (Segment.chars gs ++ s) := by
      simp [Segment.chars]
    rw [hchars]
    exact .token hread (TokenStream.read_some hread).1 hrest

theorem tokenize_eq {text : String} (h : Munch text.toList gs s r) :
    tokenize text = match r.head? with
      | none => .ok (Segment.tokens [] gs)
      | some c => .error (.error (.at .lexical (.strayCharacter c)
          (lineAfter (Segment.chars gs ++ s)) (columnAfter (Segment.chars gs ++ s)))) :=
  have hs : Holds (.ofText text) _ _ := holds [] h
  hs.tokenize_eq

end Munch

/-- A text has the tokens `ts` if and only if it is cut into layout and lexemes that are as long as
they can be, up to its end, and `ts` are those lexemes with the places behind them. There is one
such cut at most. If there is none, the text is refused for the first character that begins no
lexeme where one should, at the place before it. -/
theorem tokenize_munches_maximally (text : String) :
    (∀ ts, tokenize text = .ok ts ↔
      ∃ gs s, Munch text.toList gs s [] ∧ ts = Segment.tokens [] gs) ∧
    (∀ gs s gs' s', Munch text.toList gs s [] → Munch text.toList gs' s' [] → gs = gs' ∧ s = s') ∧
    ((∀ gs s, ¬ Munch text.toList gs s []) →
      ∃ gs s c r, Munch text.toList gs s (c :: r) ∧
        tokenize text = .error (.error (.at .lexical (.strayCharacter c)
          (lineAfter (Segment.chars gs ++ s)) (columnAfter (Segment.chars gs ++ s))))) := by
  obtain ⟨gs, s, r, h⟩ := exists_munch text.toList
  have htokens := h.tokenize_eq
  refine ⟨fun ts => ⟨fun hts => ?_, ?_⟩, fun _ _ _ _ h₁ h₂ => ?_, fun hnone => ?_⟩
  · cases r with
    | nil =>
      rw [htokens] at hts
      cases hts
      exact ⟨gs, s, h, rfl⟩
    | cons c r =>
      rw [htokens] at hts
      cases hts
  · rintro ⟨gs', s', h', rfl⟩
    exact h'.tokenize_eq
  · obtain ⟨hgs, hs, -⟩ := h₁.unique h₂
    exact ⟨hgs, hs⟩
  · cases r with
    | nil => exact absurd h (hnone gs s)
    | cons c r => exact ⟨gs, s, c, r, h, htokens⟩

/-- A name is cut off, and behind a comment and a line break stands a character of no lexeme. -/
theorem tokenize_munches_maximally_stray :
    (∀ gs s, ¬ Munch "a-b # c\n $1".toList gs s []) ∧
    ∃ gs s c r, Munch "a-b # c\n $1".toList gs s (c :: r) ∧
      tokenize "a-b # c\n $1" = .error (.error (.at .lexical (.strayCharacter c)
        (lineAfter (Segment.chars gs ++ s)) (columnAfter (Segment.chars gs ++ s)))) := by
  have hrefused : (tokenize "a-b # c\n $1").isOk = false := by decide +kernel
  have hnone : ∀ gs s, ¬ Munch "a-b # c\n $1".toList gs s [] := by
    intro gs s h
    have hok := ((tokenize_munches_maximally _).1 _).2 ⟨gs, s, h, rfl⟩
    rw [hok] at hrefused
    cases hrefused
  exact ⟨hnone, (tokenize_munches_maximally _).2.2 hnone⟩

end ExprLang
