import ExprLang.Proofs.Depth
import ExprLang.Proofs.MaximalMunch
import ExprLang.Proofs.SyntaxErrors

/-!
# Layout is free

Blanks and comments keep lexemes apart and say nothing else. Lexemes that are written one after
another with any layout between them are read back as they are (`Spread.munch`). Two texts of the
same lexemes are the same program, or both are refused, with the same words and at the same token:
a parser sees of a text its words, and places come in only when an error is located among the tokens
(`Holds.isBehind_locate`).
-/

namespace ExprLang
open Lexeme

/-- The lexemes are written one after another with layout between any two. -/
inductive Spread : List Lexeme → List Char → Prop
  | nil : Spread [] []
  | last {l : Lexeme} {cs : List Char} (h : l.Written cs) : Spread [l] cs
  | cons {l l' : Lexeme} {ls : List Lexeme} {cs s r : List Char} (h : l.Written cs)
      (hs : IsSpacing s) (hne : s ≠ []) (hr : Spread (l' :: ls) r) :
      Spread (l :: l' :: ls) (cs ++ (s ++ r))

theorem IsSpacing.detached {s : List Char} (h : IsSpacing s) (hne : s ≠ []) (r : List Char) :
    Detached (s ++ r) := by
  intro c hc
  cases h with
  | nil => exact absurd rfl hne
  | blank hspace =>
    cases hc
    exact .inl hspace
  | comment =>
    cases hc
    exact .inr rfl

theorem Spread.munch {ls : List Lexeme} {cs : List Char} (h : Spread ls cs) {s : List Char}
    (hs : IsSpacing s) : ∃ gs s', Munch (s ++ cs) gs s' [] ∧ gs.map Segment.lexeme = ls := by
  induction h generalizing s with
  | nil => exact ⟨[], s, .ended (.spacing hs) nofun, rfl⟩
  | @last l cs h =>
    have hmax : l.Maximal cs [] := h.maximal nofun
    have hcut := Munch.lexeme (g := ⟨s, cs, l⟩) (.spacing hs) hmax (.ended (.spacing .nil) nofun)
    simp only [List.append_nil] at hcut
    exact ⟨_, _, hcut, rfl⟩
  | @cons l l' ls cs s' r h hs' hne _ ih =>
    obtain ⟨gs, s'', hrest, hls⟩ := ih hs'
    have hmax : l.Maximal cs (s' ++ r) := h.maximal (hs'.detached hne r)
    exact ⟨_, s'', .lexeme (g := ⟨s, cs, l⟩) (.spacing hs) hmax hrest, congrArg (l :: ·) hls⟩

/-- Lexemes that are written out are the lexemes that are read, whatever layout keeps them apart. -/
theorem tokenize_reads_back (ls : List Lexeme) (cs : List Char) (h : Spread ls cs) :
    ∃ ts, tokenize (String.ofList cs) = .ok ts ∧ ts.map Token.lexeme = ls := by
  obtain ⟨gs, s, hcut, hls⟩ := h.munch .nil
  have htext : Munch (String.ofList cs).toList gs s [] := by
    rw [String.toList_ofList]
    exact hcut
  exact ⟨_, htext.tokenize_eq, (Segment.lexemes_tokens [] gs).trans hls⟩

/-- A string of a quote, a backslash and a line break stands between an operator and a name, and the
comments between them look like lexemes. -/
theorem tokenize_reads_back_string :
    Spread [.operator "<=", .text "\"\\\n", .name "x-1"]
        ("<=" ++ "#\"\n" ++ "\"\\\"\\\\\n\"" ++ " \t#1.5 )\n\n" ++ "x-1").toList ∧
      ∃ ts, tokenize ("<=" ++ "#\"\n" ++ "\"\\\"\\\\\n\"" ++ " \t#1.5 )\n\n" ++ "x-1") = .ok ts ∧
        ts.map Token.lexeme = [.operator "<=", .text "\"\\\n", .name "x-1"] := by
  have hname : Spread [.name "x-1"] "x-1".toList :=
    .last (.name ⟨⟨'x', ['-', '1'], rfl, by decide, List.all_eq_true.1 (by decide)⟩, by decide⟩)
  have hnumber : IsSpacing " \t#1.5 )\n\n".toList := by
    have hcomment : '\n' ∉ "1.5 )".toList := by decide
    exact .blank rfl (.blank rfl (.comment hcomment (.blank rfl .nil)))
  have hquote : IsSpacing "#\"\n".toList := by
    have hcomment : '\n' ∉ ['"'] := by decide
    exact .comment hcomment .nil
  have htext : Spread [.text "\"\\\n", .name "x-1"] _ :=
    .cons (.text "\"\\\n") hnumber (by decide) hname
  have hall : Spread [.operator "<=", .text "\"\\\n", .name "x-1"] _ :=
    .cons (.operator (by decide) (List.all_eq_true.1 (by decide))) hquote (by decide) htext
  have h := tokenize_reads_back _ _ hall
  exact ⟨hall, h⟩

/-- An error stands behind the token with `k` tokens before it; if there is none, at the end of the
text. -/
def SourceError.IsBehind (err : SourceError) (text : String) (ts : List Token) (k : Nat) : Prop :=
  match ts[k]? with
  | some t => err.IsAt t.line t.column
  | none => err.IsAt (Position.start.after text.toList).line
      (Position.start.after text.toList).column

/-- Where `p` was read and `q` is left, an error stands behind the next token of the text. -/
theorem Holds.isBehind_locate {text : String} {ts : List Token} {e : TextEnd}
    (h : Holds (.ofText text) ts e) (he : e.stray = none) {p q : List Lexeme}
    (hts : ts.map Token.lexeme = p ++ q) (c : Complaint) :
    (e.locate ts (.at .parse c q.length 0)).IsBehind text ts p.length := by
  obtain ⟨ts₁, ts₂, rfl, rfl, rfl⟩ := List.map_eq_append_iff.1 hts
  rw [List.length_map, List.length_map, SourceError.IsBehind]
  cases ts₂ with
  | nil =>
    rw [List.append_nil] at h ⊢
    rw [List.getElem?_eq_none (Nat.le_refl _)]
    exact h.isAt_locate_end he c
  | cons t ts₂ =>
    rw [List.getElem?_append_right (Nat.le_refl _), Nat.sub_self]
    exact e.isAt_locate ts₁ ts₂ t c

theorem Words.blames_word {limit : Nat} {ls : List Lexeme} {err : SourceError}
    (h : Words.parse limit ⟨ls, none⟩ = .error (.error err)) :
    ∃ c p q, err = .at .parse c q.length 0 ∧ ls = p ++ q := by
  have hblames := blames_of_parse h
  generalize hstop : Stop.error err = stop at hblames
  cases hblames with
  | tooDeep => cases hstop
  | lexical hs => cases hs
  | @target e u v hw =>
    cases hstop
    exact ⟨.badTarget e, u, .operator "=" :: v, rfl, hw⟩
  | @word c u v hc hw hend hu =>
    cases hstop
    exact ⟨c, u, v, rfl, hw⟩

/-- Two texts of the same lexemes have the same tree, or both are refused with the same complaint,
behind the token with the same number or at the end of each. They run out of depth together, and
only if there is too little of it for their number of tokens. -/
theorem parse_ignores_layout (limit : Nat) (text text' : String) (ts ts' : List Token)
    (hts : tokenize text = .ok ts) (hts' : tokenize text' = .ok ts')
    (hsame : ts'.map Token.lexeme = ts.map Token.lexeme) :
    (∃ tree, parse limit text = .ok tree ∧ parse limit text' = .ok tree) ∨
    (∃ err err', parse limit text = .error (.error err) ∧ parse limit text' = .error (.error err') ∧
      err.stage = .parse ∧ err'.stage = .parse ∧
      err'.complaint.description = err.complaint.description ∧
      ∃ k, err.IsBehind text ts k ∧ err'.IsBehind text' ts' k) ∨
    (parse limit text = .error .tooDeep ∧ parse limit text' = .error .tooDeep ∧
      limit < 5 * ts.length + 6) := by
  obtain ⟨e, hs, he⟩ := Holds.of_tokenize hts
  obtain ⟨e', hs', he'⟩ := Holds.of_tokenize hts'
  have hwords : Words.ofTokens ts e = ⟨ts.map Token.lexeme, none⟩ := by rw [Words.ofTokens, he]
  have hwords' : Words.ofTokens ts' e' = ⟨ts.map Token.lexeme, none⟩ := by
    rw [Words.ofTokens, he', hsame]
  rw [hs.parse_eq, hs'.parse_eq, hwords, hwords']
  cases hw : Words.parse limit ⟨ts.map Token.lexeme, none⟩ with
  | ok tree => exact .inl ⟨tree, rfl, rfl⟩
  | error stop =>
    right
    cases stop with
    | tooDeep =>
      refine .inr ⟨rfl, rfl, Nat.lt_of_not_le fun hle => ?_⟩
      have hlen : 5 * (ts.map Token.lexeme).length + 6 ≤ limit := by
        rw [List.length_map]
        exact hle
      exact Words.parse_ne_tooDeep (w := ⟨ts.map Token.lexeme, none⟩) hlen hw
    | error err =>
      obtain ⟨c, p, q, rfl, hpq⟩ := Words.blames_word hw
      exact .inl ⟨_, _, rfl, rfl, rfl, rfl, rfl, p.length, hs.isBehind_locate he hpq c,
        hs'.isBehind_locate he' (hsame.trans hpq) c⟩

/-- The lexemes of a text that has no stray character. -/
def lexemes? (text : String) : Option (List Lexeme) :=
  (tokenize text).toOption.map (·.map Token.lexeme)

theorem exists_of_lexemes? {text : String} {ls : List Lexeme} (h : lexemes? text = some ls) :
    ∃ ts, tokenize text = .ok ts ∧ ts.map Token.lexeme = ls := by
  unfold lexemes? at h
  cases hts : tokenize text with
  | error stop =>
    rw [hts] at h
    cases h
  | ok ts =>
    rw [hts] at h
    exact ⟨ts, rfl, Option.some.inj h⟩

/-- A comma is missing between two arguments. In the second text a comment with a comma in it stands
there, and the token to blame is on another line. -/
theorem parse_ignores_layout_comment : ∃ ts ts' err err' k,
    tokenize "f(a b)" = .ok ts ∧ tokenize "f( a # ,\n\tb\n)" = .ok ts' ∧
    ts'.map Token.lexeme = ts.map Token.lexeme ∧
    parse 60 "f(a b)" = .error (.error err) ∧ parse 60 "f( a # ,\n\tb\n)" = .error (.error err') ∧
    err'.complaint.description = err.complaint.description ∧
    err.IsBehind "f(a b)" ts k ∧ err'.IsBehind "f( a # ,\n\tb\n)" ts' k := by
  have hlexemes : lexemes? "f(a b)" = some [.name "f", .mark "(", .name "a", .name "b", .mark ")"] ∧
      lexemes? "f( a # ,\n\tb\n)" =
        some [.name "f", .mark "(", .name "a", .name "b", .mark ")"] := by decide +kernel
  obtain ⟨ts, hts, hls⟩ := exists_of_lexemes? hlexemes.1
  obtain ⟨ts', hts', hls'⟩ := exists_of_lexemes? hlexemes.2
  have hsame : ts'.map Token.lexeme = ts.map Token.lexeme := hls'.trans hls.symm
  have hrefusal : refusal? 60 "f(a b)" = some (.parse, "Expected punctuation: \",\"") := by
    decide +kernel
  obtain ⟨err, hparse, -, -⟩ := exists_of_refusal? hrefusal
  obtain ⟨tree, htree, -⟩ | ⟨err, err', herr, herr', -, -, hdesc, k, hk, hk'⟩ | ⟨hdeep, -, -⟩ :=
    parse_ignores_layout 60 "f(a b)" "f( a # ,\n\tb\n)" ts ts' hts hts' hsame
  · rw [hparse] at htree
    cases htree
  · exact ⟨ts, ts', err, err', k, hts, hts', hsame, herr, herr', hdesc, hk, hk'⟩
  · rw [hparse] at hdeep
    cases hdeep

end ExprLang
