import ExprLang.Continuation
import ExprLang.Proofs.LexemeText

/-!
# Texts behind one another

A line break ends a comment and every lexeme but a string that is still open. So the lexemes of two
texts with a line break between them are those of the one and then those of the other
(`Lexed.append`), unless the first ends inside a string. Whether it does is what `Continuation`
follows character by character: over a whole lexeme it comes back to where it started, brackets
apart (`Bounded.follow`), and it is left inside a string just where the last lexeme is one that the
text ends in (`bounded_or_open`).
-/

namespace ExprLang
open Lexeme

theorem Lexeme.Stops.append_newline {p : Char → Bool} {r : List Char} (h : Stops p r)
    (hp : p '\n' = false) (ds : List Char) : Stops p (r ++ '\n' :: ds) := by
  intro c hc
  cases r with
  | nil =>
    cases hc
    exact hp
  | cons d r => exact h c hc

theorem layoutLength_append_of_ne_nil {b : Bool} {cs : List Char}
    (h : cs.drop (layoutLength b cs) ≠ []) (ds : List Char) :
    layoutLength b (cs ++ ds) = layoutLength b cs := by
  induction cs generalizing b with
  | nil => exact absurd (List.drop_nil ..) h
  | cons c r ih =>
    cases b with
    | true => exact congrArg (· + 1) (ih h)
    | false =>
      simp only [List.cons_append, layoutLength] at h ⊢
      split at h
      · rename_i hc
        rw [if_pos hc, if_pos hc, ih h]
      · rename_i hc
        rw [if_neg hc, if_neg hc]
        split at h
        · rename_i hc'
          rw [if_pos hc', if_pos hc', ih h]
        · rename_i hc'
          rw [if_neg hc', if_neg hc']

theorem layoutLength_append_newline {b : Bool} {cs : List Char}
    (h : cs.drop (layoutLength b cs) = []) (ds : List Char) :
    layoutLength b (cs ++ '\n' :: ds) = cs.length + 1 + layoutLength false ds := by
  induction cs generalizing b with
  | nil => cases b <;> simp [layoutLength, isSpace] <;> omega
  | cons c r ih =>
    cases b with
    | true =>
      have hr := ih h
      simp only [List.cons_append, layoutLength, List.length_cons] at hr ⊢
      omega
    | false =>
      simp only [List.cons_append, layoutLength, List.length_cons] at h ⊢
      split at h
      · rename_i hc
        rw [if_pos hc, ih h]
        omega
      · rename_i hc
        rw [if_neg hc]
        split at h
        · rename_i hc'
          rw [if_pos hc', ih h]
          omega
        · cases h

theorem skipLayout_append_of_ne_nil {cs : List Char} (h : skipLayout cs ≠ []) (ds : List Char) :
    skipLayout (cs ++ ds) = skipLayout cs ++ ds := by
  have hle : layoutLength false cs ≤ cs.length := by
    rw [skipLayout, ne_eq, List.drop_eq_nil_iff] at h
    omega
  rw [skipLayout, layoutLength_append_of_ne_nil h, List.drop_append_of_le_length hle, skipLayout]

theorem skipLayout_append_newline {cs : List Char} (h : skipLayout cs = []) (ds : List Char) :
    skipLayout (cs ++ '\n' :: ds) = skipLayout ds := by
  have hlen : (cs ++ ['\n']).length = cs.length + 1 := by simp
  rw [skipLayout, layoutLength_append_newline h, ← List.drop_drop, List.append_cons cs '\n' ds,
    ← hlen, List.drop_left, skipLayout]

theorem step_quote (k : Int) : Continuation.step ⟨.code, k⟩ '"' = ⟨.string, k⟩ := rfl

theorem step_string_of_ne {c : Char} (hq : c ≠ '"') (hb : c ≠ '\\') (k : Int) :
    Continuation.step ⟨.string, k⟩ c = ⟨.string, k⟩ := by
  simp [Continuation.step, hq, hb]

/-- Nothing in the body of a string ends it. -/
theorem Lexeme.Escapes.follow {body value : List Char} (h : Escapes body value) (k : Int) :
    body.foldl Continuation.step ⟨.string, k⟩ = ⟨.string, k⟩ := by
  induction h with
  | nil => rfl
  | plain hq hb _ ih => rw [List.foldl_cons, step_string_of_ne hq hb, ih]
  | escaped _ ih => exact ih

/-- Brackets opened minus brackets closed. -/
def Lexeme.balance : Lexeme → Int
  | .mark m => if m ∈ ["(", "\x7b", "["] then 1 else if m ∈ [")", "\x7d", "]"] then -1 else 0
  | _ => 0

/-- What neither opens nor closes anything in the mode `code`. -/
def Inert (c : Char) : Prop :=
  ∀ k, Continuation.step ⟨.code, k⟩ c = ⟨.code, k⟩

/-- The characters that are not inert. -/
def delimiters : List Char := ['"', '#', '(', '{', '[', ')', '}', ']']

theorem inert_of_class {p : Char → Bool} {c : Char} (hc : p c) (hp : delimiters.any p = false) :
    Inert c := by
  have hne : ∀ d ∈ delimiters, c ≠ d := by
    rintro d hd rfl
    exact List.any_eq_false.1 hp c hd hc
  simp only [delimiters, List.forall_mem_cons] at hne
  intro k
  simp [Continuation.step, Continuation.isOpening, Continuation.isClosing, hne]

theorem foldl_of_inert {cs : List Char} (h : ∀ c ∈ cs, Inert c) (k : Int) :
    cs.foldl Continuation.step ⟨.code, k⟩ = ⟨.code, k⟩ := by
  induction cs with
  | nil => rfl
  | cons c cs ih =>
    obtain ⟨hc, hcs⟩ := List.forall_mem_cons.1 h
    rw [List.foldl_cons, hc k, ih hcs]

theorem step_mark {c : Char} (hc : isMark c) (k : Int) :
    Continuation.step ⟨.code, k⟩ c = ⟨.code, k + (Lexeme.mark (String.ofList [c])).balance⟩ := by
  simp only [isMark, List.contains_eq_mem, decide_eq_true_eq, List.mem_cons, List.not_mem_nil,
    or_false] at hc
  rcases hc with rfl | rfl | rfl | rfl | rfl | rfl | rfl | rfl <;>
    simp [Continuation.step, Continuation.isOpening, Continuation.isClosing, Lexeme.balance,
      Int.sub_eq_add_neg]

/-- The `n` characters of `l` at the head of a text are all that a line break leaves of it, and
nothing is open behind them but brackets. -/
structure Bounded (cs : List Char) (l : Lexeme) (n : Nat) : Prop where
  le : n ≤ cs.length
  scan : ∀ ds, scan (cs ++ '\n' :: ds) = .lexeme l n
  follow : ∀ k, (cs.take n).foldl Continuation.step ⟨.code, k⟩ = ⟨.code, k + l.balance⟩

theorem Bounded.of_maximal {l : Lexeme} {cs r : List Char}
    (hmax : ∀ ds, l.Maximal cs (r ++ '\n' :: ds))
    (hfollow : ∀ k, cs.foldl Continuation.step ⟨.code, k⟩ = ⟨.code, k + l.balance⟩) :
    Bounded (cs ++ r) l cs.length where
  le := by simp
  scan ds := by
    rw [List.append_assoc]
    exact (hmax ds).scan
  follow k := by
    rw [List.take_left]
    exact hfollow k

theorem inert_of_isNumeral {cs : List Char} (h : IsNumeral cs) : ∀ c ∈ cs, Inert c := by
  have hdigit : ∀ c : Char, c.isDigit → Inert c := fun c hc => inert_of_class hc rfl
  obtain ⟨whole, -, hwhole, rfl | ⟨fraction, hfraction, rfl⟩⟩ := h
  · exact fun c hc => hdigit c (hwhole c hc)
  · intro c hc
    rw [List.mem_append, List.mem_cons] at hc
    rcases hc with hc | rfl | hc
    · exact hdigit c (hwhole c hc)
    · exact fun k => rfl
    · exact hdigit c (hfraction c hc)

/-- A string literal without the quote that would end it; a backslash at its very end takes no
character. -/
inductive Lexeme.Unclosed : List Char → Prop
  | text {body value : List Char} (h : Escapes body value) : Unclosed ('"' :: body)
  | escape {body value : List Char} (h : Escapes body value) : Unclosed ('"' :: (body ++ ['\\']))

theorem Lexeme.Unclosed.inString {cs : List Char} (h : Unclosed cs) (k : Int) :
    (cs.foldl Continuation.step ⟨.code, k⟩).inString := by
  cases h with
  | text h =>
    rw [List.foldl_cons, step_quote, h.follow]
    rfl
  | escape h =>
    rw [List.foldl_cons, step_quote, List.foldl_append, h.follow]
    rfl

/-- Behind a lexeme nothing is open but brackets, unless it is a string that the text ends in. -/
theorem Lexeme.Maximal.follow {l : Lexeme} {cs r : List Char} (h : l.Maximal cs r) :
    (∀ k, cs.foldl Continuation.step ⟨.code, k⟩ = ⟨.code, k + l.balance⟩) ∨
      r = [] ∧ Unclosed cs := by
  have inert : l.balance = 0 → (∀ c ∈ cs, Inert c) →
      ∀ k, cs.foldl Continuation.step ⟨.code, k⟩ = ⟨.code, k + l.balance⟩ := by
    intro hl hcs k
    rw [foldl_of_inert hcs, hl, Int.add_zero]
  have hname : ∀ c, isNamePart c → Inert c := fun c hc => inert_of_class hc rfl
  cases h with
  | number hnum => exact .inl (inert rfl (inert_of_isNumeral hnum))
  | keyword hk =>
    exact .inl (inert rfl fun c hc => hname c ((isWord_of_mem_keywords hk).isNamePart c hc))
  | name hn => exact .inl (inert rfl fun c hc => hname c (hn.1.isNamePart c hc))
  | mark hc => exact .inl (step_mark hc)
  | operator _ hall => exact .inl (inert rfl fun c hc => inert_of_class (hall c hc) rfl)
  | text hbody =>
    refine .inl fun k => ?_
    rw [List.foldl_cons, step_quote, List.foldl_append, hbody.follow]
    exact congrArg _ (Int.add_zero k).symm
  | openText hbody => exact .inr ⟨rfl, .text hbody⟩
  | openEscape hbody => exact .inr ⟨rfl, .escape hbody⟩

theorem Lexeme.Maximal.append_newline {l : Lexeme} {cs r : List Char} (h : l.Maximal cs r)
    (hclosed : ¬ Unclosed cs) (ds : List Char) : l.Maximal cs (r ++ '\n' :: ds) := by
  cases h with
  | number hnum hr hpoint =>
    exact .number hnum (hr.append_newline rfl ds) fun hno => (hpoint hno).append_newline rfl ds
  | keyword hk hr => exact .keyword hk (hr.append_newline rfl ds)
  | name hn hr => exact .name hn (hr.append_newline rfl ds)
  | mark hc => exact .mark hc
  | operator hne hall hr => exact .operator hne hall (hr.append_newline rfl ds)
  | text hbody => exact .text hbody
  | openText hbody => exact absurd (.text hbody) hclosed
  | openEscape hbody => exact absurd (.escape hbody) hclosed

/-- The lexeme at the head of a text is over at a line break, or it is a string that the text ends
in. -/
theorem bounded_or_open {cs : List Char} {l : Lexeme} {n : Nat} (h : scan cs = .lexeme l n) :
    Bounded cs l n ∨ cs.length ≤ n ∧ ∀ k, (cs.foldl Continuation.step ⟨.code, k⟩).inString := by
  obtain ⟨cs, r, rfl, rfl, hmax⟩ := maximal_of_scan h
  rcases hmax.follow with hfollow | ⟨rfl, hopen⟩
  · refine .inl (.of_maximal (hmax.append_newline fun hopen => ?_) hfollow)
    have hin := hopen.inString 0
    rw [hfollow 0] at hin
    cases hin
  · rw [List.append_nil]
    exact .inr ⟨Nat.le_refl _, hopen.inString⟩

/-- The mode that layout is read in, inside of a comment or not. -/
def layoutMode (comment : Bool) : Continuation.Mode := if comment then .comment else .code

theorem foldl_layout {b : Bool} (cs : List Char) (k : Int) :
    ∃ b', (cs.take (layoutLength b cs)).foldl Continuation.step ⟨layoutMode b, k⟩ =
      ⟨layoutMode b', k⟩ ∧ (cs.drop (layoutLength b cs) ≠ [] → b' = false) := by
  induction cs generalizing b with
  | nil => exact ⟨b, rfl, fun h => absurd (List.drop_nil ..) h⟩
  | cons c r ih =>
    cases b with
    | true =>
      obtain ⟨b', hfold, hb'⟩ := ih (b := c != '\n')
      refine ⟨b', ?_, hb'⟩
      have hstep : Continuation.step ⟨layoutMode true, k⟩ c = ⟨layoutMode (c != '\n'), k⟩ := by
        by_cases hc : c = '\n' <;> simp [Continuation.step, layoutMode, hc]
      rw [layoutLength, List.take_succ_cons, List.foldl_cons, hstep, hfold]
    | false =>
      rw [layoutLength]
      split
      · rename_i hc
        obtain ⟨b', hfold, hb'⟩ := ih (b := false)
        refine ⟨b', ?_, hb'⟩
        have hstep : Continuation.step ⟨layoutMode false, k⟩ c = ⟨layoutMode false, k⟩ :=
          inert_of_class hc rfl k
        rw [List.take_succ_cons, List.foldl_cons, hstep, hfold]
      split
      · rename_i hc
        obtain ⟨b', hfold, hb'⟩ := ih (b := true)
        refine ⟨b', ?_, hb'⟩
        obtain rfl : c = '#' := by simpa using hc
        rw [List.take_succ_cons, List.foldl_cons]
        exact hfold
      · exact ⟨false, rfl, fun _ => rfl⟩

theorem foldl_skipLayout {cs : List Char} (h : skipLayout cs ≠ []) (k : Int) :
    cs.foldl Continuation.step ⟨.code, k⟩ = (skipLayout cs).foldl Continuation.step ⟨.code, k⟩ := by
  obtain ⟨b', hfold, hb'⟩ := foldl_layout (b := false) cs k
  obtain rfl := hb' h
  conv => lhs; rw [← List.take_append_drop (layoutLength false cs) cs, List.foldl_append]
  exact congrArg (fun s => (skipLayout cs).foldl Continuation.step s) hfold

theorem Lexed.of_skipLayout {cs ds : List Char} {ls : List Lexeme} (h : Lexed ds ls)
    (hskip : skipLayout cs = skipLayout ds) : Lexed cs ls := by
  cases h with
  | done hs => exact .done (hskip ▸ hs)
  | lexeme hs h => exact .lexeme (hskip ▸ hs) (hskip ▸ h)

/-- A line break keeps two texts apart, unless the first ends inside a string. -/
theorem Lexed.append {cs ds : List Char} {ls ls' : List Lexeme} (h : Lexed cs ls)
    (hds : Lexed ds ls') {k : Int}
    (hs : (cs.foldl Continuation.step ⟨.code, k⟩).inString = false) :
    Lexed (cs ++ '\n' :: ds) (ls ++ ls') := by
  induction h generalizing k with
  | done hscan =>
    exact hds.of_skipLayout (skipLayout_append_newline (TokenStream.scan_nothing hscan) ds)
  | @lexeme cs l n ls hscan h ih =>
    have hne := (scan_lexeme_pos hscan).1
    rw [foldl_skipLayout hne] at hs
    rcases bounded_or_open hscan with hl | ⟨-, hopen⟩
    · rw [← List.take_append_drop n (skipLayout cs), List.foldl_append, hl.follow] at hs
      have hskip := skipLayout_append_of_ne_nil hne ('\n' :: ds)
      refine .lexeme (hskip ▸ hl.scan ds) ?_
      rw [hskip, List.drop_append_of_le_length hl.le]
      exact ih hs
    · rw [hopen k] at hs
      cases hs

end ExprLang
