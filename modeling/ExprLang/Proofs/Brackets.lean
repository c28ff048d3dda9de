import ExprLang.Proofs.Lexing
import ExprLang.Proofs.MaximalMunch
import ExprLang.Proofs.Recognition

/-!
# Brackets

The shell follows a text character by character and counts brackets, whatever their kind, while a
parser pairs them. The two meet in the lexemes. Over a text that can be cut into lexemes, the count
is that of its marks, unless the text ends inside of a string (`Munch.follow`): those that open a
bracket less those that close one (`bracketDepth_eq_count`). In a program, these are as many
(`Derives.bracketDepth`).
-/

namespace ExprLang
open Lexeme Continuation

/-- Brackets opened minus brackets closed, over all of the lexemes. -/
def bracketDepth : List Lexeme → Int
  | [] => 0
  | l :: ls => l.balance + bracketDepth ls

@[simp] theorem bracketDepth_nil : bracketDepth [] = 0 := rfl

@[simp] theorem bracketDepth_cons (l : Lexeme) (ls : List Lexeme) :
    bracketDepth (l :: ls) = l.balance + bracketDepth ls := rfl

@[simp] theorem bracketDepth_append (ls ls' : List Lexeme) :
    bracketDepth (ls ++ ls') = bracketDepth ls + bracketDepth ls' := by
  induction ls with
  | nil => simp
  | cons l ls ih => simp [ih, Int.add_assoc]

theorem Listed.bracketDepth {sep : String} {us : List (List Lexeme)} {w : List Lexeme}
    (h : Listed sep us w) (hsep : (Lexeme.mark sep).balance = 0)
    (hus : ∀ u ∈ us, bracketDepth u = 0) : bracketDepth w = 0 := by
  induction us generalizing w with
  | nil => simp [h.nil_inv]
  | cons u us ih =>
    obtain ⟨hu, hus⟩ := List.forall_mem_cons.1 hus
    rcases h.cons_inv with ⟨-, rfl⟩ | ⟨w', rfl, hw'⟩
    · exact hu
    · simp [hu, hsep, ih hw' hus]

theorem Derives.bracketDepth {p : Phrase} {u : List Lexeme} (h : Derives p u) :
    bracketDepth u = 0 := by
  have hcomma : (Lexeme.mark ",").balance = 0 := rfl
  have hopen : (Lexeme.mark "(").balance = 1 := rfl
  have hclose : (Lexeme.mark ")").balance = -1 := rfl
  have hleft : (Lexeme.mark "\x7b").balance = 1 := rfl
  have hright : (Lexeme.mark "\x7d").balance = -1 := rfl
  have hword : ∀ k, (Lexeme.keyword k).balance = 0 := fun _ => rfl
  have hconsequent : ∀ {y v : List Lexeme}, Consequent y v → ExprLang.bracketDepth y = 0 →
      ExprLang.bracketDepth v = 0 := by
    rintro y v (rfl | ⟨rfl, -⟩) hy
    · simp [hy, hword]
    · exact hy
  induction h with
  | operand _ ih | plain _ ih => exact ih
  | operation _ _ _ ihu ihv => simp [ihu, ihv, Lexeme.balance]
  | call _ _ hw ihu ih => simp [ihu, hw.bracketDepth hcomma ih, hopen, hclose]
  | group _ ih => simp [ih, hopen, hclose]
  | block _ hw ih => simp [hw.bracketDepth hcomma ih, hleft, hright]
  | cond _ _ hv ihc ihy => simp [ihc, hconsequent hv ihy, hword]
  | condElse _ _ hv _ ihc ihy ihn => simp [ihc, hconsequent hv ihy, ihn, hword]
  | yes | no | number | text | name => rfl
  | @function word params w b _ hw _ ih =>
    have hparams : ∀ u ∈ params.map fun n => [Lexeme.name n], ExprLang.bracketDepth u = 0 := by
      intro u hu
      obtain ⟨n, -, rfl⟩ := List.mem_map.1 hu
      rfl
    simp [ih, hw.bracketDepth hcomma hparams, hopen, hclose, hword]

theorem IsProgram.bracketDepth {w : List Lexeme} (h : IsProgram w) : bracketDepth w = 0 := by
  obtain ⟨vs, hvs, hw⟩ := h
  exact hw.bracketDepth rfl fun v hv => (hvs v hv).bracketDepth

theorem IsLayout.follow {s r : List Char} (h : IsLayout s r) (hr : Solid r) (k : Int) :
    ∃ b, s.foldl step ⟨.code, k⟩ = ⟨layoutMode b, k⟩ ∧ (r ≠ [] → b = false) := by
  obtain ⟨b, hfold, hb⟩ := foldl_layout (b := false) (s ++ r) k
  rw [h.layoutLength_append hr, List.take_left] at hfold
  rw [h.layoutLength_append hr, List.drop_left] at hb
  exact ⟨b, hfold, hb⟩

namespace Munch
variable {cs s : List Char} {gs : List Segment}

theorem of_nil (h : Munch [] gs s []) : gs = [] ∧ s = [] := by
  have hnil : Munch [] [] [] [] := .ended (.spacing .nil) nofun
  obtain ⟨hgs, hs, -⟩ := h.unique hnil
  exact ⟨hgs, hs⟩

/-- What following a text comes to. Either its last lexeme is a string that is not ended, or no
lexeme is, and then the brackets are those of the lexemes. -/
theorem follow (h : Munch cs gs s []) (k : Int) :
    (∃ gs' g, gs = gs' ++ [g] ∧ s = [] ∧ Unclosed g.written ∧
      (cs.foldl step ⟨.code, k⟩).inString) ∨
    ((∀ g ∈ gs, ¬ Unclosed g.written) ∧
      ∃ b, cs.foldl step ⟨.code, k⟩ =
        ⟨layoutMode b, k + bracketDepth (gs.map Segment.lexeme)⟩) := by
  generalize hr : [] = r at h
  induction h generalizing k with
  | @ended s r hs hstray =>
    subst hr
    obtain ⟨b, hfold, -⟩ := hs.follow nofun k
    exact .inr ⟨by simp, b, by simpa using hfold⟩
  | @lexeme g cs gs s r hs hl h ih =>
    obtain ⟨b, hfold, hb⟩ := hs.follow hl.solid k
    obtain ⟨c, cs', hwritten, -⟩ := hl.eq_cons
    obtain rfl := hb (by simp [hwritten])
    have hfold' : (g.layout ++ (g.written ++ cs)).foldl step ⟨.code, k⟩ =
        cs.foldl step (g.written.foldl step ⟨.code, k⟩) := by
      rw [List.foldl_append, List.foldl_append, hfold]
      rfl
    rcases hl.follow with hclosed | ⟨rfl, hopen⟩
    · rw [hfold', hclosed]
      have hg : ¬ Unclosed g.written := by
        intro hopen
        have hin := hopen.inString k
        rw [hclosed] at hin
        cases hin
      rcases ih (k + g.lexeme.balance) hr with ⟨gs', g', rfl, hs, hopen, hin⟩ | ⟨hgs, b, hrest⟩
      · exact .inl ⟨g :: gs', g', rfl, hs, hopen, hin⟩
      · refine .inr ⟨List.forall_mem_cons.2 ⟨hg, hgs⟩, b, ?_⟩
        rw [hrest, List.map_cons, bracketDepth_cons, Int.add_assoc]
    · subst hr
      obtain ⟨rfl, rfl⟩ := h.of_nil
      exact .inl ⟨[], g, rfl, rfl, hopen, by rw [hfold']; exact hopen.inString k⟩

end Munch

/-- The last lexeme of a text is a string that nothing ends but the text. -/
def EndsInString (cs : List Char) : Prop :=
  ∃ gs g, Munch cs (gs ++ [g]) [] [] ∧ Unclosed g.written

/-- Over a text that can be cut into lexemes, the shell and the lexemes agree on strings, and
outside of strings on brackets. -/
theorem Munch.scan {cs s : List Char} {gs : List Segment} (h : Munch cs gs s []) :
    EndsInString cs ∧ (Continuation.scan cs).inString ∨
    ¬ EndsInString cs ∧ (Continuation.scan cs).inString = false ∧
      (Continuation.scan cs).depth = bracketDepth (gs.map Segment.lexeme) := by
  rcases h.follow 0 with ⟨gs', g, rfl, rfl, hopen, hin⟩ | ⟨hclosed, b, hfold⟩
  · exact .inl ⟨⟨gs', g, h, hopen⟩, hin⟩
  · refine .inr ⟨?_, ?_, ?_⟩
    · rintro ⟨gs', g, h', hopen⟩
      obtain ⟨rfl, -⟩ := h.unique h'
      exact hclosed g (by simp) hopen
    · rw [Continuation.scan, start, hfold]
      cases b <;> rfl
    · rw [Continuation.scan, start, hfold]
      exact Int.zero_add _

theorem exists_munch_of_tokenize {text : String} {ts : List Token} (h : tokenize text = .ok ts) :
    ∃ gs s, Munch text.toList gs s [] ∧ ts.map Token.lexeme = gs.map Segment.lexeme := by
  obtain ⟨gs, s, r, hcut⟩ := exists_munch text.toList
  rw [hcut.tokenize_eq] at h
  cases r with
  | nil =>
    cases h
    exact ⟨gs, s, hcut, Segment.lexemes_tokens [] gs⟩
  | cons c r => cases h

theorem exists_munch_of_parse {limit : Nat} {text : String} {tree : Expr}
    (h : parse limit text = .ok tree) :
    ∃ gs s, Munch text.toList gs s [] ∧ IsProgram (gs.map Segment.lexeme) := by
  obtain ⟨ts, e, ps, hs, he, hps, -⟩ := reads_of_parse h
  have htokens : tokenize text = .ok ts := by rw [hs.tokenize_eq, he]
  obtain ⟨gs, s, hcut, hlexemes⟩ := exists_munch_of_tokenize htokens
  exact ⟨gs, s, hcut, hlexemes ▸ hps.isProgram⟩

/-- The shell asks for another line behind a text that parses just if the text ends inside of a
string that is not ended. Where it asks for one because of a bracket outside of strings, the text
does not parse. -/
theorem complete_text_is_not_held_back (limit : Nat) (text : String) :
    (∀ tree, parse limit text = .ok tree → (continues text ↔ EndsInString text.toList)) ∧
    ((Continuation.scan text.toList).inString = false →
      0 < (Continuation.scan text.toList).depth → ∃ err, parse limit text = .error err) := by
  have hparsed : ∀ tree, parse limit text = .ok tree →
      EndsInString text.toList ∧ (Continuation.scan text.toList).inString ∨
      ¬ EndsInString text.toList ∧ (Continuation.scan text.toList).inString = false ∧
        (Continuation.scan text.toList).depth = 0 := by
    intro tree htree
    obtain ⟨gs, s, hcut, hprogram⟩ := exists_munch_of_parse htree
    have hscan := hcut.scan
    rwa [hprogram.bracketDepth] at hscan
  constructor
  · intro tree htree
    rcases hparsed tree htree with ⟨hends, hin⟩ | ⟨hends, hin, hdepth⟩
    · simp [continues, hin, hends]
    · simp [continues, hin, hdepth, hends]
  · intro hin hdepth
    cases htree : parse limit text with
    | error err => exact ⟨err, rfl⟩
    | ok tree =>
      rcases hparsed tree htree with ⟨-, hin'⟩ | ⟨-, -, hdepth'⟩
      · rw [hin] at hin'
        cases hin'
      · omega

/-- A bracket in a string that is not ended does not count, and neither does the one that is to
close a bracket and stands in a string. -/
theorem complete_text_is_not_held_back_string :
    (parse 40 "x = \"(").isOk ∧ continues "x = \"(" ∧ EndsInString "x = \"(".toList ∧
    (Continuation.scan "f(\")\"".toList).inString = false ∧
    0 < (Continuation.scan "f(\")\"".toList).depth ∧ ∃ err, parse 40 "f(\")\"" = .error err := by
  have hparse : (parse 40 "x = \"(").isOk := by decide +kernel
  have hcontinues : continues "x = \"(" := by decide +kernel
  have hin : (Continuation.scan "f(\")\"".toList).inString = false := by decide +kernel
  have hdepth : 0 < (Continuation.scan "f(\")\"".toList).depth := by decide +kernel
  refine ⟨hparse, hcontinues, ?_, hin, hdepth, (complete_text_is_not_held_back 40 _).2 hin hdepth⟩
  cases htree : parse 40 "x = \"(" with
  | error err =>
    rw [htree] at hparse
    cases hparse
  | ok tree => exact ((complete_text_is_not_held_back 40 _).1 tree htree).1 hcontinues

def Lexeme.opensBracket : Lexeme → Bool
  | .mark m => ["(", "\x7b", "["].contains m
  | _ => false

def Lexeme.closesBracket : Lexeme → Bool
  | .mark m => [")", "\x7d", "]"].contains m
  | _ => false

theorem Lexeme.balance_eq (l : Lexeme) :
    l.balance = (if l.opensBracket then 1 else 0) - if l.closesBracket then 1 else 0 := by
  cases l with
  | mark m =>
    have hapart : m ∈ ["(", "\x7b", "["] → m ∉ [")", "\x7d", "]"] := by
      simp only [List.mem_cons, List.not_mem_nil, or_false]
      rintro (rfl | rfl | rfl) <;> decide
    simp only [balance, opensBracket, closesBracket, List.contains_eq_mem, decide_eq_true_eq]
    by_cases hopen : m ∈ ["(", "\x7b", "["]
    · simp only [hopen, hapart hopen, if_true, if_false]
      rfl
    · by_cases hclose : m ∈ [")", "\x7d", "]"]
      · simp only [hopen, hclose, if_true, if_false]
        rfl
      · simp only [hopen, hclose, if_false]
        rfl
  | _ => rfl

theorem bracketDepth_eq_count (ls : List Lexeme) :
    bracketDepth ls = ls.countP opensBracket - ls.countP closesBracket := by
  induction ls with
  | nil => rfl
  | cons l ls ih =>
    rw [bracketDepth_cons, ih, Lexeme.balance_eq, List.countP_cons, List.countP_cons]
    split <;> split <;> omega

/-- The shell asks for another line behind a text that can be cut into lexemes just if the text ends
inside of a string that is not ended, or more brackets are opened than closed by its marks. -/
theorem shell_follows_lexemes (text : String) (ts : List Token) (h : tokenize text = .ok ts) :
    continues text ↔ EndsInString text.toList ∨
      (ts.map Token.lexeme).countP closesBracket < (ts.map Token.lexeme).countP opensBracket := by
  obtain ⟨gs, s, hcut, hlexemes⟩ := exists_munch_of_tokenize h
  have hcount := bracketDepth_eq_count (gs.map Segment.lexeme)
  rw [hlexemes]
  rcases hcut.scan with ⟨hends, hin⟩ | ⟨hends, hin, hdepth⟩
  · simp [continues, hin, hends]
  · simp only [continues, hin, hdepth, hends, Bool.false_or, decide_eq_true_eq, false_or]
    omega

/-- Brackets in a string and in a comment do not count, and neither does it matter that a bracket is
closed by one of another kind. -/
theorem shell_follows_lexemes_comment :
    (∃ ts, tokenize "f(\"\\\"(\") # (" = .ok ts ∧ ¬ EndsInString "f(\"\\\"(\") # (".toList ∧
      (ts.map Token.lexeme).countP opensBracket ≤ (ts.map Token.lexeme).countP closesBracket) ∧
    ∃ ts, tokenize "f([a) # )" = .ok ts ∧ continues "f([a) # )" ∧
      (EndsInString "f([a) # )".toList ∨ (ts.map Token.lexeme).countP closesBracket <
        (ts.map Token.lexeme).countP opensBracket) := by
  obtain ⟨ts, hts⟩ := exists_of_isOk (x := tokenize "f(\"\\\"(\") # (") (by decide +kernel)
  obtain ⟨ts', hts'⟩ := exists_of_isOk (x := tokenize "f([a) # )") (by decide +kernel)
  have hno : ¬ continues "f(\"\\\"(\") # (" := by decide +kernel
  have hyes : continues "f([a) # )" := by decide +kernel
  rw [shell_follows_lexemes _ ts hts, not_or, Nat.not_lt] at hno
  exact ⟨⟨ts, hts, hno⟩, ts', hts', hyes, (shell_follows_lexemes _ ts' hts').1 hyes⟩

end ExprLang
