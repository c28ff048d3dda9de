import ExprLang.Text.Blank
import ExprLang.Proofs.Lexing

/-!
# Blanks beside line breaks

A blank that stands beside a line break, or at the very beginning of a text, can be erased. Outside
of strings the lexemes stay as they are; inside of a string it is one character that is lost
(`Lexed.erase`). Trimming lines is erasing such blanks one after another (`Tidied`), and it leaves
the lexemes alone just if none of them stands inside of a string.
-/

namespace ExprLang
open Lexeme

namespace Continuation

/-- The mode behind the character `c`. Brackets do not matter for it. -/
def Mode.next (m : Mode) (c : Char) : Mode := (step ⟨m, 0⟩ c).mode

/-- The mode behind the characters `cs`. -/
def Mode.after (m : Mode) (cs : List Char) : Mode := cs.foldl next m

def Mode.inString : Mode → Bool
  | string | escape => true
  | code | comment => false

theorem mode_step (s : State) (c : Char) : (step s c).mode = s.mode.next c := by
  obtain ⟨m, k⟩ := s
  cases m <;> simp [Mode.next, step, apply_ite State.mode]

theorem mode_foldl (s : State) (cs : List Char) : (cs.foldl step s).mode = s.mode.after cs := by
  induction cs generalizing s with
  | nil => rfl
  | cons c cs ih =>
    rw [List.foldl_cons, ih, mode_step]
    rfl

theorem inString_foldl (s : State) (cs : List Char) :
    (cs.foldl step s).inString = (s.mode.after cs).inString := by
  rw [← mode_foldl]
  show (_ == _ || _ == _) = _
  cases (cs.foldl step s).mode <;> rfl

theorem Mode.after_append (m : Mode) (cs ds : List Char) :
    m.after (cs ++ ds) = (m.after cs).after ds :=
  List.foldl_append

end Continuation

open Continuation

/-- Whether a text ends inside of a string. -/
def insideString (cs : List Char) : Bool := (Continuation.scan cs).inString

theorem insideString_eq (cs : List Char) : insideString cs = (Mode.code.after cs).inString :=
  inString_foldl start cs

/-- The visible characters of ASCII. -/
theorem isBlank_eq_false {c : Char} (h₁ : 33 ≤ c.toNat) (h₂ : c.toNat ≤ 126) :
    Text.isBlank c = false := by
  rw [Bool.eq_false_iff]
  intro hc
  simp only [Text.isBlank, Bool.or_eq_true, Bool.and_eq_true, decide_eq_true_eq, beq_iff_eq] at hc
  omega

theorem isBlank_of_isDigit {c : Char} (h : c.isDigit) : Text.isBlank c = false := by
  delta Char.isDigit at h
  simp only [Bool.and_eq_true, decide_eq_true_eq, ge_iff_le, UInt32.le_iff_toNat_le] at h
  exact isBlank_eq_false (Nat.le_trans (by decide) h.1) (Nat.le_trans h.2 (by decide))

theorem isBlank_of_isNameStart {c : Char} (h : isNameStart c) : Text.isBlank c = false := by
  simp only [isNameStart, Bool.or_eq_true, beq_iff_eq] at h
  rcases h with (h | rfl) | rfl
  · delta Char.isAlpha Char.isUpper Char.isLower at h
    simp only [Bool.or_eq_true, Bool.and_eq_true, decide_eq_true_eq, ge_iff_le,
      UInt32.le_iff_toNat_le] at h
    rcases h with h | h
    · exact isBlank_eq_false (Nat.le_trans (by decide) h.1) (Nat.le_trans h.2 (by decide))
    · exact isBlank_eq_false (Nat.le_trans (by decide) h.1) (Nat.le_trans h.2 (by decide))
  · rfl
  · rfl

theorem isBlank_of_isNamePart {c : Char} (h : isNamePart c) : Text.isBlank c = false := by
  simp only [isNamePart, Bool.or_eq_true, List.contains_eq_mem, decide_eq_true_eq, List.mem_cons,
    List.not_mem_nil, or_false] at h
  rcases h with (h | h) | rfl | rfl | rfl | rfl | rfl | rfl
  · exact isBlank_of_isNameStart h
  · exact isBlank_of_isDigit h
  all_goals rfl

theorem isBlank_of_isMark {c : Char} (h : isMark c) : Text.isBlank c = false := by
  simp only [isMark, List.contains_eq_mem, decide_eq_true_eq, List.mem_cons, List.not_mem_nil,
    or_false] at h
  rcases h with rfl | rfl | rfl | rfl | rfl | rfl | rfl | rfl <;> rfl

theorem isBlank_of_isOperatorPart {c : Char} (h : isOperatorPart c) : Text.isBlank c = false := by
  simp only [isOperatorPart, List.contains_eq_mem, decide_eq_true_eq, List.mem_cons,
    List.not_mem_nil, or_false] at h
  rcases h with rfl | rfl | rfl | rfl | rfl | rfl | rfl | rfl | rfl | rfl | rfl <;> rfl

theorem isBlank_of_isNumeral {cs : List Char} (h : IsNumeral cs) :
    ∀ c ∈ cs, Text.isBlank c = false := by
  obtain ⟨whole, -, hwhole, rfl | ⟨fraction, hfraction, rfl⟩⟩ := h
  · exact fun c hc => isBlank_of_isDigit (hwhole c hc)
  · intro c hc
    rw [List.mem_append, List.mem_cons] at hc
    rcases hc with hc | rfl | hc
    · exact isBlank_of_isDigit (hwhole c hc)
    · rfl
    · exact isBlank_of_isDigit (hfraction c hc)

theorem not_starts_of_isBlank {c : Char} (h : Text.isBlank c) : ¬ Lexeme.Starts c := by
  rintro (rfl | hc | hc | hc | hc)
  · cases h
  · exact ne_of_class h (isBlank_of_isDigit hc) rfl
  · exact ne_of_class h (isBlank_of_isNameStart hc) rfl
  · exact ne_of_class h (isBlank_of_isMark hc) rfl
  · exact ne_of_class h (isBlank_of_isOperatorPart hc) rfl

/-- A line of the text begins or ends between `a` and `b`. -/
def AtEdge (a b : List Char) : Prop := a = [] ∨ a.getLast? = some '\n' ∨ b.head? = some '\n'

theorem AtEdge.of_append {p a b : List Char} (h : AtEdge (p ++ a) b) : AtEdge a b := by
  by_cases ha : a = []
  · exact .inl ha
  · rcases h with h | h | h
    · exact absurd (List.append_eq_nil_iff.1 h).2 ha
    · rw [List.getLast?_append, List.getLast?_eq_some_getLast ha, Option.some_or] at h
      rw [← List.getLast?_eq_some_getLast ha] at h
      exact .inr (.inl h)
    · exact .inr (.inr h)

theorem AtEdge.of_append_cons {a b r : List Char} {d : Char} (h : AtEdge a (b ++ d :: r))
    (hd : d ≠ '\n') : AtEdge a b := by
  rcases h with h | h | h
  · exact .inl h
  · exact .inr (.inl h)
  · cases b with
    | nil => exact absurd (Option.some.inj h) hd
    | cons e b => exact .inr (.inr h)

/-- How many characters the texts of string lexemes have. -/
def Lexeme.width : Lexeme → Nat
  | .text s => s.toList.length
  | _ => 0

namespace Lexeme
variable {u w r value : List Char} {c : Char} {l : Lexeme}

/-- If a backslash takes the blank, it takes the line break behind it instead. -/
theorem Escapes.erase (h : Escapes (u ++ c :: w) value) (hc : Text.isBlank c) (hedge : AtEdge u w) :
    ∃ value', Escapes (u ++ w) value' ∧ value'.length + 1 = value.length := by
  generalize hbody : u ++ c :: w = body at h
  induction h generalizing u with
  | nil => simp at hbody
  | @plain d body value hq hb h ih =>
    cases u with
    | nil =>
      obtain ⟨-, rfl⟩ := List.cons.inj hbody
      exact ⟨value, h, rfl⟩
    | cons d' u =>
      simp only [List.cons_append, List.cons.injEq] at hbody
      obtain ⟨rfl, hbody⟩ := hbody
      obtain ⟨value', h', hlength⟩ := ih (hedge.of_append (p := [d'])) hbody
      exact ⟨d' :: value', .plain hq hb h', congrArg (· + 1) hlength⟩
  | @escaped d body value h ih =>
    match u with
    | [] =>
      obtain ⟨rfl, -⟩ := List.cons.inj hbody
      cases hc
    | [b] =>
      simp only [List.cons_append, List.nil_append, List.cons.injEq] at hbody
      obtain ⟨rfl, rfl, rfl⟩ := hbody
      rcases hedge with hedge | hedge | hedge
      · cases hedge
      · cases hedge
      · obtain ⟨w, rfl⟩ := List.head?_eq_some_iff.1 hedge
        cases h with
        | plain _ _ h => exact ⟨_, .escaped h, rfl⟩
    | b :: d' :: u =>
      simp only [List.cons_append, List.cons.injEq] at hbody
      obtain ⟨rfl, rfl, hbody⟩ := hbody
      obtain ⟨value', h', hlength⟩ := ih (hedge.of_append (p := ['\\', d'])) hbody
      exact ⟨d' :: value', .escaped h', congrArg (· + 1) hlength⟩

theorem Escapes.inString (h : Escapes (u ++ w) value) : (Mode.string.after u).inString := by
  generalize hbody : u ++ w = body at h
  induction h generalizing u with
  | nil =>
    rw [(List.append_eq_nil_iff.1 hbody).1]
    rfl
  | @plain d body value hq hb h ih =>
    cases u with
    | nil => rfl
    | cons d' u =>
      simp only [List.cons_append, List.cons.injEq] at hbody
      obtain ⟨rfl, hbody⟩ := hbody
      have hnext : Mode.string.next d' = .string := by
        simp [Mode.next, step_string_of_ne hq hb]
      rw [Mode.after, List.foldl_cons, hnext]
      exact ih hbody
  | @escaped d body value h ih =>
    match u with
    | [] => rfl
    | [b] =>
      simp only [List.cons_append, List.cons.injEq] at hbody
      rw [hbody.1]
      rfl
    | b :: d' :: u =>
      simp only [List.cons_append, List.cons.injEq] at hbody
      obtain ⟨rfl, rfl, hbody⟩ := hbody
      show (Mode.string.after u).inString
      exact ih hbody

/-- There are blanks in strings only. -/
theorem Maximal.isBlank_of_ne_text (h : Maximal l w r) (hl : ∀ s, l ≠ .text s) :
    ∀ d ∈ w, Text.isBlank d = false := by
  intro d hd
  cases h with
  | number h => exact isBlank_of_isNumeral h d hd
  | keyword hk => exact isBlank_of_isNamePart ((isWord_of_mem_keywords hk).isNamePart d hd)
  | name hn => exact isBlank_of_isNamePart (hn.1.isNamePart d hd)
  | mark hc =>
    rw [List.mem_singleton.1 hd]
    exact isBlank_of_isMark hc
  | operator _ hall => exact isBlank_of_isOperatorPart (hall d hd)
  | text | openText | openEscape => exact absurd rfl (hl _)

/-- A lexeme that does not reach to the end of the text ends in a character that is not blank. -/
theorem Maximal.getLast (h : Maximal l w r) (hr : r ≠ []) {d : Char} (hd : w.getLast? = some d) :
    Text.isBlank d = false := by
  by_cases hl : ∃ s, l = .text s
  · obtain ⟨s, rfl⟩ := hl
    cases h with
    | text =>
      rw [← List.cons_append, List.getLast?_concat] at hd
      cases hd
      rfl
    | openText | openEscape => exact absurd rfl hr
  · exact h.isBlank_of_ne_text (not_exists.1 hl) d (List.mem_of_getLast? hd)

theorem Stops.of_head {p : Char → Bool} {r' : List Char} (h : Stops p r) (hp : p '\n' = false)
    (hhead : r'.head? = r.head? ∨ r'.head? = some '\n') : Stops p r' := by
  intro d hd
  rcases hhead with hhead | hhead
  · exact h d (hhead ▸ hd)
  · rw [hhead] at hd
    cases hd
    exact hp

/-- It is as long as it can be also with a line break behind it. -/
theorem Maximal.of_head {r' : List Char} (h : Maximal l w r) (hr : r ≠ [])
    (hhead : r'.head? = r.head? ∨ r'.head? = some '\n') : Maximal l w r' := by
  cases h with
  | number h hstops hpoint =>
    exact .number h (hstops.of_head rfl hhead) fun hno => (hpoint hno).of_head rfl hhead
  | keyword hk hstops => exact .keyword hk (hstops.of_head rfl hhead)
  | name hn hstops => exact .name hn (hstops.of_head rfl hhead)
  | mark hc => exact .mark hc
  | operator hne hall hstops => exact .operator hne hall (hstops.of_head rfl hhead)
  | text h => exact .text h
  | openText | openEscape => exact absurd rfl hr

/-- A lexeme that does not reach to the end of the text leaves no string open. -/
theorem Maximal.after (h : Maximal l w r) (hr : r ≠ []) : Mode.code.after w = .code := by
  rcases h.follow with hfollow | ⟨hnil, -⟩
  · have hmode := congrArg State.mode (hfollow 0)
    rwa [mode_foldl] at hmode
  · exact absurd hnil hr

theorem of_concat_eq {d : Char} (h : u ++ [d] = w ++ c :: r) (hd : Text.isBlank d = false)
    (hc : Text.isBlank c) : ∃ r', r = r' ++ [d] ∧ u = w ++ c :: r' := by
  rcases List.eq_nil_or_concat r with rfl | ⟨r', e, rfl⟩
  · rw [List.append_inj_right' h rfl |> List.singleton_inj.1, hc] at hd
    cases hd
  · rw [List.concat_eq_append, ← List.cons_append, ← List.append_assoc] at h
    obtain ⟨rfl, he⟩ := List.append_inj' h rfl
    obtain rfl := List.singleton_inj.1 he
    exact ⟨r', List.concat_eq_append, rfl⟩

/-- Only in a string is there a blank behind the first character, and without it the string is one
character shorter. -/
theorem Maximal.erase (h : Maximal l (u ++ c :: w) r) (hu : u ≠ []) (hc : Text.isBlank c)
    (hedge : AtEdge u (w ++ r)) :
    ∃ l', Maximal l' (u ++ w) r ∧ l'.width + 1 = l.width ∧ (Mode.code.after u).inString := by
  obtain ⟨s, rfl⟩ : ∃ s, l = .text s := by
    refine Classical.byContradiction fun hl => ?_
    rw [h.isBlank_of_ne_text (not_exists.1 hl) c (by simp)] at hc
    cases hc
  obtain ⟨q, u, rfl⟩ := List.exists_cons_of_ne_nil hu
  generalize hcs : q :: u ++ c :: w = cs at h
  cases h with
  | @text body value _ h =>
    simp only [List.cons_append, List.cons.injEq] at hcs
    obtain ⟨rfl, hcs⟩ := hcs
    obtain ⟨w, rfl, rfl⟩ := of_concat_eq hcs.symm rfl hc
    rw [List.append_assoc, List.singleton_append] at hedge
    have hedge' : AtEdge u w := (hedge.of_append (p := ['"'])).of_append_cons (by decide)
    obtain ⟨value', h', hlength⟩ := h.erase hc hedge'
    refine ⟨.text (String.ofList value'), ?_, ?_, h.inString⟩
    · rw [List.cons_append, ← List.append_assoc]
      exact .text h'
    · simpa [width] using hlength
  | @openText body value h =>
    simp only [List.cons_append, List.cons.injEq] at hcs
    obtain ⟨rfl, rfl⟩ := hcs
    rw [List.append_nil] at hedge
    obtain ⟨value', h', hlength⟩ := h.erase hc (hedge.of_append (p := ['"']))
    refine ⟨.text (String.ofList value'), .openText h', ?_, h.inString⟩
    simpa [width] using hlength
  | @openEscape body value h =>
    simp only [List.cons_append, List.cons.injEq] at hcs
    obtain ⟨rfl, hcs⟩ := hcs
    obtain ⟨w, rfl, rfl⟩ := of_concat_eq hcs.symm rfl hc
    rw [List.append_nil] at hedge
    have hedge' : AtEdge u w := (hedge.of_append (p := ['"'])).of_append_cons (by decide)
    obtain ⟨value', h', hlength⟩ := h.erase hc hedge'
    refine ⟨.text (String.ofList value'), ?_, ?_, h.inString⟩
    · rw [List.cons_append, ← List.append_assoc]
      exact .openEscape h'
    · simpa [width] using hlength

end Lexeme

theorem layoutLength_le_append (b : Bool) (cs ds : List Char) :
    layoutLength b cs ≤ layoutLength b (cs ++ ds) := by
  induction cs generalizing b with
  | nil => exact Nat.zero_le _
  | cons c cs ih =>
    cases b with
    | true => exact Nat.succ_le_succ (ih _)
    | false =>
      simp only [List.cons_append, layoutLength]
      split
      · exact Nat.succ_le_succ (ih _)
      split
      · exact Nat.succ_le_succ (ih _)
      · exact Nat.le_refl _

/-- A text of layout only leaves no string open. -/
theorem insideString_of_skipLayout {cs : List Char} (h : skipLayout cs = []) :
    insideString cs = false := by
  obtain ⟨b, hfold, -⟩ := foldl_layout (b := false) cs 0
  rw [List.take_of_length_le (List.drop_eq_nil_iff.1 h)] at hfold
  rw [insideString, Continuation.scan]
  show (cs.foldl step ⟨layoutMode false, 0⟩).inString = false
  rw [hfold]
  cases b <;> rfl

theorem skipLayout_concat {cs : List Char} (h : skipLayout cs = []) (c : Char) :
    skipLayout (cs ++ [c]) = [] ∨ skipLayout (cs ++ [c]) = [c] := by
  have hle := layoutLength_le_append false cs [c]
  rw [skipLayout, List.drop_eq_nil_iff] at h
  rw [skipLayout, List.drop_append, List.drop_of_length_le (Nat.le_trans h hle), List.nil_append]
  cases layoutLength false (cs ++ [c]) - cs.length with
  | zero => exact .inr rfl
  | succ n => exact .inl (List.drop_nil ..)

theorem Lexed.scan_ne_stray {cs : List Char} {ls : List Lexeme} (h : Lexed cs ls) (c : Char) :
    Lexeme.scan (skipLayout cs) ≠ .stray c := by
  intro hscan
  cases h with
  | done hs => cases hs.symm.trans hscan
  | lexeme hs => cases hs.symm.trans hscan

/-- A blank behind layout is layout, if the text has lexemes at all. -/
theorem Lexed.skipLayout_concat_eq_nil {a b : List Char} {c : Char} {ls : List Lexeme}
    (h : Lexed (a ++ c :: b) ls) (ha : skipLayout a = []) (hc : Text.isBlank c) :
    skipLayout (a ++ [c]) = [] := by
  rcases skipLayout_concat ha c with hskip | hskip
  · exact hskip
  · refine absurd ?_ (h.scan_ne_stray c)
    rw [List.append_cons, skipLayout_append_of_ne_nil (by simp [hskip]), hskip]
    exact scan_stray (not_starts_of_isBlank hc) b

theorem skipLayout_cons {c : Char} (hc : Text.isBlank c) (h : skipLayout [c] = [])
    (cs : List Char) : skipLayout (c :: cs) = skipLayout cs := by
  have hspace : isSpace c := by
    have hne : c ≠ '#' := ne_of_class hc rfl
    by_cases hs : isSpace c
    · exact hs
    · simp [skipLayout, layoutLength, hs, hne] at h
  simp [skipLayout, layoutLength, hspace]

theorem skipLayout_erase {a b : List Char} {c : Char} (hc : Text.isBlank c)
    (ha : skipLayout a = []) (hac : skipLayout (a ++ [c]) = []) (hedge : AtEdge a b) :
    skipLayout (a ++ c :: b) = skipLayout (a ++ b) := by
  rcases hedge with rfl | hlast | hhead
  · exact skipLayout_cons hc hac b
  · obtain ⟨a, rfl⟩ := List.getLast?_eq_some_iff.1 hlast
    have ha' : skipLayout a = [] := by
      refine Decidable.byContradiction fun hne => ?_
      rw [skipLayout_append_of_ne_nil hne] at ha
      cases (List.append_eq_nil_iff.1 ha).2
    simp only [List.append_assoc, List.singleton_append] at hac ⊢
    rw [skipLayout_append_newline ha'] at hac
    rw [skipLayout_append_newline ha', skipLayout_append_newline ha', skipLayout_cons hc hac]
  · obtain ⟨b, rfl⟩ := List.head?_eq_some_iff.1 hhead
    rw [List.append_cons, skipLayout_append_newline hac, skipLayout_append_newline ha]

/-! ### Erasing one blank -/

/-- How many characters there are in strings. -/
def widths : List Lexeme → Nat
  | [] => 0
  | l :: ls => l.width + widths ls

theorem Lexed.unique {cs : List Char} {ls ls' : List Lexeme} (h : Lexed cs ls)
    (h' : Lexed cs ls') : ls = ls' := by
  induction h generalizing ls' with
  | done hs =>
    cases h' with
    | done => rfl
    | lexeme hs' => cases hs.symm.trans hs'
  | lexeme hs _ ih =>
    cases h' with
    | done hs' => cases hs.symm.trans hs'
    | lexeme hs' h' =>
      cases hs.symm.trans hs'
      rw [ih h']

theorem Lexed.of_maximal {cs w r : List Char} {l : Lexeme} {ls : List Lexeme}
    (hskip : skipLayout cs = w ++ r) (hl : Maximal l w r) (h : Lexed r ls) :
    Lexed cs (l :: ls) := by
  refine .lexeme (hskip ▸ hl.scan) ?_
  rw [hskip, List.drop_left]
  exact h

theorem split_at_cons {q b w r : List Char} {c : Char} (h : q ++ c :: b = w ++ r) :
    (∃ q', q = w ++ q' ∧ r = q' ++ c :: b) ∨ ∃ w', w = q ++ c :: w' ∧ b = w' ++ r := by
  rcases List.append_eq_append_iff.1 h with ⟨w', rfl, hw'⟩ | ⟨q', rfl, rfl⟩
  · cases w' with
    | nil => exact .inl ⟨[], by simp, hw'.symm⟩
    | cons d w' =>
      simp only [List.cons_append, List.cons.injEq] at hw'
      obtain ⟨rfl, rfl⟩ := hw'
      exact .inr ⟨w', rfl, rfl⟩
  · exact .inl ⟨q', rfl, rfl⟩

theorem Lexed.erase_layout {a b : List Char} {c : Char} {ls : List Lexeme}
    (h : Lexed (a ++ c :: b) ls) (hc : Text.isBlank c) (hedge : AtEdge a b)
    (ha : skipLayout a = []) : Lexed (a ++ b) ls := by
  have hac := h.skipLayout_concat_eq_nil ha hc
  exact h.of_skipLayout (skipLayout_erase hc ha hac hedge).symm

theorem insideString_eq_after {a : List Char} (ha : skipLayout a ≠ []) :
    insideString a = (Mode.code.after (skipLayout a)).inString := by
  rw [insideString, Continuation.scan, start, foldl_skipLayout ha, inString_foldl]

/-- The lexeme that a text begins with is still there if the blank stands behind it. -/
theorem Lexeme.Maximal.erase_behind {l : Lexeme} {w q b : List Char} {c : Char}
    (h : Maximal l w (q ++ c :: b)) (hedge : AtEdge (w ++ q) b) : Maximal l w (q ++ b) := by
  refine h.of_head (by simp) ?_
  cases q with
  | cons d q => exact .inl rfl
  | nil =>
    right
    obtain ⟨d, w', rfl, -⟩ := h.eq_cons
    rw [List.append_nil] at hedge
    rcases hedge with hedge | hedge | hedge
    · cases hedge
    · cases h.getLast (by simp) hedge
    · exact hedge

theorem Lexed.erase {a b : List Char} {c : Char} {ls : List Lexeme} (h : Lexed (a ++ c :: b) ls)
    (hc : Text.isBlank c) (hedge : AtEdge a b) :
    ∃ ls', Lexed (a ++ b) ls' ∧ widths ls' + (insideString a).toNat = widths ls ∧
      (insideString a = false → ls' = ls) := by
  generalize hcs : a ++ c :: b = cs at h
  induction h generalizing a with
  | @done cs hs =>
    subst hcs
    have ha : skipLayout a = [] := by
      refine Decidable.byContradiction fun hne => ?_
      rw [skipLayout_append_of_ne_nil hne] at hs
      cases (List.append_eq_nil_iff.1 (TokenStream.scan_nothing hs)).2
    rw [insideString_of_skipLayout ha]
    exact ⟨[], (Lexed.done hs).erase_layout hc hedge ha, rfl, fun _ => rfl⟩
  | @lexeme cs l n ls hs h ih =>
    subst hcs
    by_cases ha : skipLayout a = []
    · rw [insideString_of_skipLayout ha]
      exact ⟨l :: ls, (Lexed.lexeme hs h).erase_layout hc hedge ha, rfl, fun _ => rfl⟩
    have hedge' : AtEdge (skipLayout a) b := by
      rw [skipLayout]
      rw [← List.take_append_drop (layoutLength false a) a] at hedge
      exact hedge.of_append
    rw [insideString_eq_after ha]
    obtain ⟨w, r, hwr, rfl, hmax⟩ := maximal_of_scan hs
    rw [hwr, List.drop_left] at h ih
    rw [skipLayout_append_of_ne_nil ha] at hwr
    have hskip := skipLayout_append_of_ne_nil ha b
    generalize skipLayout a = q at ha hedge' hwr hskip
    -- The blank stands behind the first lexeme or in it.
    rcases split_at_cons hwr with ⟨q, rfl, rfl⟩ | ⟨w, rfl, rfl⟩
    · obtain ⟨ls', h', hwidth, heq⟩ := ih hedge'.of_append rfl
      have hl : Maximal l w (q ++ b) := hmax.erase_behind hedge'
      rw [Mode.after_append, hmax.after (by simp), ← insideString_eq]
      refine ⟨l :: ls', .of_maximal (by rw [hskip, List.append_assoc]) hl h', ?_, ?_⟩
      · rw [widths, widths]
        omega
      · intro hout
        rw [heq hout]
    · obtain ⟨l', hl, hwidth, hin⟩ := hmax.erase ha hc hedge'
      rw [hin]
      refine ⟨l' :: ls, .of_maximal (by rw [hskip, List.append_assoc]) hl h, ?_, ?_⟩
      · rw [widths, widths, Bool.toNat_true]
        omega
      · intro hout
        cases hout

/-- Blanks beside line breaks were erased, so that `ds` is left of a text, and `n` of them stood
inside of a string. -/
inductive Tidied : List Char → List Char → Nat → Prop
  | refl (cs : List Char) : Tidied cs cs 0
  | erase {a b ds : List Char} {c : Char} {n : Nat} (hc : Text.isBlank c) (hedge : AtEdge a b)
      (h : Tidied (a ++ b) ds n) : Tidied (a ++ c :: b) ds ((insideString a).toNat + n)

namespace Tidied
variable {cs ds es : List Char} {m n : Nat}

theorem trans (h : Tidied cs ds m) (h' : Tidied ds es n) : Tidied cs es (m + n) := by
  induction h with
  | refl => rwa [Nat.zero_add]
  | erase hc hedge h ih =>
    rw [Nat.add_assoc]
    exact .erase hc hedge (ih h')

theorem lexed {ls : List Lexeme} (h : Tidied cs ds n) (hls : Lexed cs ls) :
    ∃ ls', Lexed ds ls' ∧ widths ls' + n = widths ls ∧ (n = 0 → ls' = ls) := by
  induction h generalizing ls with
  | refl => exact ⟨ls, hls, rfl, fun _ => rfl⟩
  | erase hc hedge h ih =>
    obtain ⟨ls₁, h₁, hwidth₁, heq₁⟩ := hls.erase hc hedge
    obtain ⟨ls₂, h₂, hwidth₂, heq₂⟩ := ih h₁
    refine ⟨ls₂, h₂, by omega, fun hn => ?_⟩
    obtain ⟨hin, hn⟩ := Nat.add_eq_zero_iff.1 hn
    rw [heq₂ hn, heq₁ (Bool.toNat_eq_zero.1 hin)]

/-- The lexemes stay as they are just if nothing was erased inside of a string. -/
theorem lexed_iff {ls : List Lexeme} (h : Tidied cs ds n) (hls : Lexed cs ls) :
    Lexed ds ls ↔ n = 0 := by
  obtain ⟨ls', h', hwidth, heq⟩ := h.lexed hls
  constructor
  · intro hds
    rw [h'.unique hds] at hwidth
    omega
  · intro hn
    rwa [← heq hn]

end Tidied

/-! ### Lines -/

theorem inString_after_blanks (m : Mode) {bs : List Char} (hbs : ∀ c ∈ bs, Text.isBlank c) :
    (m.after bs).inString = m.inString := by
  induction bs generalizing m with
  | nil => rfl
  | cons c bs ih =>
    obtain ⟨hc, hbs⟩ := List.forall_mem_cons.1 hbs
    have hnext : (m.next c).inString = m.inString := by
      have hq : c ≠ '"' := ne_of_class hc rfl
      have hb : c ≠ '\\' := ne_of_class hc rfl
      have hh : c ≠ '#' := ne_of_class hc rfl
      cases m with
      | code => simp [Mode.next, step, hq, hh, apply_ite State.mode]
      | comment => by_cases hn : c = '\n' <;> simp [Mode.next, step, hn, Mode.inString]
      | string => simp [Mode.next, step, hq, hb]
      | escape => rfl
    exact (ih (m.next c) hbs).trans hnext

theorem insideString_append_blanks (cs : List Char) {bs : List Char}
    (hbs : ∀ c ∈ bs, Text.isBlank c) : insideString (cs ++ bs) = insideString cs := by
  rw [insideString_eq, insideString_eq, Mode.after_append, inString_after_blanks _ hbs]

/-- Blanks at the beginning of a line. -/
theorem Tidied.front {P bs : List Char} (hP : P = [] ∨ P.getLast? = some '\n')
    (hbs : ∀ c ∈ bs, Text.isBlank c) (Q : List Char) :
    Tidied (P ++ (bs ++ Q)) (P ++ Q) (bs.length * (insideString P).toNat) := by
  induction bs with
  | nil =>
    rw [List.length_nil, Nat.zero_mul]
    exact .refl _
  | cons c bs ih =>
    obtain ⟨hc, hbs⟩ := List.forall_mem_cons.1 hbs
    have hedge : AtEdge P (bs ++ Q) := hP.imp_right .inl
    rw [List.length_cons, Nat.succ_mul, Nat.add_comm]
    exact .erase hc hedge (ih hbs)

/-- Blanks at the end of a line. -/
theorem Tidied.back (P : List Char) {bs : List Char} (hbs : ∀ c ∈ bs, Text.isBlank c)
    (Q : List Char) : Tidied (P ++ (bs ++ '\n' :: Q)) (P ++ '\n' :: Q)
      (bs.length * (insideString P).toNat) := by
  induction bs generalizing P with
  | nil =>
    rw [List.length_nil, Nat.zero_mul]
    exact .refl _
  | cons c bs ih =>
    obtain ⟨hc, hbs⟩ := List.forall_mem_cons.1 hbs
    have hrest := ih (P ++ [c]) hbs
    have hfirst : Tidied (P ++ c :: '\n' :: Q) (P ++ '\n' :: Q) ((insideString P).toNat + 0) :=
      .erase hc (.inr (.inr rfl)) (.refl _)
    rw [insideString_append_blanks P (by simpa using hc)] at hrest
    simp only [List.append_assoc, List.singleton_append] at hrest
    rw [List.length_cons, Nat.succ_mul]
    exact hrest.trans hfirst

theorem exists_trimChars (line : List Char) : ∃ lead trail,
    line = lead ++ (Text.trimChars line ++ trail) ∧ (∀ c ∈ lead, Text.isBlank c) ∧
      (∀ c ∈ trail, Text.isBlank c) ∧ Stops Text.isBlank (Text.trimChars line) ∧
        Stops Text.isBlank (Text.trimChars line).reverse := by
  let rest := line.dropWhile Text.isBlank
  have hrest : rest = Text.trimChars line ++ (rest.reverse.takeWhile Text.isBlank).reverse := by
    rw [Text.trimChars, ← List.reverse_append, List.takeWhile_append_dropWhile,
      List.reverse_reverse]
  refine ⟨line.takeWhile Text.isBlank, (rest.reverse.takeWhile Text.isBlank).reverse, ?_,
    mem_takeWhile_class, fun c hc => ?_, fun c hc => ?_, ?_⟩
  · rw [← hrest, List.takeWhile_append_dropWhile]
  · exact mem_takeWhile_class c (List.mem_reverse.1 hc)
  · refine stops_dropWhile Text.isBlank line c ?_
    show rest.head? = some c
    rw [hrest, List.head?_append, hc, Option.some_or]
  · rw [Text.trimChars, List.reverse_reverse]
    exact stops_dropWhile _ _

theorem isBlank_of_trimChars_eq_nil {line : List Char} (h : Text.trimChars line = []) :
    ∀ c ∈ line, Text.isBlank c := by
  obtain ⟨lead, trail, hline, hlead, htrail, -⟩ := exists_trimChars line
  rw [h, List.nil_append] at hline
  rw [hline]
  intro c hc
  exact (List.mem_append.1 hc).elim (hlead c) (htrail c)

theorem eq_nil_iff_head {bs cs : List Char} (hbs : ∀ c ∈ bs, Text.isBlank c) (hne : cs ≠ [])
    (hcs : Stops Text.isBlank cs) (r : List Char) :
    bs = [] ↔ ∃ c, (bs ++ (cs ++ r)).head? = some c ∧ Text.isBlank c = false := by
  cases bs with
  | nil =>
    obtain ⟨c, cs, rfl⟩ := List.exists_cons_of_ne_nil hne
    exact ⟨fun _ => ⟨c, rfl, hcs c rfl⟩, fun _ => rfl⟩
  | cons b bs =>
    constructor
    · intro h
      cases h
    · rintro ⟨c, hc, hblank⟩
      cases hc
      rw [hbs b List.mem_cons_self] at hblank
      cases hblank

theorem length_mul_eq_zero_iff {bs : List Char} {b : Bool} :
    bs.length * b.toNat = 0 ↔ (b → bs = []) := by
  cases b <;> simp

/-- A line that `P` stands before loses nothing of a string when it is trimmed: where it begins or
ends inside of one, there is no blank at that end. -/
def KeepsStrings (P line : List Char) : Prop :=
  (insideString P → ∃ c, line.head? = some c ∧ Text.isBlank c = false) ∧
    (insideString (P ++ line) → ∃ c, line.getLast? = some c ∧ Text.isBlank c = false)

/-- A line as it is kept: trimmed, and not at all if it is blank. -/
def tidy (line : List Char) : List Char :=
  if Text.trimChars line = [] then [] else Text.trimChars line ++ ['\n']

theorem keepsStrings_iff_of_blank {P line : List Char} (h : ∀ c ∈ line, Text.isBlank c) :
    KeepsStrings P line ↔ insideString P = false := by
  rw [KeepsStrings, insideString_append_blanks P h]
  constructor
  · rintro ⟨hkeeps, -⟩
    refine Bool.eq_false_iff.2 fun hin => ?_
    obtain ⟨c, hc, hblank⟩ := hkeeps hin
    rw [h c (List.mem_of_head? hc)] at hblank
    cases hblank
  · intro hout
    simp [hout]

theorem keepsStrings_iff {P lead cs trail : List Char} (hlead : ∀ c ∈ lead, Text.isBlank c)
    (htrail : ∀ c ∈ trail, Text.isBlank c) (hne : cs ≠ []) (hfirst : Stops Text.isBlank cs)
    (hlast : Stops Text.isBlank cs.reverse) : KeepsStrings P (lead ++ (cs ++ trail)) ↔
      (insideString P → lead = []) ∧ (insideString (P ++ (lead ++ cs)) → trail = []) := by
  have hend : insideString (P ++ (lead ++ (cs ++ trail))) = insideString (P ++ (lead ++ cs)) := by
    rw [← insideString_append_blanks (P ++ (lead ++ cs)) htrail]
    simp only [List.append_assoc]
  have hhead : lead = [] ↔ ∃ c, (lead ++ (cs ++ trail)).head? = some c ∧ Text.isBlank c = false :=
    eq_nil_iff_head hlead hne hfirst trail
  have hback : ∀ c ∈ trail.reverse, Text.isBlank c := fun c hc => htrail c (List.mem_reverse.1 hc)
  have hlast : trail = [] ↔
      ∃ c, (lead ++ (cs ++ trail)).getLast? = some c ∧ Text.isBlank c = false := by
    rw [← List.reverse_eq_nil_iff, ← List.head?_reverse, List.reverse_append, List.reverse_append,
      List.append_assoc]
    exact eq_nil_iff_head hback (by simpa using hne) hlast lead.reverse
  rw [KeepsStrings, hend, hhead, hlast]

/-- Trimming a line is erasing blanks beside line breaks. -/
theorem Tidied.line {P : List Char} (hP : P = [] ∨ P.getLast? = some '\n') (line Q : List Char) :
    ∃ n, Tidied (P ++ (line ++ '\n' :: Q)) (P ++ (tidy line ++ Q)) n ∧
      (n = 0 ↔ KeepsStrings P line) := by
  rw [tidy]
  by_cases ht : Text.trimChars line = []
  · have hblank := isBlank_of_trimChars_eq_nil ht
    have hall : ∀ c ∈ line ++ ['\n'], Text.isBlank c := by
      intro c hc
      rcases List.mem_append.1 hc with hc | hc
      · exact hblank c hc
      · rw [List.mem_singleton.1 hc]
        rfl
    have hfront := Tidied.front hP hall Q
    rw [List.append_assoc, List.singleton_append] at hfront
    rw [if_pos ht]
    refine ⟨_, hfront, ?_⟩
    rw [keepsStrings_iff_of_blank hblank, length_mul_eq_zero_iff]
    simp
  · obtain ⟨lead, trail, hline, hlead, htrail, hfirst, hlast⟩ := exists_trimChars line
    generalize Text.trimChars line = cs at hline hfirst hlast ht
    have hback := Tidied.back (P ++ (lead ++ cs)) htrail Q
    have hfront := Tidied.front hP hlead (cs ++ '\n' :: Q)
    rw [if_neg ht, hline]
    simp only [List.append_assoc, List.singleton_append] at hback hfront ⊢
    refine ⟨_, hback.trans hfront, ?_⟩
    rw [keepsStrings_iff hlead htrail ht hfirst hlast, Nat.add_eq_zero_iff, length_mul_eq_zero_iff,
      length_mul_eq_zero_iff, and_comm]

/-- Lines behind one another, with a line break behind each. -/
def unlines (lines : List (List Char)) : List Char := lines.flatMap (· ++ ['\n'])

theorem intercalate_newline {lines : List (List Char)} (h : lines ≠ []) :
    ['\n'].intercalate lines ++ ['\n'] = unlines lines := by
  induction lines with
  | nil => exact absurd rfl h
  | cons line lines ih =>
    cases lines with
    | nil => simp [unlines]
    | cons next lines =>
      rw [List.intercalate_cons_cons, List.append_assoc, ih (by simp)]
      rfl

/-- What is left of lines that are trimmed. -/
def tidied (lines : List (List Char)) : List Char := lines.flatMap tidy

/-- Every line, with `P` and the lines before it, loses nothing of a string. -/
def AllKeepStrings (P : List Char) (lines : List (List Char)) : Prop :=
  ∀ before line after, lines = before ++ line :: after → KeepsStrings (P ++ unlines before) line

theorem allKeepStrings_cons {P line : List Char} {lines : List (List Char)} :
    AllKeepStrings P (line :: lines) ↔
      KeepsStrings P line ∧ AllKeepStrings (P ++ (line ++ ['\n'])) lines := by
  constructor
  · intro h
    refine ⟨?_, fun before l after hlines => ?_⟩
    · have hline := h [] line lines rfl
      rwa [unlines, List.flatMap_nil, List.append_nil] at hline
    · have hl := h (line :: before) l after (by rw [hlines, List.cons_append])
      rwa [unlines, List.flatMap_cons, ← List.append_assoc] at hl
  · rintro ⟨hline, h⟩ before l after hlines
    cases before with
    | nil =>
      obtain ⟨rfl, -⟩ := List.cons.inj hlines
      rwa [unlines, List.flatMap_nil, List.append_nil]
    | cons first before =>
      simp only [List.cons_append, List.cons.injEq] at hlines
      obtain ⟨rfl, hlines⟩ := hlines
      rw [unlines, List.flatMap_cons, ← List.append_assoc]
      exact h before l after hlines

/-- Trimming lines is erasing blanks beside line breaks. Later lines go first, so that what stands
before a line is as it was when the line has its turn. -/
theorem Tidied.lines {P : List Char} (hP : P = [] ∨ P.getLast? = some '\n')
    (lines : List (List Char)) :
    ∃ n, Tidied (P ++ unlines lines) (P ++ tidied lines) n ∧ (n = 0 ↔ AllKeepStrings P lines) := by
  induction lines generalizing P with
  | nil => exact ⟨0, .refl _, by simp [AllKeepStrings]⟩
  | cons line lines ih =>
    have hP' : (P ++ (line ++ ['\n'])).getLast? = some '\n' := by
      rw [← List.append_assoc, List.getLast?_concat]
    obtain ⟨m, hrest, hm⟩ := ih (.inr hP')
    obtain ⟨n, hline, hn⟩ := Tidied.line hP line (tidied lines)
    simp only [List.append_assoc, List.singleton_append] at hrest
    refine ⟨m + n, ?_, ?_⟩
    · rw [unlines, List.flatMap_cons, tidied, List.flatMap_cons, List.append_assoc,
        List.singleton_append]
      exact hrest.trans hline
    · rw [Nat.add_eq_zero_iff, hm, hn, allKeepStrings_cons, and_comm]

end ExprLang
