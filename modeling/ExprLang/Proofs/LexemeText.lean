import ExprLang.Proofs.Stream

/-!
# Lexemes as they are written

Which lexemes can stand in a text (`Lexeme.Valid`), and how each is written (`Lexeme.spelling`).
The two belong together: every lexeme that a text yields is valid, and the spellings of valid
lexemes, with blanks between them, yield those lexemes.
-/

namespace ExprLang
namespace Lexeme

/-- Digits, perhaps with a point and more digits behind them. -/
def IsNumeral (cs : List Char) : Prop :=
  ∃ whole, whole ≠ [] ∧ (∀ c ∈ whole, c.isDigit) ∧ (cs = whole ∨
    ∃ fraction, (∀ c ∈ fraction, c.isDigit) ∧ cs = whole ++ '.' :: fraction)

/-- The value of some numeral. -/
def IsWritable (x : Float) : Prop := ∃ cs, IsNumeral cs ∧ Decimal.ofLexeme cs = x

def IsWord (n : String) : Prop :=
  ∃ c cs, n.toList = c :: cs ∧ isNameStart c ∧ ∀ d ∈ cs, isNamePart d

def IsIdentifier (n : String) : Prop := IsWord n ∧ n ∉ keywords

def Valid : Lexeme → Prop
  | number x => IsWritable x
  | keyword k => k ∈ keywords
  | name n => IsIdentifier n
  | text _ => True
  | mark m => ∃ c, isMark c ∧ m = String.ofList [c]
  | operator op => op.toList ≠ [] ∧ ∀ c ∈ op.toList, isOperatorPart c

/-- A way to write numbers: each value that some numeral has, as such a numeral. -/
structure Numerals where
  write : Float → List Char
  isNumeral_write : ∀ x, IsWritable x → IsNumeral (write x)
  ofLexeme_write : ∀ x, IsWritable x → Decimal.ofLexeme (write x) = x

/-- There is one: any numeral with the value will do. -/
instance : Nonempty Numerals := by
  refine ⟨fun x => open Classical in if h : IsWritable x then h.choose else [], fun x h => ?_,
    fun x h => ?_⟩
  · rw [dif_pos h]
    exact h.choose_spec.1
  · rw [dif_pos h]
    exact h.choose_spec.2

/-- The body of a string literal: a backslash before every quote and every backslash. -/
def escape (cs : List Char) : List Char :=
  cs.flatMap fun c => if c = '"' ∨ c = '\\' then ['\\', c] else [c]

def spelling (num : Numerals) : Lexeme → List Char
  | number x => num.write x
  | text s => '"' :: escape s.toList ++ ['"']
  | keyword s | name s | mark s | operator s => s.toList

/-- The ways to write a lexeme: of the numerals for a number any will do. -/
inductive Written : Lexeme → List Char → Prop
  | number {cs : List Char} (h : IsNumeral cs) : Written (.number (Decimal.ofLexeme cs)) cs
  | keyword {k : String} (hk : k ∈ keywords) : Written (.keyword k) k.toList
  | name {n : String} (hn : IsIdentifier n) : Written (.name n) n.toList
  | text (s : String) : Written (.text s) ('"' :: (escape s.toList ++ ['"']))
  | mark {c : Char} (hc : isMark c) : Written (.mark (String.ofList [c])) [c]
  | operator {op : String} (hne : op.toList ≠ []) (hall : ∀ c ∈ op.toList, isOperatorPart c) :
      Written (.operator op) op.toList

theorem Valid.written (num : Numerals) {l : Lexeme} (h : l.Valid) : Written l (l.spelling num) := by
  cases l with
  | number x =>
    have hnum : Written (.number (Decimal.ofLexeme (num.write x))) (num.write x) :=
      .number (num.isNumeral_write x h)
    rw [num.ofLexeme_write x h] at hnum
    exact hnum
  | keyword k => exact .keyword h
  | name n => exact .name h
  | text s => exact .text s
  | mark m =>
    obtain ⟨c, hc, rfl⟩ := h
    rw [spelling, String.toList_ofList]
    exact .mark hc
  | operator op => exact .operator h.1 h.2

/-- What follows does not go on with a character of the class. -/
def Stops (p : Char → Bool) (r : List Char) : Prop := ∀ c, r.head? = some c → p c = false

/-- The body of a string literal and the text it stands for: a backslash gives way to the character
behind it, and no quote stands for itself. -/
inductive Escapes : List Char → List Char → Prop
  | nil : Escapes [] []
  | plain {c : Char} {body value : List Char} (hq : c ≠ '"') (hb : c ≠ '\\')
      (h : Escapes body value) : Escapes (c :: body) (c :: value)
  | escaped {c : Char} {body value : List Char} (h : Escapes body value) :
      Escapes ('\\' :: c :: body) (c :: value)

/-- The characters `cs`, with `r` behind them, are the lexeme `l` and as long as it can be: what
follows a number is no digit and no first point, what follows a word or an operator is not of its
class, and a string reaches to the first quote that no backslash takes, or to the end of the text.
-/
inductive Maximal : Lexeme → List Char → List Char → Prop
  | number {cs r : List Char} (h : IsNumeral cs) (hr : Stops Char.isDigit r)
      (hpoint : '.' ∉ cs → Stops (· == '.') r) : Maximal (.number (Decimal.ofLexeme cs)) cs r
  | keyword {k : String} {r : List Char} (hk : k ∈ keywords) (hr : Stops isNamePart r) :
      Maximal (.keyword k) k.toList r
  | name {n : String} {r : List Char} (hn : IsIdentifier n) (hr : Stops isNamePart r) :
      Maximal (.name n) n.toList r
  | mark {c : Char} {r : List Char} (hc : isMark c) : Maximal (.mark (String.ofList [c])) [c] r
  | operator {op : String} {r : List Char} (hne : op.toList ≠ [])
      (hall : ∀ c ∈ op.toList, isOperatorPart c) (hr : Stops isOperatorPart r) :
      Maximal (.operator op) op.toList r
  | text {body value r : List Char} (h : Escapes body value) :
      Maximal (.text (String.ofList value)) ('"' :: (body ++ ['"'])) r
  | openText {body value : List Char} (h : Escapes body value) :
      Maximal (.text (String.ofList value)) ('"' :: body) []
  /-- The backslash that the text ends with takes no character. -/
  | openEscape {body value : List Char} (h : Escapes body value) :
      Maximal (.text (String.ofList value)) ('"' :: (body ++ ['\\'])) []

theorem Maximal.valid {l : Lexeme} {cs r : List Char} (h : Maximal l cs r) : l.Valid := by
  cases h with
  | number h => exact ⟨_, h, rfl⟩
  | keyword hk => exact hk
  | name hn => exact hn
  | mark hc => exact ⟨_, hc, rfl⟩
  | operator hne hall => exact ⟨hne, hall⟩
  | text | openText | openEscape => trivial

theorem Stops.takeWhile {p : Char → Bool} {r : List Char} (h : Stops p r) : r.takeWhile p = [] := by
  cases r with
  | nil => rfl
  | cons c r => rw [List.takeWhile_cons, h c rfl, if_neg Bool.false_ne_true]

theorem stops_dropWhile (p : Char → Bool) (cs : List Char) : Stops p (cs.dropWhile p) := by
  intro c hc
  have h := List.head?_dropWhile_not p cs
  rw [hc] at h
  exact h

theorem mem_takeWhile_class {p : Char → Bool} {cs : List Char} : ∀ c ∈ cs.takeWhile p, p c :=
  List.all_eq_true.1 List.all_takeWhile

theorem takeWhile_append_stops {p : Char → Bool} {cs r : List Char} (hcs : ∀ c ∈ cs, p c)
    (hr : Stops p r) : (cs ++ r).takeWhile p = cs := by
  rw [List.takeWhile_append_of_pos hcs, hr.takeWhile, List.append_nil]

theorem runLength_append {p : Char → Bool} {cs r : List Char} (hcs : ∀ c ∈ cs, p c)
    (hr : Stops p r) : runLength p (cs ++ r) = cs.length := by
  rw [runLength, takeWhile_append_stops hcs hr]

theorem take_runLength (p : Char → Bool) (cs : List Char) :
    cs.take (runLength p cs) = cs.takeWhile p := by
  have h : cs.takeWhile p <+: cs := List.takeWhile_prefix p
  exact (List.prefix_iff_eq_take.1 h).symm

theorem stringBody_backslash (c : Char) (r : List Char) :
    stringBody ('\\' :: c :: r) = ('\\' :: c :: (stringBody r).1, (stringBody r).2) := rfl

theorem stringBody_of_ne {c : Char} (hq : c ≠ '"') (hb : c ≠ '\\') (r : List Char) :
    stringBody (c :: r) = (c :: (stringBody r).1, (stringBody r).2) := by
  simp [stringBody, hb]

namespace Escapes
variable {body value : List Char}

theorem stringBody_append (h : Escapes body value) (r : List Char) :
    stringBody (body ++ r) = (body ++ (stringBody r).1, (stringBody r).2) := by
  induction h with
  | nil => rfl
  | plain hq hb _ ih => rw [List.cons_append, stringBody_of_ne hq hb, ih, List.cons_append]
  | escaped _ ih =>
    rw [List.cons_append, List.cons_append, stringBody_backslash, ih, List.cons_append,
      List.cons_append]

theorem unescape_append (h : Escapes body value) (r : List Char) :
    unescape (body ++ r) = value ++ unescape r := by
  induction h with
  | nil => rfl
  | plain _ hb _ ih => simp [unescape, hb, ih]
  | escaped _ ih => simp [unescape, ih]

theorem unescape_eq (h : Escapes body value) : unescape body = value := by
  simpa [unescape] using h.unescape_append []

end Escapes

theorem escape_cons (c : Char) (cs : List Char) :
    escape (c :: cs) = (if c = '"' ∨ c = '\\' then ['\\', c] else [c]) ++ escape cs := rfl

theorem escapes_escape (cs : List Char) : Escapes (escape cs) cs := by
  induction cs with
  | nil => exact .nil
  | cons c cs ih =>
    rw [escape_cons]
    by_cases hc : c = '"' ∨ c = '\\'
    · rw [if_pos hc]
      exact .escaped ih
    · rw [if_neg hc]
      obtain ⟨hq, hb⟩ := not_or.1 hc
      exact .plain hq hb ih

/-- What follows an opening quote is a body up to the first quote that no backslash takes, or all of
it is one, but for a backslash at the end. -/
theorem exists_escapes (r : List Char) : ∃ body value, Escapes body value ∧
    ((∃ r', r = body ++ '"' :: r') ∨ r = body ∨ r = body ++ ['\\']) := by
  induction r using stringBody.induct with
  | case1 => exact ⟨[], [], .nil, .inr (.inl rfl)⟩
  | case2 r => exact ⟨[], [], .nil, .inl ⟨r, rfl⟩⟩
  | case3 c r body closed hr ih =>
    obtain ⟨body, value, h, hend⟩ := ih
    refine ⟨'\\' :: c :: body, c :: value, .escaped h, ?_⟩
    rcases hend with ⟨r', rfl⟩ | rfl | rfl
    · exact .inl ⟨r', rfl⟩
    · exact .inr (.inl rfl)
    · exact .inr (.inr rfl)
  | case4 c r hq hb body closed hr ih =>
    by_cases hc : c = '\\'
    · subst hc
      cases r with
      | nil => exact ⟨[], [], .nil, .inr (.inr rfl)⟩
      | cons d r => exact (hb d r rfl rfl).elim
    · obtain ⟨body, value, h, hend⟩ := ih
      refine ⟨c :: body, c :: value, .plain hq hc h, ?_⟩
      rcases hend with ⟨r', rfl⟩ | rfl | rfl
      · exact .inl ⟨r', rfl⟩
      · exact .inr (.inl rfl)
      · exact .inr (.inr rfl)

theorem numberLength_append {cs r : List Char} (h : IsNumeral cs) (hr : Stops Char.isDigit r)
    (hpoint : '.' ∉ cs → Stops (· == '.') r) : numberLength (cs ++ r) = cs.length := by
  obtain ⟨whole, -, hwhole, rfl | ⟨fraction, hfraction, rfl⟩⟩ := h
  · have hno : '.' ∉ cs := fun hmem => absurd (hwhole '.' hmem) (by decide)
    simp only [numberLength, runLength_append hwhole hr, List.drop_left]
    split
    · cases hpoint hno '.' rfl
    · rfl
  · have hdot : Stops Char.isDigit ('.' :: (fraction ++ r)) := by
      intro c hc
      cases hc
      rfl
    rw [List.append_assoc, List.cons_append]
    simp only [numberLength, runLength_append hwhole hdot, List.drop_left,
      runLength_append hfraction hr, List.length_append, List.length_cons]
    omega

theorem exists_numeral {c : Char} (hc : c.isDigit) (r : List Char) : ∃ cs r', c :: r = cs ++ r' ∧
    IsNumeral cs ∧ Stops Char.isDigit r' ∧ ('.' ∉ cs → Stops (· == '.') r') := by
  have hne : (c :: r).takeWhile Char.isDigit ≠ [] := by simp [hc]
  have hsplit : (c :: r).takeWhile Char.isDigit ++ (c :: r).dropWhile Char.isDigit = c :: r :=
    List.takeWhile_append_dropWhile
  have hstops := stops_dropWhile Char.isDigit (c :: r)
  have hdigits : ∀ d ∈ (c :: r).takeWhile Char.isDigit, d.isDigit := mem_takeWhile_class
  generalize (c :: r).takeWhile Char.isDigit = whole at hne hsplit hdigits
  generalize (c :: r).dropWhile Char.isDigit = after at hsplit hstops
  rw [← hsplit]
  by_cases hafter : after.head? = some '.'
  · obtain ⟨r', rfl⟩ := List.head?_eq_some_iff.1 hafter
    refine ⟨whole ++ '.' :: r'.takeWhile Char.isDigit, r'.dropWhile Char.isDigit, ?_,
      ⟨whole, hne, hdigits, .inr ⟨_, mem_takeWhile_class, rfl⟩⟩, stops_dropWhile _ r', ?_⟩
    · rw [List.append_assoc, List.cons_append, List.takeWhile_append_dropWhile]
    · exact fun hno => absurd (List.mem_append_right _ (List.mem_cons_self ..)) hno
  · refine ⟨whole, after, rfl, ⟨whole, hne, hdigits, .inl rfl⟩, hstops, fun _ d hd => ?_⟩
    rw [beq_eq_false_iff_ne]
    rintro rfl
    exact hafter hd

theorem ne_of_class {p : Char → Bool} {c d : Char} (hc : p c) (hd : p d = false) : c ≠ d := by
  rintro rfl
  rw [hd] at hc
  cases hc

theorem not_isDigit_of_isNameStart {c : Char} (h : isNameStart c) : c.isDigit = false := by
  simp only [isNameStart, Bool.or_eq_true, beq_iff_eq] at h
  rcases h with (h | rfl) | rfl
  · rw [Bool.eq_false_iff]
    intro hd
    -- the codes of letters and of digits are apart
    delta Char.isAlpha Char.isUpper Char.isLower at h
    delta Char.isDigit at hd
    simp only [Bool.or_eq_true, Bool.and_eq_true, decide_eq_true_eq, ge_iff_le] at h hd
    grind
  · decide
  · decide

theorem class_of_isMark {c : Char} (h : isMark c) :
    c ≠ '"' ∧ c.isDigit = false ∧ isNameStart c = false := by
  simp only [isMark, List.contains_eq_mem, decide_eq_true_eq, List.mem_cons, List.not_mem_nil,
    or_false] at h
  rcases h with rfl | rfl | rfl | rfl | rfl | rfl | rfl | rfl <;> decide

theorem class_of_isOperatorPart {c : Char} (h : isOperatorPart c) :
    c ≠ '"' ∧ c.isDigit = false ∧ isNameStart c = false ∧ isMark c = false := by
  simp only [isOperatorPart, List.contains_eq_mem, decide_eq_true_eq, List.mem_cons,
    List.not_mem_nil, or_false] at h
  rcases h with rfl | rfl | rfl | rfl | rfl | rfl | rfl | rfl | rfl | rfl | rfl <;> decide

/-! ### One lexeme -/

section
variable {c : Char} {r : List Char}

theorem scan_quote (r : List Char) : scan ('"' :: r) =
    .lexeme (.text (String.ofList (unescape (stringBody r).1)))
      ((stringBody r).1.length + if (stringBody r).2 then 2 else 1) := rfl

theorem scan_of_isDigit (h : c.isDigit) : scan (c :: r) = .lexeme
    (number (Decimal.ofLexeme ((c :: r).take (numberLength (c :: r)))))
    (numberLength (c :: r)) := by
  have hq : c ≠ '"' := ne_of_class h rfl
  simp [scan, hq, h]

theorem scan_of_isNameStart (h : isNameStart c) : scan (c :: r) = .lexeme
    (ofWord (String.ofList ((c :: r).takeWhile isNamePart))) (runLength isNamePart (c :: r)) := by
  have hq : c ≠ '"' := ne_of_class h rfl
  have hd := not_isDigit_of_isNameStart h
  simp only [scan, beq_iff_eq, hq, hd, h, Bool.false_eq_true, if_false, if_true, take_runLength]

theorem scan_of_isMark (h : isMark c) : scan (c :: r) = .lexeme (mark (String.ofList [c])) 1 := by
  obtain ⟨hq, hd, hn⟩ := class_of_isMark h
  simp [scan, hq, hd, hn, h]

theorem scan_of_isOperatorPart (h : isOperatorPart c) : scan (c :: r) = .lexeme
    (operator (String.ofList ((c :: r).takeWhile isOperatorPart)))
    (runLength isOperatorPart (c :: r)) := by
  obtain ⟨hq, hd, hn, hm⟩ := class_of_isOperatorPart h
  simp only [scan, beq_iff_eq, hq, hd, hn, hm, h, Bool.false_eq_true, if_false, if_true,
    take_runLength]

end

theorem IsNumeral.exists_cons {cs : List Char} (h : IsNumeral cs) :
    ∃ c r, cs = c :: r ∧ c.isDigit := by
  obtain ⟨_ | ⟨c, whole⟩, hne, hdigits, hcs⟩ := h
  · exact absurd rfl hne
  · have hc := hdigits c (List.mem_cons_self ..)
    rcases hcs with rfl | ⟨fraction, -, rfl⟩
    · exact ⟨c, whole, rfl, hc⟩
    · exact ⟨c, _, rfl, hc⟩

theorem isWord_of_mem_keywords {k : String} (h : k ∈ keywords) : IsWord k := by
  simp only [keywords, List.mem_cons, List.not_mem_nil, or_false] at h
  rcases h with rfl | rfl | rfl | rfl | rfl | rfl | rfl <;>
    exact ⟨_, _, rfl, by decide, List.all_eq_true.1 (by decide)⟩

theorem IsWord.isNamePart {n : String} (h : IsWord n) : ∀ c ∈ n.toList, isNamePart c := by
  obtain ⟨c, cs, hn, hc, hcs⟩ := h
  rw [hn]
  refine List.forall_mem_cons.2 ⟨?_, hcs⟩
  rw [Lexeme.isNamePart, hc]
  rfl

theorem scan_word {n : String} (h : IsWord n) {r : List Char} (hr : Stops isNamePart r) :
    scan (n.toList ++ r) = .lexeme (ofWord n) n.toList.length := by
  have hall := h.isNamePart
  obtain ⟨c, cs, hn, hc, -⟩ := h
  have hscan : scan (c :: (cs ++ r)) = _ := scan_of_isNameStart hc
  rw [← List.cons_append, ← hn, runLength_append hall hr, takeWhile_append_stops hall hr,
    String.ofList_toList] at hscan
  exact hscan

theorem scan_string {body value r : List Char} (h : Escapes body value) :
    scan ('"' :: (body ++ r)) = .lexeme
      (.text (String.ofList (unescape (body ++ (stringBody r).1))))
      ((body ++ (stringBody r).1).length + if (stringBody r).2 then 2 else 1) := by
  rw [scan_quote, h.stringBody_append]

/-- The lexeme at the head of a text is read as far as it can go. -/
theorem Maximal.scan {l : Lexeme} {cs r : List Char} (h : Maximal l cs r) :
    scan (cs ++ r) = .lexeme l cs.length := by
  cases h with
  | number hnum hr hpoint =>
    obtain ⟨c, cs', rfl, hc⟩ := hnum.exists_cons
    have hscan : Lexeme.scan (c :: (cs' ++ r)) = _ := scan_of_isDigit hc
    rw [← List.cons_append, numberLength_append hnum hr hpoint, List.take_left] at hscan
    exact hscan
  | @keyword k r hk hr =>
    have hword : ofWord k = .keyword k := by simp [ofWord, hk]
    rw [scan_word (isWord_of_mem_keywords hk) hr, hword]
  | @name n r hn hr =>
    have hword : ofWord n = .name n := by simp [ofWord, hn.2]
    rw [scan_word hn.1 hr, hword]
  | mark hc => exact scan_of_isMark hc
  | @operator op r hne hall hr =>
    obtain ⟨c, cs, hop⟩ := List.exists_cons_of_ne_nil hne
    have hc : isOperatorPart c := hall c (by simp [hop])
    have hscan : Lexeme.scan (c :: (cs ++ r)) = _ := scan_of_isOperatorPart hc
    rw [← List.cons_append, ← hop, runLength_append hall hr, takeWhile_append_stops hall hr,
      String.ofList_toList] at hscan
    exact hscan
  | @text body value r h =>
    rw [List.cons_append, List.append_assoc, scan_string h]
    simp [stringBody, h.unescape_eq]
  | openText h =>
    rw [List.append_nil, ← List.append_nil (_ :: _), List.cons_append, scan_string h]
    simp [stringBody, h.unescape_eq]
  | openEscape h =>
    rw [List.append_nil, scan_string h]
    simp [stringBody, h.unescape_append, unescape]

theorem exists_maximal_word {c : Char} (hc : isNameStart c) (r : List Char) :
    ∃ l cs r', c :: r = cs ++ r' ∧ Maximal l cs r' := by
  have hpart : isNamePart c := by simp [isNamePart, hc]
  have hword : IsWord (String.ofList ((c :: r).takeWhile isNamePart)) := by
    refine ⟨c, r.takeWhile isNamePart, ?_, hc, mem_takeWhile_class⟩
    rw [String.toList_ofList, List.takeWhile_cons, if_pos hpart]
  have hsplit : (c :: r).takeWhile isNamePart ++ (c :: r).dropWhile isNamePart = c :: r :=
    List.takeWhile_append_dropWhile
  have hstops := stops_dropWhile isNamePart (c :: r)
  rw [← String.toList_ofList (l := (c :: r).takeWhile isNamePart)] at hsplit
  generalize String.ofList ((c :: r).takeWhile isNamePart) = n at hword hsplit
  by_cases hn : n ∈ keywords
  · exact ⟨_, _, _, hsplit.symm, .keyword hn hstops⟩
  · exact ⟨_, _, _, hsplit.symm, .name ⟨hword, hn⟩ hstops⟩

theorem exists_maximal_operator {c : Char} (hc : isOperatorPart c) (r : List Char) :
    ∃ l cs r', c :: r = cs ++ r' ∧ Maximal l cs r' := by
  have hsplit : (c :: r).takeWhile isOperatorPart ++ (c :: r).dropWhile isOperatorPart = c :: r :=
    List.takeWhile_append_dropWhile
  have hne : (c :: r).takeWhile isOperatorPart ≠ [] := by simp [hc]
  have hall : ∀ d ∈ (c :: r).takeWhile isOperatorPart, isOperatorPart d := mem_takeWhile_class
  have hstops := stops_dropWhile isOperatorPart (c :: r)
  rw [← String.toList_ofList (l := (c :: r).takeWhile isOperatorPart)] at hsplit hne hall
  exact ⟨_, _, _, hsplit.symm, .operator hne hall hstops⟩

/-- A character that begins a lexeme. -/
def Starts (c : Char) : Prop :=
  c = '"' ∨ c.isDigit ∨ isNameStart c ∨ isMark c ∨ isOperatorPart c

/-- What begins a lexeme goes on to one that is as long as it can be. -/
theorem exists_maximal {c : Char} (hc : Starts c) (r : List Char) :
    ∃ l cs r', c :: r = cs ++ r' ∧ Maximal l cs r' := by
  rcases hc with rfl | hc | hc | hc | hc
  · obtain ⟨body, value, h, ⟨r', rfl⟩ | rfl | rfl⟩ := exists_escapes r
    · exact ⟨_, '"' :: (body ++ ['"']), r', by simp, .text h⟩
    · exact ⟨_, '"' :: r, [], by simp, .openText h⟩
    · exact ⟨_, '"' :: (body ++ ['\\']), [], by simp, .openEscape h⟩
  · obtain ⟨cs, r', hsplit, hcs, hr, hpoint⟩ := exists_numeral hc r
    exact ⟨_, cs, r', hsplit, .number hcs hr hpoint⟩
  · exact exists_maximal_word hc r
  · exact ⟨_, [c], r, rfl, .mark hc⟩
  · exact exists_maximal_operator hc r

theorem scan_stray {c : Char} (hc : ¬ Starts c) (r : List Char) : scan (c :: r) = .stray c := by
  simp only [Starts, not_or, Bool.not_eq_true] at hc
  obtain ⟨hq, hd, hn, hm, ho⟩ := hc
  simp [scan, hq, hd, hn, hm, ho]

theorem maximal_of_scan {cs : List Char} {l : Lexeme} {n : Nat} (h : scan cs = .lexeme l n) :
    ∃ cs' r, cs = cs' ++ r ∧ cs'.length = n ∧ Maximal l cs' r := by
  cases cs with
  | nil => cases h
  | cons c r =>
    by_cases hc : Starts c
    · obtain ⟨l', cs', r', hsplit, hmax⟩ := exists_maximal hc r
      rw [hsplit, hmax.scan] at h
      cases h
      exact ⟨cs', r', hsplit, rfl, hmax⟩
    · rw [scan_stray hc] at h
      cases h

theorem valid_of_scan {cs : List Char} {l : Lexeme} {n : Nat} (h : scan cs = .lexeme l n) :
    l.Valid := by
  obtain ⟨_, _, -, -, hmax⟩ := maximal_of_scan h
  exact hmax.valid

/-- What may stand between two lexemes begins here, or the text ends. -/
def Detached (r : List Char) : Prop := ∀ c, r.head? = some c → isSpace c ∨ c = '#'

theorem Detached.stops {r : List Char} (h : Detached r) {p : Char → Bool}
    (hp : [' ', '\t', '\n', '#'].any p = false) : Stops p r := by
  intro c hc
  have hmem : c ∈ [' ', '\t', '\n', '#'] := by
    have hclass := h c hc
    simp only [isSpace, Bool.or_eq_true, beq_iff_eq] at hclass
    simp only [List.mem_cons, List.not_mem_nil, or_false]
    exact or_assoc.1 (or_assoc.1 hclass)
  exact Bool.eq_false_iff.2 (List.any_eq_false.1 hp c hmem)

theorem Written.maximal {l : Lexeme} {cs r : List Char} (h : Written l cs) (hr : Detached r) :
    Maximal l cs r := by
  cases h with
  | number h => exact .number h (hr.stops rfl) fun _ => hr.stops rfl
  | keyword hk => exact .keyword hk (hr.stops rfl)
  | name hn => exact .name hn (hr.stops rfl)
  | text s =>
    have h : Maximal (.text (String.ofList s.toList)) _ r := .text (escapes_escape s.toList)
    rw [String.ofList_toList] at h
    exact h
  | mark hc => exact .mark hc
  | operator hne hall => exact .operator hne hall (hr.stops rfl)

/-! ### Texts -/

/-- No blank and no comment begins where a lexeme does. -/
theorem Maximal.eq_cons {l : Lexeme} {cs r : List Char} (h : Maximal l cs r) :
    ∃ c cs', cs = c :: cs' ∧ isSpace c = false ∧ c ≠ '#' := by
  have solid : ∀ {p : Char → Bool} {c : Char}, p c → [' ', '\t', '\n', '#'].any p = false →
      isSpace c = false ∧ c ≠ '#' := by
    intro p c hc hp
    simp only [List.any_cons, List.any_nil, Bool.or_false, Bool.or_eq_false_iff] at hp
    obtain ⟨h₁, h₂, h₃, h₄⟩ := hp
    simp [isSpace, ne_of_class hc h₁, ne_of_class hc h₂, ne_of_class hc h₃, ne_of_class hc h₄]
  have word : ∀ {n : String}, IsWord n →
      ∃ c cs, n.toList = c :: cs ∧ isSpace c = false ∧ c ≠ '#' := by
    intro n hn
    obtain ⟨c, cs, hcs, hc, -⟩ := hn
    exact ⟨c, cs, hcs, solid hc rfl⟩
  cases h with
  | number h =>
    obtain ⟨c, cs, hcs, hc⟩ := h.exists_cons
    exact ⟨c, cs, hcs, solid hc rfl⟩
  | keyword hk => exact word (isWord_of_mem_keywords hk)
  | name hn => exact word hn.1
  | mark hc => exact ⟨_, [], rfl, solid hc rfl⟩
  | operator hne hall =>
    obtain ⟨c, cs, hcs⟩ := List.exists_cons_of_ne_nil hne
    exact ⟨c, cs, hcs, solid (hall c (by simp [hcs])) rfl⟩
  | text | openText | openEscape => exact ⟨'"', _, rfl, rfl, by decide⟩

/-- Lexemes one after another, with a blank between two of them. -/
def spellings (num : Numerals) (ls : List Lexeme) : List Char :=
  List.intercalate [' '] (ls.map (spelling num))

/-- The same with a blank in front of each. -/
def spellingsBehind (num : Numerals) (ls : List Lexeme) : List Char :=
  ls.flatMap fun l => ' ' :: l.spelling num

theorem spellings_cons (num : Numerals) (l : Lexeme) (ls : List Lexeme) :
    spellings num (l :: ls) = l.spelling num ++ spellingsBehind num ls := by
  induction ls generalizing l with
  | nil => simp [spellings, spellingsBehind]
  | cons l' ls ih =>
    have hls := ih l'
    simp_all [spellings, spellingsBehind]

theorem detached_spellingsBehind (num : Numerals) (ls : List Lexeme) :
    Detached (spellingsBehind num ls) := by
  cases ls with
  | nil => exact nofun
  | cons l ls =>
    intro c hc
    cases hc
    exact .inl rfl

end Lexeme

open Lexeme

/-- What is left of a text behind the blanks and comments at its head. -/
def skipLayout (cs : List Char) : List Char := cs.drop (layoutLength false cs)

/-- The lexemes `ls` and the layout around them make up all of a text. -/
inductive Lexed : List Char → List Lexeme → Prop
  | done {cs : List Char} (hs : scan (skipLayout cs) = .nothing) : Lexed cs []
  | lexeme {cs : List Char} {l : Lexeme} {n : Nat} {ls : List Lexeme}
      (hs : scan (skipLayout cs) = .lexeme l n) (h : Lexed ((skipLayout cs).drop n) ls) :
      Lexed cs (l :: ls)

namespace Lexed
variable {num : Numerals} {ls : List Lexeme}

theorem holds {c : Cursor} (h : Lexed c.rest ls) :
    ∃ ts e, Holds ⟨c, none⟩ ts e ∧ ts.map Token.lexeme = ls ∧ e.stray = none := by
  generalize hcs : c.rest = cs at h
  induction h generalizing c with
  | done hs =>
    subst hcs
    have hs' : scan (TokenStream.skipped ⟨c, none⟩).input.rest = .nothing := hs
    have hread : TokenStream.read ⟨c, none⟩ = .ok none (TokenStream.skipped ⟨c, none⟩) := by
      rw [TokenStream.read_eq, hs']
    exact ⟨[], _, .ended rfl hread, rfl, rfl⟩
  | @lexeme cs l n ls hs h ih =>
    subst hcs
    have hs' : scan (TokenStream.skipped ⟨c, none⟩).input.rest = .lexeme l n := hs
    have hread := TokenStream.read_eq ⟨c, none⟩
    rw [hs'] at hread
    obtain ⟨ts, e, hts, hls, he⟩ := ih (c := (c.advance _).advance n) rfl
    exact ⟨_ :: ts, e, .token hread (TokenStream.read_some hread).1 hts, by simp [hls], he⟩

/-- A lexeme that is spelled out, behind a blank or not. -/
theorem spelling {l : Lexeme} (hl : l.Valid) {blanks r : List Char}
    (hblanks : blanks = [] ∨ blanks = [' ']) (hr : Detached r) (h : Lexed r ls) :
    Lexed (blanks ++ (l.spelling num ++ r)) (l :: ls) := by
  have hmax : Maximal l (l.spelling num) r := (hl.written num).maximal hr
  obtain ⟨d, ds, hd, hspace, hhash⟩ := hmax.eq_cons
  have hskip : skipLayout (blanks ++ (l.spelling num ++ r)) = l.spelling num ++ r := by
    have hblank : isSpace ' ' = true := rfl
    rcases hblanks with rfl | rfl <;> simp [skipLayout, hd, layoutLength, hspace, hhash, hblank]
  have hscan := hmax.scan
  rw [← hskip] at hscan
  refine .lexeme hscan ?_
  rw [hskip, List.drop_left]
  exact h

theorem spellingsBehind (hls : ∀ l ∈ ls, l.Valid) : Lexed (spellingsBehind num ls) ls := by
  induction ls with
  | nil => exact .done rfl
  | cons l ls ih =>
    obtain ⟨hl, hls⟩ := List.forall_mem_cons.1 hls
    exact spelling hl (.inr rfl) (detached_spellingsBehind num ls) (ih hls)

variable (num) in
theorem spellings (hls : ∀ l ∈ ls, l.Valid) : Lexed (spellings num ls) ls := by
  cases ls with
  | nil => exact .done rfl
  | cons l ls =>
    obtain ⟨hl, hls⟩ := List.forall_mem_cons.1 hls
    rw [spellings_cons]
    exact spelling hl (.inl rfl) (detached_spellingsBehind num ls) (spellingsBehind hls)

end Lexed

namespace Holds

variable (num : Numerals) in
theorem of_spellings {ls : List Lexeme} (hls : ∀ l ∈ ls, l.Valid) :
    ∃ ts e, Holds (.ofText (String.ofList (spellings num ls))) ts e ∧
      ts.map Token.lexeme = ls ∧ e.stray = none := by
  rw [TokenStream.ofText, Cursor.ofText, String.toList_ofList]
  exact (Lexed.spellings num hls).holds

theorem lexed {s : TokenStream} {ts : List Token} {e : TextEnd} (h : Holds s ts e)
    (hs : s.lookahead = none) (he : e.stray = none) :
    Lexed s.input.rest (ts.map Token.lexeme) := by
  induction h with
  | ended hl hr =>
    rw [TokenStream.read_eq] at hr
    split at hr <;> cases hr
    exact .done ‹_›
  | stuck hl hc hr => simp [he] at hc
  | @token s s' t ts e hn hp h ih =>
    obtain ⟨i, la⟩ := s
    obtain rfl : la = none := hs
    have hlook := TokenStream.read_lookahead hn
    rw [TokenStream.next_none, TokenStream.read_eq] at hn
    split at hn <;> cases hn
    exact .lexeme ‹_› (ih hlook he)

theorem valid {s : TokenStream} {ts : List Token} {e : TextEnd} (h : Holds s ts e)
    (hs : ∀ t ∈ s.lookahead, t.lexeme.Valid) : ∀ t ∈ ts, t.lexeme.Valid := by
  induction h with
  | ended => simp
  | stuck => simp
  | @token s s' t ts e hn hp h ih =>
    obtain ⟨i, _ | t'⟩ := s
    · have hlook := TokenStream.read_lookahead hn
      have hvalid : t.lexeme.Valid := by
        rw [TokenStream.next_none, TokenStream.read_eq] at hn
        split at hn <;> cases hn
        exact valid_of_scan ‹_›
      exact List.forall_mem_cons.2 ⟨hvalid, ih (by simp [hlook])⟩
    · rw [TokenStream.next_some] at hn
      cases hn
      exact List.forall_mem_cons.2 ⟨hs t rfl, ih (by simp)⟩

end Holds

end ExprLang
