import ExprLang.Interpret
import ExprLang.Proofs.Context
import ExprLang.Proofs.Lexing
import ExprLang.Proofs.Recognition

/-!
# Programs one after another

Two texts with a line break and a semicolon between them are one program: its expressions are those
of the first and then those of the second, and running it is running the two in turn.
-/

namespace ExprLang
open TokenSource Grammar

section
variable {d : Nat} {es : List Expr} {e : Expr} {p q : List Lexeme}

theorem atEnd_of_ne_nil (hp : p ≠ []) : atEnd (⟨p, none⟩ : Words) = .ok false ⟨p, none⟩ := by
  obtain ⟨l, p, rfl⟩ := List.exists_cons_of_ne_nil hp
  rfl

theorem nextStatement_of_semicolon (hp : p ≠ [])
    (h : expression d ⟨p, none⟩ = .ok e (⟨.mark ";" :: q, none⟩ : Words)) :
    nextStatement (expression d) es ⟨p, none⟩ = .ok (some (e :: es)) (⟨q, none⟩ : Words) := by
  have hmore : atEnd (⟨.mark ";" :: q, none⟩ : Words) = .ok false ⟨.mark ";" :: q, none⟩ := rfl
  have hskip : skipMark ";" (⟨.mark ";" :: q, none⟩ : Words) = .ok () ⟨q, none⟩ :=
    ok_of_wp (by simp)
  rw [nextStatement, bind_of_ok (atEnd_of_ne_nil hp), if_neg Bool.false_ne_true, bind_of_ok h,
    bind_of_ok hmore, if_neg Bool.false_ne_true, bind_of_ok hskip]
  rfl

/-- A statement is followed by the end or by a semicolon. -/
theorem exists_of_nextStatement {o : Option (List Expr)} {w : Words} (hp : p ≠ [])
    (h : nextStatement (expression d) es ⟨p, none⟩ = .ok o w) :
    ∃ e q, expression d ⟨p, none⟩ = .ok e (⟨q, none⟩ : Words) ∧ o = some (e :: es) ∧
      (q = [] ∧ w = ⟨[], none⟩ ∨ ∃ r, q = .mark ";" :: r ∧ w = ⟨r, none⟩) := by
  rw [nextStatement, bind_of_ok (atEnd_of_ne_nil hp), if_neg Bool.false_ne_true] at h
  obtain ⟨e, ⟨q, st⟩, he, h⟩ := ok_of_bind h
  obtain ⟨u, -, hw⟩ := (sound d).expression.origin he
  obtain rfl : none = st := (Words.mk.inj hw).2
  refine ⟨e, q, he, ?_⟩
  by_cases hq : q = []
  · subst hq
    obtain ⟨rfl, rfl⟩ := EStateM.Result.ok.inj h
    exact ⟨rfl, .inl ⟨rfl, rfl⟩⟩
  · rw [bind_of_ok (atEnd_of_ne_nil hq), if_neg Bool.false_ne_true] at h
    obtain ⟨_, ⟨r, st⟩, hskip, h⟩ := ok_of_bind h
    obtain ⟨rfl, rfl⟩ := EStateM.Result.ok.inj h
    obtain ⟨v, rfl, hw'⟩ := (takes_skipMark ";").origin hskip
    obtain ⟨hr, rfl⟩ := Words.mk.inj hw'
    exact ⟨rfl, .inr ⟨r, hr, rfl⟩⟩

/-- Expressions that were taken earlier stay below those that are taken now. -/
theorem nextStatement_append {w w' : Words} {o : Option (List Expr)}
    (h : nextStatement (expression d) es w = .ok o w') (before : List Expr) :
    nextStatement (expression d) (es ++ before) w = .ok (o.map (· ++ before)) w' := by
  obtain ⟨b, w₁, hb, h⟩ := ok_of_bind h
  rw [nextStatement, bind_of_ok hb]
  cases b with
  | true =>
    obtain ⟨rfl, rfl⟩ := EStateM.Result.ok.inj h
    rfl
  | false =>
    obtain ⟨e, w₂, he, h⟩ := ok_of_bind h
    obtain ⟨b, w₃, hb', h⟩ := ok_of_bind h
    rw [if_neg Bool.false_ne_true, bind_of_ok he, bind_of_ok hb']
    cases b with
    | true =>
      obtain ⟨rfl, rfl⟩ := EStateM.Result.ok.inj h
      rfl
    | false =>
      obtain ⟨_, w₄, hskip, h⟩ := ok_of_bind h
      obtain ⟨rfl, rfl⟩ := EStateM.Result.ok.inj h
      rw [if_neg Bool.false_ne_true, bind_of_ok hskip]
      rfl

theorem iterate_nextStatement_append {n : Nat} {w w' : Words} {fs : List Expr}
    (h : iterate (nextStatement (expression d)) n es w = .ok fs w') (before : List Expr) :
    iterate (nextStatement (expression d)) n (es ++ before) w = .ok (fs ++ before) w' := by
  induction n generalizing es w with
  | zero =>
    obtain ⟨rfl, rfl⟩ := EStateM.Result.ok.inj h
    rfl
  | succ n ih =>
    obtain ⟨o, w₁, ho, h⟩ := ok_of_bind h
    rw [iterate, bind_of_ok (nextStatement_append ho before)]
    cases o with
    | none =>
      obtain ⟨rfl, rfl⟩ := EStateM.Result.ok.inj h
      rfl
    | some fs => exact ih h

theorem iterate_nextStatement_nil {n : Nat} :
    iterate (nextStatement (expression d)) n es ⟨[], none⟩ = .ok es (⟨[], none⟩ : Words) := by
  cases n <;> rfl

/-- The rounds over `p` go on with those over the words behind the semicolon. -/
theorem iterate_nextStatement_semicolon {n m : Nat} {v : List Lexeme} {fs gs : List Expr}
    (hn : p.length < n) (hm : (p ++ .mark ";" :: v).length < m) (hp : p ≠ [])
    (hlast : p.getLast? ≠ some (.mark ";"))
    (h : iterate (nextStatement (expression d)) n es ⟨p, none⟩ = .ok fs (⟨[], none⟩ : Words))
    (hv : ∀ m, v.length < m → iterate (nextStatement (expression d)) m fs ⟨v, none⟩ =
      .ok gs (⟨[], none⟩ : Words)) :
    iterate (nextStatement (expression d)) m es ⟨p ++ .mark ";" :: v, none⟩ =
      .ok gs (⟨[], none⟩ : Words) := by
  induction n generalizing m p es with
  | zero => omega
  | succ n ih =>
    obtain _ | m := m
    · omega
    have hpv : p ++ .mark ";" :: v ≠ [] := by simp
    obtain ⟨o, w₁, ho, hrest⟩ := ok_of_bind h
    obtain ⟨e, q, he, rfl, hq⟩ := exists_of_nextStatement hp ho
    have he' : expression d (⟨p ++ [], none⟩ : Words) = .ok e ⟨q ++ [], none⟩ := by simpa using he
    simp only [List.length_append, List.length_cons] at hm
    rcases hq with ⟨rfl, rfl⟩ | ⟨q, rfl, rfl⟩
    · -- the last expression of `p` has the semicolon behind it instead of the end
      have hends : Ends true (.mark ";" :: v) := .mark (by decide)
      have hrun := (steady .nil hends d).expression p [] e he'
      rw [iterate, bind_of_ok (nextStatement_of_semicolon hpv hrun)]
      obtain rfl : e :: es = fs :=
        (EStateM.Result.ok.inj (iterate_nextStatement_nil.symm.trans hrest)).1
      exact hv m (by omega)
    · -- an earlier one has its own semicolon, and nothing behind that was looked at
      have hahead := ahead_expression [] (.mark ";" :: v) none none d
      have hrun := ok_of_ahead hahead (List.cons_ne_nil _ q) he'
      obtain ⟨u, hu, hw⟩ := (takes_expression_ne_nil d).origin he
      obtain rfl : p = u ++ .mark ";" :: q := (Words.mk.inj hw).1
      have hq : q ≠ [] := by
        rintro rfl
        simp at hlast
      have hlast' : q.getLast? ≠ some (.mark ";") := by
        obtain ⟨l, q, rfl⟩ := List.exists_cons_of_ne_nil hq
        simpa using hlast
      rw [iterate, bind_of_ok (nextStatement_of_semicolon hpv hrun)]
      simp only [List.length_append, List.length_cons] at hn hm
      have hm' : (q ++ .mark ";" :: v).length < m := by
        simp only [List.length_append, List.length_cons]
        omega
      exact ih (by omega) hm' hq hlast' hrest

/-- What a loop comes to does not depend on how many rounds it is granted beyond those it needs. -/
theorem Progresses.iterate_of_lt {α : Type} {step : α → Reading Words (Option α)}
    (hprog : Progresses step) {n m : Nat} {a b : α} (hn : p.length < n) (hm : p.length < m)
    (h : iterate step n a ⟨p, none⟩ = .ok b ⟨q, none⟩) :
    iterate step m a ⟨p, none⟩ = .ok b ⟨q, none⟩ := by
  have hsteady : ∀ a, Steady [] [] (step a) := fun _ _ _ _ h => h
  rw [← List.append_nil p] at hn hm h ⊢
  rw [← List.append_nil q] at h ⊢
  exact steady_iterate hprog hsteady n m hn hm h

theorem Words.parse_iff {ls : List Lexeme} {b : List Expr} :
    Words.parse (d + 1) ⟨ls, none⟩ = .ok (.block b) ↔ ∀ n, ls.length < n →
      iterate (nextStatement (expression d)) n [] ⟨ls, none⟩ =
        .ok b.reverse (⟨[], none⟩ : Words) := by
  have hloop : ∀ es w, loop (nextStatement (expression d)) [] (⟨ls, none⟩ : Words) = .ok es w ↔
      iterate (nextStatement (expression d)) (ls.length + 1) [] ⟨ls, none⟩ = .ok es w :=
    fun _ _ => Iff.rfl
  constructor
  · intro h n hn
    have hend := wp_program (d + 1) (⟨ls, none⟩ : Words)
    unfold Words.parse at h
    cases hr : program (d + 1) (⟨ls, none⟩ : Words) with
    | error err w =>
      rw [hr] at h
      cases h
    | ok tree w =>
      rw [hr] at h
      cases h
      obtain ⟨rfl, -⟩ := (wp_iff_of_ok hr).1 hend
      obtain ⟨es, w, hes, hr⟩ := ok_of_bind hr
      obtain ⟨htree, rfl⟩ := EStateM.Result.ok.inj hr
      obtain rfl : es.reverse = b := Expr.block.inj htree
      rw [List.reverse_reverse]
      exact (progresses_nextStatement d).iterate_of_lt (Nat.lt_succ_self _) hn ((hloop es _).1 hes)
  · intro h
    have hes := (hloop _ _).2 (h _ (Nat.lt_succ_self _))
    rw [Words.parse, program, bind_of_ok hes, List.reverse_reverse]
    rfl

theorem Words.parse_semicolon {limit : Nat} {ls ls' : List Lexeme} {b b' : List Expr}
    (h : Words.parse limit ⟨ls, none⟩ = .ok (.block b))
    (h' : Words.parse limit ⟨ls', none⟩ = .ok (.block b')) (hne : ls ≠ [])
    (hlast : ls.getLast? ≠ some (.mark ";")) :
    Words.parse limit ⟨ls ++ .mark ";" :: ls', none⟩ = .ok (.block (b ++ b')) := by
  cases limit with
  | zero => cases h
  | succ d =>
    rw [Words.parse_iff] at h h' ⊢
    intro m hm
    refine iterate_nextStatement_semicolon (Nat.lt_succ_self _) hm hne hlast
      (h _ (Nat.lt_succ_self _)) ?_
    intro m hm
    rw [List.reverse_append]
    exact iterate_nextStatement_append (h' m hm) b.reverse

end

theorem Lexed.parse_iff {text : String} {ls : List Lexeme} (h : Lexed text.toList ls) {limit : Nat}
    {tree : Expr} : parse limit text = .ok tree ↔ Words.parse limit ⟨ls, none⟩ = .ok tree := by
  obtain ⟨ts, e, hs, rfl, he⟩ := h.holds (c := .ofText text)
  have hwords : Words.ofTokens ts e = ⟨ts.map Token.lexeme, none⟩ := by rw [Words.ofTokens, he]
  rw [hs.parse_eq, hwords]
  cases Words.parse limit ⟨ts.map Token.lexeme, none⟩ with
  | ok tree' => exact Iff.rfl
  | error err =>
    constructor <;> intro h <;> cases h

theorem lexed_of_tokenize {text : String} {ts : List Token} (h : tokenize text = .ok ts) :
    Lexed text.toList (ts.map Token.lexeme) := by
  obtain ⟨e, hs, he⟩ := Holds.of_tokenize h
  exact hs.lexed rfl he

theorem lexed_of_parse {limit : Nat} {text : String} {tree : Expr}
    (h : parse limit text = .ok tree) : ∃ ls, Lexed text.toList ls := by
  obtain ⟨ts, e, ps, hs, he, -, -⟩ := reads_of_parse h
  exact ⟨_, hs.lexed rfl he⟩

theorem exists_block_of_isOk {limit : Nat} {text : String} (h : (parse limit text).isOk) :
    ∃ b, parse limit text = .ok (.block b) := by
  cases hp : parse limit text with
  | error err =>
    rw [hp] at h
    cases h
  | ok tree =>
    obtain ⟨ts, e, ps, -, -, -, rfl⟩ := reads_of_parse hp
    exact ⟨_, rfl⟩

theorem Lexed.semicolon {cs : List Char} {ls : List Lexeme} (h : Lexed cs ls) :
    Lexed (';' :: cs) (.mark ";" :: ls) :=
  .lexeme (Lexeme.scan_of_isMark rfl) h

/-- A text is ended by a line break and a semicolon, unless it ends inside a string. -/
theorem parse_semicolon {limit : Nat} {text text' : String} {ts : List Token} {t : Token}
    {b b' : List Expr} (h : parse limit text = .ok (.block b))
    (h' : parse limit text' = .ok (.block b')) (hts : tokenize text = .ok ts)
    (hlast : ts.getLast? = some t) (ht : t.lexeme ≠ .mark ";")
    (hopen : (Continuation.scan text.toList).inString = false) :
    parse limit (text ++ "\n;" ++ text') = .ok (.block (b ++ b')) := by
  have hlexed := lexed_of_tokenize hts
  obtain ⟨ls', hlexed'⟩ := lexed_of_parse h'
  have hjoined : Lexed (text ++ "\n;" ++ text').toList
      (ts.map Token.lexeme ++ .mark ";" :: ls') := by
    have happend := hlexed.append hlexed'.semicolon hopen
    simpa using happend
  rw [hlexed.parse_iff] at h
  rw [hlexed'.parse_iff] at h'
  rw [hjoined.parse_iff]
  refine Words.parse_semicolon h h' ?_ ?_
  · rintro hnil
    rw [List.map_eq_nil_iff.1 hnil] at hlast
    cases hlast
  · rw [List.getLast?_map, hlast]
    exact fun hmark => ht (Option.some.inj hmark)

theorem foldlM_evaluate (host : Host) (d : Nat) (items : List Expr) (s : ScopeId) (v : Value) :
    items.foldlM (fun _ e => evaluate host d e s) v = (do
      let v' ← items.foldlM (fun _ e => evaluate host d e s) .nothing
      return if items.isEmpty then v else v') := by
  cases items with
  | nil => rfl
  | cons e items => simp

theorem evaluate_block_append (host : Host) (limit : Nat) (b b' : List Expr) (s : ScopeId) :
    evaluate host limit (.block (b ++ b')) s = (do
      let v ← evaluate host limit (.block b) s
      let v' ← evaluate host limit (.block b') s
      return if b'.isEmpty then v else v') := by
  match limit with
  | 0 | 1 => rfl
  | d + 2 =>
    simp only [evaluate, List.foldlM_append]
    refine bind_congr fun v => ?_
    exact foldlM_evaluate host d b' s v

theorem interpret_of_parse {host : Host} {limit : Nat} {text : String} {program : Expr}
    (s : ScopeId) (h : parse limit text = .ok program) :
    interpret host limit text s =
      EStateM.adaptExcept Failure.ofEval (evaluate host limit program s) := by
  funext st
  rw [interpret, h]
  simp only [EStateM.adaptExcept, EStateM.run]
  cases evaluate host limit program s st <;> rfl

theorem adaptExcept_bind {ε ε' σ α β : Type} (f : ε → ε') (x : EStateM ε σ α)
    (g : α → EStateM ε σ β) : EStateM.adaptExcept f (x >>= g) =
      EStateM.adaptExcept f x >>= fun a => EStateM.adaptExcept f (g a) := by
  funext s
  simp only [EStateM.adaptExcept, bind, EStateM.bind]
  cases x s <;> rfl

/-- Two texts in one, with a line break and a semicolon between them, do what they do in turn: the
first stops the run if it fails, and the value is that of the second unless it has no expressions.
Whatever native functions do and a store holds, scopes and output included, the two sides leave the
same. -/
theorem interpret_in_sequence (limit : Nat) {text text' : String} {ts : List Token} {t : Token}
    {b b' : List Expr} (h : parse limit text = .ok (.block b))
    (h' : parse limit text' = .ok (.block b')) (hts : tokenize text = .ok ts)
    (hlast : ts.getLast? = some t) (ht : t.lexeme ≠ .mark ";")
    (hopen : (Continuation.scan text.toList).inString = false) :
    parse limit (text ++ "\n;" ++ text') = .ok (.block (b ++ b')) ∧
      ∀ (host : Host) (s : ScopeId), interpret host limit (text ++ "\n;" ++ text') s = (do
        let v ← interpret host limit text s
        let v' ← interpret host limit text' s
        return if b'.isEmpty then v else v') := by
  have hjoined := parse_semicolon h h' hts hlast ht hopen
  refine ⟨hjoined, fun host s => ?_⟩
  rw [interpret_of_parse s hjoined, interpret_of_parse s h, interpret_of_parse s h',
    evaluate_block_append, adaptExcept_bind]
  simp only [adaptExcept_bind]
  rfl

/-- The first text ends in a conditional without `else` and in a comment, the second begins in
one. -/
theorem interpret_in_sequence_comment :
    ∃ ts t b b', parse 60 "f = lambda(x) if x then x # ;" = .ok (.block b) ∧
      parse 60 "# ;\nprint(f(true)); f(y)" = .ok (.block b') ∧
      tokenize "f = lambda(x) if x then x # ;" = .ok ts ∧ ts.getLast? = some t ∧
      t.lexeme ≠ .mark ";" ∧
      (Continuation.scan "f = lambda(x) if x then x # ;".toList).inString = false ∧
      parse 60 ("f = lambda(x) if x then x # ;" ++ "\n;" ++ "# ;\nprint(f(true)); f(y)") =
        .ok (.block (b ++ b')) ∧
      ∀ (host : Host) (s : ScopeId), interpret host 60 ("f = lambda(x) if x then x # ;" ++ "\n;" ++
          "# ;\nprint(f(true)); f(y)") s = (do
        let v ← interpret host 60 "f = lambda(x) if x then x # ;" s
        let v' ← interpret host 60 "# ;\nprint(f(true)); f(y)" s
        return if b'.isEmpty then v else v') := by
  have hfirst : (parse 60 "f = lambda(x) if x then x # ;").isOk := by decide +kernel
  have hsecond : (parse 60 "# ;\nprint(f(true)); f(y)").isOk := by decide +kernel
  have htokens : ((tokenize "f = lambda(x) if x then x # ;").toOption.bind List.getLast?).map
      Token.lexeme = some (.name "x") := by decide +kernel
  obtain ⟨b, hb⟩ := exists_block_of_isOk hfirst
  obtain ⟨b', hb'⟩ := exists_block_of_isOk hsecond
  obtain ⟨t, hlast, ht⟩ := Option.map_eq_some_iff.1 htokens
  cases hts : tokenize "f = lambda(x) if x then x # ;" with
  | error err =>
    rw [hts] at hlast
    cases hlast
  | ok ts =>
    rw [hts] at hlast
    have hmark : t.lexeme ≠ .mark ";" := by simp [ht]
    have hopen : (Continuation.scan "f = lambda(x) if x then x # ;".toList).inString = false := by
      decide
    obtain ⟨hparse, hrun⟩ := interpret_in_sequence 60 hb hb' hts hlast hmark hopen
    exact ⟨ts, t, b, b', hb, hb', rfl, hlast, hmark, hopen, hparse, hrun⟩

end ExprLang
