import ExprLang.Proofs.Language
import ExprLang.Proofs.Words

/-!
# What the productions accept

Whenever a production succeeds, the words it took stand for the tree it answers (`Reads`). The two
loops that go on from a tree that is already there, `calls` and `climb`, extend it: if words `u`
stand for the tree they start from, then `u` and the words they took stand for the tree they
answer.
-/

namespace ExprLang
open TokenSource Grammar

section
variable {α : Type}

/-- Words and results of the items of a list, one pair an item, each pair as `I` says. -/
structure Itemized (I : List Lexeme → α → Prop) (sep : String) (ps : List (List Lexeme × α))
    (w : List Lexeme) : Prop where
  items : ∀ p ∈ ps, I p.1 p.2
  listed : Listed sep (ps.map Prod.fst) w

variable {I : List Lexeme → α → Prop} {sep : String}

theorem Itemized.nil : Itemized I sep [] [] := ⟨by simp, .nil⟩

theorem itemized_snoc {ps : List (List Lexeme × α)} {u : List Lexeme} {a : α}
    (hps : ∀ p ∈ ps, I p.1 p.2) (ha : I u a) : ∀ p ∈ ps ++ [(u, a)], I p.1 p.2 := by
  intro p hp
  rcases List.mem_append.1 hp with hp | hp
  · exact hps p hp
  · rw [List.mem_singleton.1 hp]; exact ha

/-- The items taken so far, with no separator behind the last. -/
def Gathered (I : List Lexeme → α → Prop) (sep : String) (u : List Lexeme) (as : List α) : Prop :=
  ∃ ps : List (List Lexeme × α), (∀ p ∈ ps, I p.1 p.2) ∧ as = (ps.map Prod.snd).reverse ∧
    u = List.intercalate [.mark sep] (ps.map Prod.fst)

/-- The items of a list whose last item may have a separator behind it. -/
def Complete (I : List Lexeme → α → Prop) (sep : String) (u : List Lexeme) (as : List α) : Prop :=
  ∃ ps : List (List Lexeme × α), Itemized I sep ps u ∧ as = (ps.map Prod.snd).reverse

theorem Gathered.complete {u : List Lexeme} {as : List α} (h : Gathered I sep u as) :
    Complete I sep u as := by
  obtain ⟨ps, hps, has, hu⟩ := h
  exact ⟨ps, ⟨hps, .inl hu⟩, has⟩

/-- What a separator leads to: a further item, or the end of the list. -/
theorem Gathered.separated {u : List Lexeme} {as : List α} (h : Gathered I sep u as)
    (hne : as ≠ []) : Complete I sep (u ++ [.mark sep]) as ∧
      ∀ v a, I v a → Gathered I sep (u ++ .mark sep :: v) (a :: as) := by
  obtain ⟨ps, hps, rfl, rfl⟩ := h
  have hps' : ps.map Prod.fst ≠ [] := by simpa using hne
  refine ⟨⟨ps, ⟨hps, .inr ⟨hps', rfl⟩⟩, rfl⟩, fun v a ha => ?_⟩
  refine ⟨ps ++ [(v, a)], itemized_snoc hps ha, by simp, ?_⟩
  rw [List.map_append, List.map_singleton, Listed.intercalate_snoc hps']

theorem takes_skipSeparator (as : List α) : Takes (skipSeparator sep as.isEmpty) fun u _ =>
    as = [] ∧ u = [] ∨ as ≠ [] ∧ u = [.mark sep] := by
  unfold skipSeparator
  refine .ite (fun h => .pure (.inl ⟨by simpa using h, rfl⟩)) fun h => ?_
  exact (takes_skipMark sep).mono fun u _ hu => .inr ⟨by simpa using h, hu⟩

theorem takes_nextItem {item : Reading Words α} (hitem : Takes item I) (stop : String)
    {u : List Lexeme} {as : List α} (h : Gathered I sep u as) :
    Takes (nextItem stop sep item as) fun v o =>
      o.elim (Complete I sep (u ++ v) as) fun bs => Gathered I sep (u ++ v) bs := by
  refine takes_atEnd.bind fun v₁ b₁ h₁ => .ite (fun _ => .pure ?_) fun _ => ?_
  · simpa [h₁] using h.complete
  refine (takes_atMark stop).bind fun v₂ b₂ h₂ => .ite (fun _ => .pure ?_) fun _ => ?_
  · simpa [h₁, h₂] using h.complete
  refine (takes_skipSeparator as).bind fun v₃ _ h₃ => (takes_atMark stop).bind fun v₄ b₄ h₄ => ?_
  subst h₁ h₂ h₄
  rcases h₃ with ⟨rfl, rfl⟩ | ⟨hne, rfl⟩
  · refine .ite (fun _ => .pure (by simpa using h.complete)) fun _ => ?_
    obtain ⟨ps, -, hps, rfl⟩ := h
    obtain rfl : ps = [] := by simpa using hps
    exact hitem.bind fun v a ha => .pure ⟨[(v, a)], by simpa using ha, rfl, by simp⟩
  · refine .ite (fun _ => .pure (by simpa using (h.separated hne).1)) fun _ => ?_
    exact hitem.bind fun v a ha => .pure (by simpa using (h.separated hne).2 v a ha)

theorem takes_delimited {item : Reading Words α} (hitem : Takes item I) (start stop : String) :
    Takes (delimited start stop sep item) fun u as => ∃ ps w, Itemized I sep ps w ∧
      as = ps.map Prod.snd ∧ u = .mark start :: w ++ [.mark stop] := by
  refine (takes_skipMark start).bind fun u₀ _ hu₀ => ?_
  refine (takes_loop (Gathered I sep) (Complete I sep) (fun _ _ h => h.complete)
    (fun u as h => takes_nextItem hitem stop h) ⟨[], by simp, rfl, rfl⟩).bind
      fun w as ⟨ps, hps, has⟩ => ?_
  refine (takes_skipMark stop).bind fun u₁ _ hu₁ => .pure ⟨ps, w, hps, by simp [has], ?_⟩
  simp [hu₀, hu₁]

end

/-! ### Productions -/

/-- Words that turn `e` into `e'` when they follow words that stand for `e`. -/
def Extends (e : Expr) (u : List Lexeme) (e' : Expr) : Prop := ∀ v, Reads v e → Reads (v ++ u) e'

theorem Extends.refl (e : Expr) : Extends e [] e := fun v hv => by simpa using hv

theorem Extends.trans {e e' e'' : Expr} {u v : List Lexeme} (h : Extends e u e')
    (h' : Extends e' v e'') : Extends e (u ++ v) e'' := fun w hw => by
  simpa using h' _ (h w hw)

/-- Each round extends the tree by the words it takes; the last takes none. -/
def Extending (step : Expr → Reading Words (Option Expr)) : Prop :=
  ∀ e, Takes (step e) fun u o => o.elim (u = []) fun e' => u ≠ [] ∧ Extends e u e'

namespace Extending
variable {step : Expr → Reading Words (Option Expr)}

theorem takes_loop (h : Extending step) (e : Expr) : Takes (loop step e) (Extends e) := by
  refine ExprLang.takes_loop (Extends e) (Extends e) (fun _ _ h => h) ?_ (.refl e)
  intro u e' hu
  refine (h e').mono fun v o hv => ?_
  cases o with
  | none =>
    obtain rfl : v = [] := hv
    simpa using hu
  | some e'' => exact hu.trans hv.2

theorem progresses (h : Extending step) : Progresses step := by
  intro e
  refine (h e).mono fun u o hu ho => ?_
  cases o with
  | none => cases ho
  | some e' => exact hu.1

end Extending

/-- What the productions that nest to depth `d` accept. -/
structure Sound (d : Nat) : Prop where
  expression : Takes (expression d) Reads
  atom : Takes (atom d) Reads
  primary : Takes (primary d) Reads
  block : Takes (block d) Reads
  conditional : Takes (conditional d) Reads
  function : Takes (function d) fun u e => ∀ word, IsLambda word → Reads (.keyword word :: u) e
  arguments : ∀ e, Takes (arguments d e) fun u e' => u ≠ [] ∧ Extends e u e'
  calls : ∀ e, Takes (calls d e) (Extends e)
  climb : ∀ bound e, Takes (climb d bound e) (Extends e)

theorem takes_join {d : Nat} {t : Token} {op : String} (hop : IsOperator op) {left right : Expr}
    {u : List Lexeme} (hu : Reads u right) :
    Takes (join d t op left right) fun v e => v = [] ∧ Extends left (.operator op :: u) e := by
  unfold join
  refine .ite (fun h => ?_) fun h => ?_
  · obtain rfl : op = "=" := by simpa using h
    split
    · exact .pure ⟨rfl, fun v hv => hv.assign hu⟩
    · exact .ite (fun _ => .fail _ _) fun _ => .throw _
  · exact .pure ⟨rfl, fun v hv => .binary hop (by simpa using h) hv hu⟩

namespace Sound
variable {d : Nat}

theorem expression_succ (h : Sound d) : Takes (Grammar.expression (d + 1)) Reads := by
  unfold Grammar.expression
  refine h.atom.bind fun u₁ e₁ h₁ => (h.climb 0 e₁).bind fun u₂ e₂ h₂ => ?_
  exact (h.calls e₂).mono fun u₃ e₃ h₃ => by simpa using h₃ _ (h₂ _ h₁)

theorem atom_succ (h : Sound d) : Takes (Grammar.atom (d + 1)) Reads := by
  unfold Grammar.atom
  exact h.primary.bind fun u₁ e₁ h₁ => (h.calls e₁).mono fun u₂ e₂ h₂ => h₂ _ h₁

theorem primary_succ (h : Sound d) : Takes (Grammar.primary (d + 1)) Reads := by
  unfold Grammar.primary
  rintro ⟨_ | ⟨l, ls⟩, st⟩
  · cases st <;> simp
  simp only [wp_bind, wp_peek_cons, Option.map_some]
  split <;> (try obtain rfl := Option.some.inj ‹_›)
  · refine Takes.after_next (h.expression.bind fun u e hu => ?_) ls st
    exact (takes_skipMark ")").bind fun v _ hv => .pure (by simpa [hv] using hu.group)
  · exact h.block _
  · exact h.conditional _
  · simpa [truth, Lexeme.value] using ⟨[_], rfl, .yes⟩
  · simpa [truth, Lexeme.value] using ⟨[_], rfl, .no⟩
  · exact Takes.after_next (h.function.mono fun u e hu => hu _ (.inl rfl)) ls st
  · exact Takes.after_next (h.function.mono fun u e hu => hu _ (.inr rfl)) ls st
  · exact Takes.after_next (.pure (.number _)) ls st
  · exact Takes.after_next (.pure (.text _)) ls st
  · exact Takes.after_next (.pure (.name _)) ls st
  · simp

theorem conditional_succ (h : Sound d) : Takes (Grammar.conditional (d + 1)) Reads := by
  unfold Grammar.conditional
  refine (takes_skipKeyword "if").bind fun u₀ _ h₀ => h.expression.bind fun c test hc => ?_
  subst h₀
  -- the consequent and what follows it, however the consequent is written
  have rest : Takes (do
      let yes ← Grammar.expression d
      if ← atKeyword "else" then
        discard next
        return .cond test yes (some (← Grammar.expression d))
      return .cond test yes none) fun u e => ∃ y t, u = y ++ t ∧ y ≠ [] ∧
        ∀ v, Consequent y v → Reads (.keyword "if" :: c ++ v ++ t) e := by
    refine h.expression.bind fun y yes hy => takes_ifKeyword ?_ (.pure ?_)
    · exact h.expression.bind fun n no hn => .pure ⟨y, .keyword "else" :: n, by simp,
        hy.derives.ne_nil, fun v hv => .condElse hc hy hv hn⟩
    · exact ⟨y, [], by simp, hy.derives.ne_nil, fun v hv => by simpa using Reads.cond hc hy hv⟩
  refine takes_ifMark (rest.mono ?_) ((takes_skipKeyword "then").bind fun u₁ _ h₁ => rest.mono ?_)
  · rintro u e ⟨y, t, rfl, hy, he⟩ hhead
    have hy' : y.head? = some (.mark "\x7b") := by
      cases y with
      | nil => exact absurd rfl hy
      | cons l y => exact hhead (by simp)
    simpa using he y (.inr ⟨rfl, hy'⟩)
  · rintro u e ⟨y, t, rfl, hy, he⟩
    simpa [h₁] using he _ (.inl rfl)

theorem function_succ (h : Sound d) : Takes (Grammar.function (d + 1)) fun u e =>
    ∀ word, IsLambda word → Reads (.keyword word :: u) e := by
  unfold Grammar.function
  refine (takes_delimited takes_variableName _ _).bind fun u params ⟨ps, w, hps, hparams, hu⟩ => ?_
  refine h.expression.bind fun b body hb => .pure fun word hword => ?_
  have hfst : ps.map Prod.fst = params.map fun n => [.name n] := by
    rw [hparams, List.map_map]
    exact List.map_congr_left fun p hp => hps.items p hp
  simpa [hu] using Reads.function hword (hfst ▸ hps.listed) hb

theorem block_succ (h : Sound d) : Takes (Grammar.block (d + 2)) Reads := by
  unfold Grammar.block
  refine (takes_delimited h.expression _ _).bind fun u es ⟨ps, w, hps, hes, hu⟩ => .pure ?_
  rw [hu, hes, List.append_nil]
  exact .block hps.items hps.listed

theorem arguments_succ (h : Sound d) (e : Expr) :
    Takes (Grammar.arguments (d + 2) e) fun u e' => u ≠ [] ∧ Extends e u e' := by
  unfold Grammar.arguments
  refine (takes_delimited h.expression _ _).bind fun u es ⟨ps, w, hps, hes, hu⟩ => .pure ?_
  rw [hu, hes, List.append_nil]
  exact ⟨by simp, fun v hv => by simpa using hv.call hps.items hps.listed⟩

theorem extending_nextCall (h : Sound d) : Extending (nextCall (Grammar.arguments d)) := by
  intro e
  refine (takes_atMark "(").bind fun u b hu => .ite (fun _ => ?_) fun _ => .pure (by simpa using hu)
  exact (h.arguments e).bind fun v e' hv => .pure (by simpa [hu] using hv)

theorem calls_succ (h : Sound d) (e : Expr) : Takes (Grammar.calls (d + 1) e) (Extends e) :=
  h.extending_nextCall.takes_loop e

theorem operand_succ (h : Sound d) {op : String} (hop : IsOperator op) (bound : Nat) (t : Token)
    (e : Expr) : Takes (do
      let operand ← Grammar.atom d
      let right ← Grammar.climb d bound operand
      return some (← join d t op e right)) fun u o =>
        ∃ e', o = some e' ∧ Extends e (.operator op :: u) e' := by
  refine h.atom.bind fun u₁ e₁ h₁ => (h.climb bound e₁).bind fun u₂ e₂ h₂ => ?_
  refine (takes_join hop (h₂ _ h₁)).bind fun u₃ e₃ h₃ => .pure ⟨e₃, rfl, ?_⟩
  simpa [h₃.1] using h₃.2

theorem extending_nextOperation (h : Sound d) (bound : Nat) :
    Extending (nextOperation d (Grammar.atom d) (Grammar.climb d) bound) := by
  intro e
  unfold nextOperation
  rintro ⟨_ | ⟨l, ls⟩, st⟩
  · cases st with
    | none => exact ⟨[], rfl, rfl, rfl⟩
    | some c => trivial
  cases l with
  | operator op =>
    rw [wp_bind, wp_operator?_cons]
    simp only [Lexeme.value]
    cases hp : precedence op with
    | none => exact ⟨[], rfl, rfl, rfl⟩
    | some p =>
      by_cases hb : p ≤ bound
      · simp only [hb, if_true]
        exact ⟨[], rfl, rfl, rfl⟩
      · have hop : IsOperator op := by simp [IsOperator, hp]
        simp only [hb, if_false]
        refine Takes.after_next ((h.operand_succ hop _ _ e).mono ?_) ls st
        rintro v o ⟨e', rfl, hv⟩
        exact ⟨by simp, hv⟩
  | _ =>
    rw [wp_bind, wp_operator?_of_not rfl]
    exact ⟨[], rfl, rfl, rfl⟩

theorem climb_succ (h : Sound d) (bound : Nat) (e : Expr) :
    Takes (Grammar.climb (d + 1) bound e) (Extends e) :=
  (h.extending_nextOperation bound).takes_loop e

end Sound

theorem sound (d : Nat) : Sound d := by
  induction d using Nat.strongRecOn with
  | ind d ih =>
    match d with
    | 0 => exact ⟨.throw _, .throw _, .throw _, .throw _, .throw _, .throw _, fun _ => .throw _,
        fun _ => .throw _, fun _ _ => .throw _⟩
    | 1 =>
      have h := ih 0 (by omega)
      exact ⟨h.expression_succ, h.atom_succ, h.primary_succ, .throw _, h.conditional_succ,
        h.function_succ, fun _ => .throw _, h.calls_succ, h.climb_succ⟩
    | d + 2 =>
      have h := ih (d + 1) (by omega)
      have h' := ih d (by omega)
      exact ⟨h.expression_succ, h.atom_succ, h.primary_succ, h'.block_succ, h.conditional_succ,
        h.function_succ, h'.arguments_succ, h.calls_succ, h.climb_succ⟩

theorem takes_expression_ne_nil (d : Nat) : Takes (expression d) fun u _ => u ≠ [] :=
  (sound d).expression.mono fun _ _ h => h.derives.ne_nil

theorem takes_variableName_ne_nil : Takes variableName fun u _ => u ≠ [] :=
  takes_variableName.mono fun _ _ h => by simp [h]

theorem progresses_nextItem {α : Type} {item : Reading Words α} (stop sep : String)
    (hitem : Takes item fun u _ => u ≠ []) : Progresses (nextItem stop sep item) := by
  intro items
  refine takes_atEnd.bind fun _ _ _ => .ite (fun _ => .pure nofun) fun _ => ?_
  refine (takes_atMark stop).bind fun _ _ _ => .ite (fun _ => .pure nofun) fun _ => ?_
  refine (takes_skipSeparator items).bind fun _ _ _ => (takes_atMark stop).bind fun _ _ _ => ?_
  refine .ite (fun _ => .pure nofun) fun _ => hitem.bind fun _ _ h => .pure fun _ => ?_
  simp [h]

theorem progresses_nextCall (d : Nat) : Progresses (nextCall (arguments d)) :=
  (sound d).extending_nextCall.progresses

theorem progresses_nextOperation (d bound : Nat) :
    Progresses (nextOperation d (atom d) (climb d) bound) :=
  ((sound d).extending_nextOperation bound).progresses

theorem progresses_nextStatement (d : Nat) : Progresses (nextStatement (expression d)) := by
  intro items
  refine takes_atEnd.bind fun _ _ _ => .ite (fun _ => .pure nofun) fun _ => ?_
  refine (takes_expression_ne_nil d).bind fun _ _ h => takes_atEnd.bind fun _ _ _ => ?_
  refine .ite (fun _ => .pure fun _ => by simp [h]) fun _ => ?_
  exact (takes_skipMark ";").bind fun _ _ _ => .pure fun _ => by simp [h]

/-- The expressions of a program that were taken, with `left` still to come: another expression can
follow unless nothing is left. -/
structure Prefixed (ps : List (List Lexeme × Expr)) (u left : List Lexeme) : Prop where
  itemized : Itemized Reads ";" ps u
  open_end : left ≠ [] → ∀ v, u ++ v = List.intercalate [.mark ";"] (ps.map Prod.fst ++ [v])

theorem Prefixed.last {ps : List (List Lexeme × Expr)} {u v left : List Lexeme} {e : Expr}
    (h : Prefixed ps u left) (hl : left ≠ []) (hv : Reads v e) :
    Prefixed (ps ++ [(v, e)]) (u ++ v) [] where
  itemized := ⟨itemized_snoc h.itemized.items hv, .inl (by simpa using h.open_end hl v)⟩
  open_end h := absurd rfl h

theorem Prefixed.more {ps : List (List Lexeme × Expr)} {u v left left' : List Lexeme} {e : Expr}
    (h : Prefixed ps u left) (hl : left ≠ []) (hv : Reads v e) :
    Prefixed (ps ++ [(v, e)]) (u ++ v ++ [.mark ";"]) left' where
  itemized := ⟨itemized_snoc h.itemized.items hv,
    .inr ⟨by simp, by simpa using congrArg (· ++ [.mark ";"]) (h.open_end hl v)⟩⟩
  open_end _ v' := by
    rw [Listed.intercalate_snoc (by simp), List.map_append, List.map_singleton, ← h.open_end hl v]
    simp

/-- Expressions of a program over `w` that were taken, with the words `w'` still to come. -/
def Started (w : Words) (es : List Expr) (w' : Words) : Prop :=
  ∃ ps u, w.left = u ++ w'.left ∧ es = (ps.map Prod.snd).reverse ∧ Prefixed ps u w'.left

theorem wp_nextStatement {d : Nat} {w w₁ : Words} {es : List Expr} (h : Started w es w₁) :
    wp (nextStatement (expression d) es) (fun o w₂ => o.elim
      (w₂ = ⟨[], none⟩ ∧ ∃ ps, Itemized Reads ";" ps w.left ∧ es = (ps.map Prod.snd).reverse)
      fun es' => Started w es' w₂) (fun _ _ => True) w₁ := by
  obtain ⟨ps, u, hu, hes, hps⟩ := h
  obtain ⟨_ | ⟨l, ls⟩, st⟩ := w₁
  · cases st with
    | none => simpa [nextStatement] using ⟨ps, by simpa [hu] using hps.itemized, hes⟩
    | some c => simp [nextStatement]
  simp only [nextStatement, wp_bind, wp_atEnd, wp_peek_cons, Option.isNone_some, wp_ite]
  refine wp_mono ((sound d).expression ⟨l :: ls, st⟩) ?_ fun _ _ h => h
  rintro e ⟨left₁, st₁⟩ ⟨v, hv, rfl, he⟩
  simp only at hv hu hps
  have hes' : e :: es = ((ps ++ [(v, e)]).map Prod.snd).reverse := by simp [hes]
  rw [hv] at hu
  obtain _ | ⟨l', ls'⟩ := left₁
  · cases st₁ with
    | none =>
      simp only [wp_peek_nil, Option.isNone_none, if_true, wp_pure]
      exact ⟨_, _, by simpa using hu, hes', hps.last (by simp) he⟩
    | some c => simp
  · simp only [wp_skipMark, wp_peek_cons, Option.isNone_some, Option.map_some,
      Bool.false_eq_true, if_false]
    split
    · rename_i hl
      obtain rfl := Option.some.inj hl
      simp only [wp_next_cons, wp_pure]
      exact ⟨_, _, by simpa using hu, hes', hps.more (by simp) he⟩
    · trivial

theorem wp_program (d : Nat) (w : Words) : wp (program d) (fun e w' => w' = ⟨[], none⟩ ∧
    ∃ ps, Itemized Reads ";" ps w.left ∧ e = .block (ps.map Prod.snd)) (fun _ _ => True) w := by
  cases d with
  | zero => trivial
  | succ d =>
    simp only [program, wp_bind, wp_pure]
    refine wp_mono ((progresses_nextStatement d).wp_loop (fun _ _ => wp_nextStatement)
      ⟨[], [], rfl, rfl, .nil, fun _ v => by simp⟩) ?_ fun _ _ h => h
    rintro es w' ⟨hw', ps, hps, rfl⟩
    exact ⟨hw', ps, hps, by simp⟩

theorem takes_program (d : Nat) : Takes (program d) fun _ _ => True := by
  cases d with
  | zero => exact .throw _
  | succ d => exact ((progresses_nextStatement d).takes_loop []).bind fun _ _ _ => .pure trivial

end ExprLang
