import ExprLang.Proofs.Similar

/-!
# How deep reading nests

Reading fails with an error in the text, or runs out of depth, and that only if the depth is less
than a constant times the number of words (`Shallow`). Each production has its own constant: it
exceeds the constant of every production that it calls on the same words, and a call that comes
after a word was taken has five more to spare.

Quoting a bad target needs depth as well; a tree nests at most four levels a word
(`Reads.nesting_le`).
-/

namespace ExprLang
open TokenSource Grammar

theorem Listed.length_le {sep : String} {us : List (List Lexeme)} {u w : List Lexeme}
    (h : Listed sep us w) (hu : u ∈ us) : u.length ≤ w.length := by
  induction us generalizing w with
  | nil => cases hu
  | cons v us ih =>
    rcases h.cons_inv with ⟨rfl, rfl⟩ | ⟨w', rfl, hw'⟩
    · exact Nat.le_of_eq (congrArg List.length (List.mem_singleton.1 hu))
    · rcases List.mem_cons.1 hu with rfl | hu
      · simp
      · have := ih hw' hu
        simp only [List.length_append, List.length_cons]
        omega

theorem Expr.nestingAll_le {es : List Expr} {n : Nat} (h : ∀ e ∈ es, e.nesting ≤ n) :
    Expr.nestingAll es ≤ n := by
  induction es with
  | nil => exact Nat.zero_le n
  | cons e es ih =>
    obtain ⟨he, hes⟩ := List.forall_mem_cons.1 h
    exact Nat.max_le.2 ⟨he, ih hes⟩

theorem Expr.nesting_blockOf_le {es : List Expr} {n : Nat} (h : ∀ e ∈ es, e.nesting ≤ n) :
    (blockOf es).nesting ≤ n + 4 := by
  match es with
  | [] => show 3 ≤ n + 4; omega
  | [e] =>
    have := h e (List.mem_singleton_self e)
    show e.nesting ≤ n + 4
    omega
  | e :: e' :: es => exact Nat.add_le_add_right (Expr.nestingAll_le h) 4

theorem Reads.nesting_le {u : List Lexeme} {e : Expr} (h : Reads u e) :
    e.nesting ≤ 4 * u.length := by
  -- the items of a list, each from its own words
  have items : ∀ {ps : List (List Lexeme × Expr)} {w : List Lexeme},
      Listed "," (ps.map Prod.fst) w → (∀ p ∈ ps, p.2.nesting ≤ 4 * p.1.length) →
      ∀ e ∈ ps.map Prod.snd, e.nesting ≤ 4 * w.length := by
    intro ps w hw hps e he
    obtain ⟨p, hp, rfl⟩ := List.mem_map.1 he
    have h₁ := hps p hp
    have h₂ := hw.length_le (List.mem_map_of_mem hp)
    omega
  have then_le : ∀ {y v : List Lexeme}, Consequent y v → y.length ≤ v.length := by
    intro y v hv
    rcases hv with rfl | ⟨rfl, -⟩ <;> simp
  induction h with
  | number | text | name | yes | no => simp [Expr.nesting]
  | group _ ih =>
    simp only [List.length_append, List.length_cons]
    omega
  | block _ hw ih =>
    have := Expr.nesting_blockOf_le (items hw ih)
    simp only [List.length_append, List.length_cons]
    omega
  | cond _ _ hv ihc ihy =>
    have := then_le hv
    simp only [Expr.nesting, Expr.nestingElse, List.length_append, List.length_cons]
    omega
  | condElse _ _ hv _ ihc ihy ihn =>
    have := then_le hv
    simp only [Expr.nesting, Expr.nestingElse, List.length_append, List.length_cons]
    omega
  | function _ _ _ ih =>
    simp only [Expr.nesting, List.length_append, List.length_cons]
    omega
  | call _ _ hw ihu ih =>
    have := Expr.nestingAll_le (items hw ih)
    simp only [Expr.nesting, List.length_append, List.length_cons, List.length_nil]
    omega
  | assign _ _ ihu ihv =>
    simp only [Expr.nesting, List.length_append, List.length_cons] at ihu ⊢
    omega
  | binary _ _ _ _ ihu ihv =>
    simp only [Expr.nesting, List.length_append, List.length_cons]
    omega

section
variable {α β : Type}

/-- An error of reading: too deep, which may happen only if `S` holds, or an error in the text. -/
def ProperError (S : Prop) : Stop SourceError → Prop
  | .tooDeep => S
  | .error e => e.stage = .lexical ∨ e.stage = .parse

theorem ProperError.mono {S S' : Prop} {err : Stop SourceError} (h : ProperError S err)
    (hS : S → S') : ProperError S' err := by
  cases err with
  | tooDeep => exact hS h
  | error e => exact h

/-- The run of `x` on `w` goes too deep only if `S` holds. -/
abbrev Within (x : Reading Words α) (S : Prop) (w : Words) : Prop := FailsBy (ProperError S) x w

variable {S : Prop} {x : Reading Words α} {w : Words}

theorem Within.mono {S' : Prop} (h : Within x S w) (hS : S → S') : Within x S' w :=
  FailsBy.mono h fun _ h => h.mono hS

theorem within_tooDeep (h : S) : Within (throw .tooDeep : Reading Words α) S w := h

theorem Within.bind {P : List Lexeme → α → Prop} {f : α → Reading Words β} (h : Within x S w)
    (hx : Takes x P) (hf : ∀ u a w', w.left.length = u.length + w'.left.length → P u a →
      Within (f a) S w') : Within (x >>= f) S w :=
  FailsBy.bind h hx fun u a w' hp => hf u a w' hp.length

theorem within_loop {step : α → Reading Words (Option α)} {J : α → Words → Prop}
    {P : α → List Lexeme → Option α → Prop} (ht : ∀ a, Takes (step a) (P a))
    (hJ : ∀ {a b u w w'}, J a w → w.left.length = u.length + w'.left.length →
      P a u (some b) → J b w')
    (hstep : ∀ a w, J a w → Within (step a) S w) {a : α} (ha : J a w) :
    Within (loop step a) S w := by
  have hkeep : KeptBy J step := by
    intro a w ha
    refine wp_mono (ht a w) ?_ fun _ _ h => h
    rintro o w' ⟨u, hl, hs, hP⟩ b rfl
    exact hJ ha (Past.length ⟨hl, hs⟩) hP
  exact FailsBy.loop hkeep hstep ha

theorem Progresses.within_loop {step : α → Reading Words (Option α)} (hprog : Progresses step)
    {n : Nat} (hstep : ∀ a w', w'.left.length ≤ n → Within (step a) S w')
    (hw : w.left.length ≤ n) (a : α) : Within (loop step a) S w := by
  refine ExprLang.within_loop (J := fun _ w' => w'.left.length ≤ n) hprog ?_ hstep hw
  intro a b u w w' hle hu _
  omega

end

/-- Computations that never go too deep, whatever they are compared to. Single tokens are read so;
no two depths are compared, so nothing is said of productions. -/
def flat : Stepwise Words where
  rel V x _ := ∀ w, wp x (fun a _ => ∃ b, V a b) (fun err _ => ProperError False err) w
  token := Eq
  lexeme := @lexeme_of_eq
  depths _ _ := False
  depths_le := False.elim
  depths_pred := False.elim
  pure h _ := ⟨_, h⟩
  bind h hf w := by
    rw [wp_bind]
    refine wp_mono (h w) ?_ fun _ _ h => h
    rintro a w' ⟨b, hab⟩
    exact hf a b hab w'
  tooDeep h := h.elim
  peek := by
    rintro ⟨_ | ⟨l, ls⟩, _ | c⟩
    case nil.some => exact .inl rfl
    all_goals exact ⟨_, optionRel_refl (fun _ => rfl) _⟩
  next := by
    rintro ⟨_ | ⟨l, ls⟩, _ | c⟩
    case nil.some => exact .inl rfl
    all_goals exact ⟨_, optionRel_refl (fun _ => rfl) _⟩
  loop {α step step'} a hstep _ w := by
    rw [wp_loop]
    generalize size w + 1 = n
    induction n generalizing a w with
    | zero => exact ⟨a, rfl⟩
    | succ n ih =>
      rw [iterate, wp_bind]
      refine wp_mono (hstep a w) (fun o w' _ => ?_) fun _ _ h => h
      cases o with
      | none => exact ⟨a, rfl⟩
      | some b => exact ih b w'
  fail c t t' _ w := by cases t <;> exact .inr rfl

theorem within_of_flat {α : Type} {x : Reading Words α} {S : Prop} {w : Words}
    (h : flat.rel Eq x x) : Within x S w :=
  wp_mono (h w) (fun _ _ _ => trivial) fun _ _ h => h.mono False.elim

/-! ### Productions -/

/-- How deep the productions go, when they have the depth `d` left. -/
structure Shallow (d : Nat) : Prop where
  expression : ∀ w, Within (expression d) (d < 5 * w.left.length + 5) w
  atom : ∀ w, Within (atom d) (d < 5 * w.left.length + 4) w
  primary : ∀ w, Within (primary d) (d < 5 * w.left.length + 3) w
  block : ∀ w, Within (block d) (d < 5 * w.left.length + 2) w
  conditional : ∀ w, Within (conditional d) (d < 5 * w.left.length + 1) w
  function : ∀ w, Within (function d) (d < 5 * w.left.length + 1) w
  arguments : ∀ callee w, Within (arguments d callee) (d < 5 * w.left.length + 2) w
  calls : ∀ callee w, Within (calls d callee) (d < 5 * w.left.length + 3) w
  climb : ∀ bound left u w, Reads u left →
    Within (climb d bound left) (d < 5 * (u.length + w.left.length) + 4) w

theorem within_nextItem {α : Type} {stop sep : String} {item : Reading Words α} {S : Prop}
    (ht : Takes item fun u _ => u ≠ []) {n : Nat}
    (hitem : ∀ w, w.left.length ≤ n → Within item S w) (items : List α) (w : Words)
    (hw : w.left.length ≤ n) : Within (nextItem stop sep item items) S w := by
  refine (within_of_flat flat.atEnd).bind takes_atEnd fun u₁ _ w₁ h₁ _ => ?_
  refine .ite (fun _ => .pure) fun _ => ?_
  refine (within_of_flat (flat.atMark stop)).bind (takes_atMark stop) fun u₂ _ w₂ h₂ _ => ?_
  refine .ite (fun _ => .pure) fun _ => ?_
  have hskip : Within (skipSeparator sep items.isEmpty) S w₂ :=
    .ite (fun _ => .pure) fun _ => within_of_flat (flat.skipMark sep)
  refine hskip.bind (takes_skipSeparator items) fun u₃ _ w₃ h₃ _ => ?_
  refine (within_of_flat (flat.atMark stop)).bind (takes_atMark stop) fun u₄ _ w₄ h₄ _ => ?_
  refine .ite (fun _ => .pure) fun _ => ?_
  exact (hitem w₄ (by omega)).bind ht fun _ _ _ _ _ => .pure

/-- The items of a list stand behind the mark that begins it. -/
theorem within_delimited {α : Type} {start stop sep : String} {item : Reading Words α} {S : Prop}
    {w : Words} (ht : Takes item fun u _ => u ≠ [])
    (hitem : ∀ w', w'.left.length + 1 ≤ w.left.length → Within item S w') :
    Within (delimited start stop sep item) S w := by
  refine (within_of_flat (flat.skipMark start)).bind (takes_skipMark start) fun u₀ _ w₀ h₀ hu₀ => ?_
  rw [hu₀, List.length_singleton] at h₀
  have hloop : Within (loop (nextItem stop sep item) []) S w₀ :=
    (progresses_nextItem stop sep ht).within_loop
      (within_nextItem ht fun w' hw' => hitem w' (by omega)) (Nat.le_refl _) []
  refine hloop.bind ((progresses_nextItem stop sep ht).takes_loop []) fun _ _ w₁ _ _ => ?_
  exact (within_of_flat (flat.skipMark stop)).bind (takes_skipMark stop) fun _ _ _ _ _ =>
    .pure

namespace Shallow
variable {d : Nat}

theorem expression_succ (h : Shallow d) (w : Words) :
    Within (Grammar.expression (d + 1)) (d + 1 < 5 * w.left.length + 5) w := by
  unfold Grammar.expression
  refine ((h.atom w).mono (by omega)).bind (sound d).atom fun u₁ left w₁ h₁ hleft => ?_
  refine ((h.climb 0 left u₁ w₁ hleft).mono (by omega)).bind ((sound d).climb 0 left)
    fun u₂ e w₂ h₂ _ => ?_
  exact (h.calls e w₂).mono (by omega)

theorem atom_succ (h : Shallow d) (w : Words) :
    Within (Grammar.atom (d + 1)) (d + 1 < 5 * w.left.length + 4) w := by
  unfold Grammar.atom
  refine ((h.primary w).mono (by omega)).bind (sound d).primary fun u₁ e w₁ h₁ _ => ?_
  exact (h.calls e w₁).mono (by omega)

theorem primary_succ (h : Shallow d) (w : Words) :
    Within (Grammar.primary (d + 1)) (d + 1 < 5 * w.left.length + 3) w := by
  obtain ⟨_ | ⟨l, ls⟩, st⟩ := w
  · cases st with
    | none => exact .inr rfl
    | some c => exact .inl rfl
  -- the productions that come after the first word
  have after : ∀ {x : Reading Words Expr}, Within x (d < 5 * ls.length + 5) ⟨ls, st⟩ →
      Within (do discard next; x) (d + 1 < 5 * (ls.length + 1) + 3) ⟨l :: ls, st⟩ := by
    intro x hx
    simp only [Within, FailsBy, wp_bind, wp_discard, wp_next_cons]
    exact hx.mono (by omega)
  have here : ∀ {x : Reading Words Expr}, Within x (d < 5 * (ls.length + 1) + 2) ⟨l :: ls, st⟩ →
      Within x (d + 1 < 5 * (ls.length + 1) + 3) ⟨l :: ls, st⟩ := fun hx => hx.mono (by omega)
  rw [Within, FailsBy, Grammar.primary]
  simp only [wp_bind, wp_peek_cons, Option.map_some]
  split <;> (try obtain rfl := Option.some.inj ‹_›)
  · refine after ((h.expression ⟨ls, st⟩).bind (sound d).expression fun _ _ _ _ _ => ?_)
    exact (within_of_flat (flat.skipMark ")")).bind (takes_skipMark ")") fun _ _ _ _ _ =>
      .pure
  · exact here (h.block _)
  · exact here ((h.conditional ⟨_ :: ls, st⟩).mono fun hd => Nat.lt_succ_of_lt hd)
  · exact within_of_flat flat.simulation.truth
  · exact within_of_flat flat.simulation.truth
  · exact after ((h.function ⟨ls, st⟩).mono fun hd => Nat.lt_of_lt_of_le hd (by simp))
  · exact after ((h.function ⟨ls, st⟩).mono fun hd => Nat.lt_of_lt_of_le hd (by simp))
  · exact after .pure
  · exact after .pure
  · exact after .pure
  · exact within_of_flat flat.unexpected

theorem block_succ (h : Shallow d) (w : Words) :
    Within (Grammar.block (d + 2)) (d + 2 < 5 * w.left.length + 2) w := by
  unfold Grammar.block
  refine (within_delimited (takes_expression_ne_nil d) fun w' hw' => ?_).bind
    (takes_delimited (sound d).expression _ _) fun _ _ _ _ _ => .pure
  exact (h.expression w').mono (by omega)

theorem arguments_succ (h : Shallow d) (callee : Expr) (w : Words) :
    Within (Grammar.arguments (d + 2) callee) (d + 2 < 5 * w.left.length + 2) w := by
  unfold Grammar.arguments
  refine (within_delimited (takes_expression_ne_nil d) fun w' hw' => ?_).bind
    (takes_delimited (sound d).expression _ _) fun _ _ _ _ _ => .pure
  exact (h.expression w').mono (by omega)

theorem function_succ (h : Shallow d) (w : Words) :
    Within (Grammar.function (d + 1)) (d + 1 < 5 * w.left.length + 1) w := by
  unfold Grammar.function
  refine (within_of_flat (flat.simulation.names _ _ _)).bind
    (takes_delimited takes_variableName _ _) fun u params w₁ h₁ hu => ?_
  obtain ⟨ps, v, -, -, rfl⟩ := hu
  simp only [List.length_append, List.length_cons] at h₁
  exact ((h.expression w₁).mono (by omega)).bind (sound d).expression fun _ _ _ _ _ => .pure

theorem conditional_succ (h : Shallow d) (w : Words) :
    Within (Grammar.conditional (d + 1)) (d + 1 < 5 * w.left.length + 1) w := by
  unfold Grammar.conditional
  refine (within_of_flat (flat.skipKeyword "if")).bind (takes_skipKeyword "if")
    fun u₀ _ w₀ h₀ hu₀ => ?_
  rw [hu₀, List.length_singleton] at h₀
  have hexpr : ∀ w', w'.left.length ≤ w₀.left.length →
      Within (Grammar.expression d) (d + 1 < 5 * w.left.length + 1) w' :=
    fun w' hw' => (h.expression w').mono (by omega)
  have shorter : ∀ {u : List Lexeme} {w' w'' : Words},
      w'.left.length = u.length + w''.left.length → w'.left.length ≤ w₀.left.length →
      w''.left.length ≤ w₀.left.length := by
    intro u w' w'' hu hle
    omega
  refine (hexpr w₀ (Nat.le_refl _)).bind (sound d).expression fun u₁ test w₁ h₁ _ => ?_
  have hle₁ := shorter h₁ (Nat.le_refl _)
  have rest : ∀ w', w'.left.length ≤ w₀.left.length → Within (do
      let yes ← Grammar.expression d
      if ← atKeyword "else" then
        discard next
        return Expr.cond test yes (some (← Grammar.expression d))
      return Expr.cond test yes none) (d + 1 < 5 * w.left.length + 1) w' := by
    intro w' hw'
    refine (hexpr w' hw').bind (sound d).expression fun u₂ yes w₂ h₂ _ => ?_
    have hle₂ := shorter h₂ hw'
    refine (within_of_flat (flat.atKeyword "else")).bind (takes_atKeyword "else")
      fun u₃ _ w₃ h₃ _ => ?_
    have hle₃ := shorter h₃ hle₂
    refine .ite (fun _ => ?_) fun _ => .pure
    refine (within_of_flat flat.discard).bind takes_discard fun u₄ _ w₄ h₄ _ => ?_
    exact (hexpr w₄ (shorter h₄ hle₃)).bind (sound d).expression fun _ _ _ _ _ => .pure
  refine (within_of_flat (flat.atMark "\x7b")).bind (takes_atMark "\x7b") fun u₂ _ w₂ h₂ _ => ?_
  have hle₂ := shorter h₂ hle₁
  refine .ite (fun _ => rest w₂ hle₂) fun _ => ?_
  refine (within_of_flat (flat.skipKeyword "then")).bind (takes_skipKeyword "then")
    fun u₃ _ w₃ h₃ _ => ?_
  exact rest w₃ (shorter h₃ hle₂)

theorem calls_succ (h : Shallow d) (callee : Expr) (w : Words) :
    Within (Grammar.calls (d + 1) callee) (d + 1 < 5 * w.left.length + 3) w := by
  unfold Grammar.calls
  refine (progresses_nextCall d).within_loop (fun f w' hw' => ?_) (Nat.le_refl _) callee
  refine (within_of_flat (flat.atMark "(")).bind (takes_atMark "(") fun u₁ _ w₁ h₁ _ => ?_
  refine .ite (fun _ => ?_) fun _ => .pure
  exact ((h.arguments f w₁).mono (by omega)).bind ((sound d).arguments f)
    fun _ _ _ _ _ => .pure

theorem within_join {S : Prop} {t : Token} {op : String} {left right : Expr} {w : Words}
    (hS : d < left.nesting → S) : Within (join d t op left right) S w := by
  unfold join
  refine .ite (fun _ => ?_) fun _ => .pure
  split
  · exact .pure
  refine .ite (fun _ => within_of_flat (flat.fail _ (.some rfl))) fun hn => ?_
  exact within_tooDeep (hS (by omega))

theorem nextOperation_within (h : Shallow d) {bound : Nat} {left : Expr} {u : List Lexeme}
    (hu : Reads u left) (w : Words) : Within (nextOperation d (Grammar.atom d) (Grammar.climb d)
      bound left) (d + 1 < 5 * (u.length + w.left.length) + 4) w := by
  unfold nextOperation
  have hnest := hu.nesting_le
  obtain ⟨_ | ⟨l, ls⟩, st⟩ := w
  · cases st with
    | none => exact trivial
    | some c => exact .inl rfl
  cases l with
  | operator op =>
    rw [Within, FailsBy, wp_bind, wp_operator?_cons]
    simp only [Lexeme.value]
    split
    · trivial
    rename_i p hp
    rw [wp_ite]
    split
    · trivial
    rw [wp_bind, wp_discard, wp_next_cons]
    refine ((h.atom ⟨ls, st⟩).mono ?_).bind (sound d).atom fun u₁ operand w₁ h₁ hoperand => ?_
    · simp only [List.length_cons]
      omega
    simp only [List.length_cons] at h₁ ⊢
    refine ((h.climb _ operand u₁ w₁ hoperand).mono (by omega)).bind ((sound d).climb _ operand)
      fun _ right w₂ _ _ => ?_
    rw [Within, FailsBy, wp_bind]
    exact wp_mono (within_join fun hlt => by omega) (fun _ _ _ => trivial) fun _ _ h => h
  | _ =>
    rw [Within, FailsBy, wp_bind, wp_operator?_of_not rfl]
    trivial

theorem climb_succ (h : Shallow d) (bound : Nat) (left : Expr) (u : List Lexeme) (w : Words)
    (hu : Reads u left) : Within (Grammar.climb (d + 1) bound left)
      (d + 1 < 5 * (u.length + w.left.length) + 4) w := by
  unfold Grammar.climb
  -- what is read of the chain grows by what is taken off the words
  refine within_loop (J := fun e w' => ∃ v, Reads v e ∧
    v.length + w'.left.length = u.length + w.left.length)
    ((sound d).extending_nextOperation bound) ?_ ?_ ⟨u, hu, rfl⟩
  · rintro e e' v' w₁ w₂ ⟨v, hv, hlen⟩ hw ⟨-, hext⟩
    refine ⟨v ++ v', hext v hv, ?_⟩
    rw [List.length_append]
    omega
  · rintro e w' ⟨v, hv, hlen⟩
    exact hlen ▸ h.nextOperation_within hv w'

end Shallow

theorem shallow (d : Nat) : Shallow d := by
  induction d using Nat.strongRecOn with
  | ind d ih =>
    match d with
    | 0 => constructor <;> intros <;> exact within_tooDeep (by omega)
    | 1 =>
      have h := ih 0 (by omega)
      exact ⟨h.expression_succ, h.atom_succ, h.primary_succ, fun w => within_tooDeep (by omega),
        h.conditional_succ, h.function_succ, fun _ w => within_tooDeep (by omega), h.calls_succ,
        h.climb_succ⟩
    | d + 2 =>
      have h := ih (d + 1) (by omega)
      have h' := ih d (by omega)
      exact ⟨h.expression_succ, h.atom_succ, h.primary_succ, h'.block_succ, h.conditional_succ,
        h.function_succ, h'.arguments_succ, h.calls_succ, h.climb_succ⟩

theorem within_program (d : Nat) (w : Words) :
    Within (program d) (d < 5 * w.left.length + 6) w := by
  cases d with
  | zero => exact within_tooDeep (by omega)
  | succ d =>
    unfold program
    have hround : ∀ items w', w'.left.length ≤ w.left.length →
        Within (nextStatement (expression d) items) (d + 1 < 5 * w.left.length + 6) w' := by
      intro items w' hw'
      refine (within_of_flat flat.atEnd).bind takes_atEnd fun u₁ _ w₁ h₁ _ => ?_
      refine .ite (fun _ => .pure) fun _ => ?_
      refine (((shallow d).expression w₁).mono (by omega)).bind (sound d).expression
        fun u₂ _ w₂ h₂ _ => (within_of_flat flat.atEnd).bind takes_atEnd fun u₃ _ w₃ h₃ _ => ?_
      refine .ite (fun _ => .pure) fun _ => ?_
      exact (within_of_flat (flat.skipMark ";")).bind (takes_skipMark ";") fun _ _ _ _ _ =>
        .pure
    exact ((progresses_nextStatement d).within_loop hround (Nat.le_refl _) []).bind
      ((progresses_nextStatement d).takes_loop []) fun _ _ _ _ _ => .pure

theorem Words.properError_of_parse {limit : Nat} {w : Words} {err : Stop SourceError}
    (h : w.parse limit = .error err) : ProperError (limit < 5 * w.left.length + 6) err := by
  have hrun := within_program limit w
  unfold Words.parse at h
  cases hr : program limit w with
  | ok tree w' => rw [hr] at h; cases h
  | error err' w' =>
    rw [hr] at h
    cases h
    exact (wp_iff_of_error hr).1 hrun

/-- With depth enough for its words, a program is read or refused for what it says. -/
theorem Words.parse_ne_tooDeep {limit : Nat} {w : Words} (h : 5 * w.left.length + 6 ≤ limit) :
    w.parse limit ≠ .error .tooDeep := by
  intro hdeep
  have hlt : limit < 5 * w.left.length + 6 := properError_of_parse hdeep
  omega

/-- An error in a text that is not for want of depth is lexical or of the parser. -/
theorem stage_of_parse {limit : Nat} {text : String} {err : SourceError}
    (h : parse limit text = .error (.error err)) : err.stage = .lexical ∨ err.stage = .parse := by
  obtain ⟨ts, e, hs⟩ := Holds.exists_of_lookahead (.ofText text) rfl
  rw [hs.parse_eq] at h
  cases hw : (Words.ofTokens ts e).parse limit with
  | ok tree => rw [hw] at h; cases h
  | error err' =>
    rw [hw] at h
    cases err' with
    | tooDeep => cases h
    | error err' =>
      cases h
      exact Words.properError_of_parse hw

end ExprLang
