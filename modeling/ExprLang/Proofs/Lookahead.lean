import ExprLang.Proofs.Viability

/-!
# Nothing is read beyond the word in question

Two runs begin with the same words `p`, and go on with `r` in the one and with `r'` in the other. As
long as the first has not come to `r`, neither has the second, and they do the same: if the first
stops with some of `p` left, or complains of a word of `p`, so does the second. Once the first has
come to `r`, it neither gives words back nor complains of earlier ones (`Modest`).
-/

namespace ExprLang
open TokenSource Grammar

section
variable {α β α' β' : Type}

/-- A run leaves no more words than there were, and complains of none that it has not got. -/
def Modest (P : α → Prop) (x : Reading Words α) : Prop :=
  ∀ w, wp x (fun a w' => P a ∧ w'.left.length ≤ w.left.length) (fun err _ => ∀ c n, c.IsMisfit →
    err = .error (.at .parse c n 0) → n ≤ w.left.length) w

theorem Modest.bind {P : α → Prop} {P' : α' → Prop} {x : Reading Words α}
    {f : α → Reading Words α'} (h : Modest P x) (hf : ∀ a, P a → Modest P' (f a)) :
    Modest P' (x >>= f) := by
  intro w
  rw [wp_bind]
  refine wp_mono (h w) ?_ fun _ _ h => h
  rintro a w₁ ⟨ha, hle⟩
  refine wp_mono (hf a ha w₁) ?_ ?_
  · rintro b w₂ ⟨hb, hle'⟩
    exact ⟨hb, Nat.le_trans hle' hle⟩
  · intro err _ herr c n hc he
    exact Nat.le_trans (herr c n hc he) hle

theorem modest_pure {P : α → Prop} {a : α} (h : P a) : Modest P (pure a) :=
  fun _ => ⟨h, Nat.le_refl _⟩

/-- What a computation takes and complains of makes it modest. -/
theorem Takes.modest {L : List Lexeme → Prop} {Q : List Lexeme → α → Prop} {P : α → Prop}
    {x : Reading Words α} (h : Takes x Q) (hv : Viable x L) (hP : ∀ u a, Q u a → P a) :
    Modest P x := by
  intro w
  have htakes := h w
  have hviable := hv w
  cases hr : x w with
  | ok a w' =>
    rw [wp_iff_of_ok hr] at htakes ⊢
    obtain ⟨u, hu, -, ha⟩ := htakes
    exact ⟨hP u a ha, by simp [hu]⟩
  | error err w' =>
    rw [Heeds, FailsBy, wp_iff_of_error hr] at hviable
    rw [wp_iff_of_error hr]
    rintro c n hc rfl
    generalize herr : (Stop.error (SourceError.at .parse c n 0)) = err at hviable
    cases hviable with
    | tooDeep | lexical => cases herr
    | target hw =>
      cases herr
      exact hc.elim
    | @word c' u v hc' hw hend hu =>
      have hn : n = v.length := Int.ofNat.inj (congrArg SourceError.line (Stop.error.inj herr))
      rw [hn, hw, List.length_append]
      omega

theorem modest_iterate {step : α → Reading Words (Option α)}
    (hstep : ∀ a, Modest (fun _ => True) (step a)) (n : Nat) (a : α) :
    Modest (fun _ => True) (iterate step n a) := by
  induction n generalizing a with
  | zero => exact fun _ => ⟨trivial, Nat.le_refl _⟩
  | succ n ih =>
    refine (hstep a).bind fun o _ => ?_
    cases o with
    | none => exact fun _ => ⟨trivial, Nat.le_refl _⟩
    | some b => exact ih b

section
variable (r r' : List Lexeme) (st st' : Option Char)

/-- Of the words `p` in front of `r` and of `r'`, the two runs make the same. -/
def Local (p : List Lexeme) (V : α → β → List Lexeme → Prop) (x : Reading Words α)
    (y : Reading Words β) : Prop :=
  wp x
    (fun a w => r.length < w.left.length → ∃ q, w = ⟨q ++ r, st⟩ ∧
      wp y (fun b w' => w' = ⟨q ++ r', st'⟩ ∧ V a b q) (fun _ _ => False) ⟨p ++ r', st'⟩)
    (fun err _ => ∀ c n, c.IsMisfit → err = .error (.at .parse c n 0) → r.length < n →
      wp y (fun _ _ => False) (fun err' _ => ∃ n', err' = .error (.at .parse c n' 0))
        ⟨p ++ r', st'⟩) ⟨p ++ r, st⟩

variable {r r' st st'} {p : List Lexeme} {V : α → β → List Lexeme → Prop}
  {V' : α' → β' → List Lexeme → Prop} {x : Reading Words α} {y : Reading Words β}

/-- A run that has come to `r` owes nothing. -/
theorem local_of_short {P : α → Prop} {w : Words} (h : Modest P x) (hw : w.left.length ≤ r.length)
    {Q : α → Words → Prop} {B : Complaint → Prop} :
    wp x (fun a w' => r.length < w'.left.length → Q a w') (fun err _ => ∀ c n, c.IsMisfit →
      err = .error (.at .parse c n 0) → r.length < n → B c) w := by
  refine wp_mono (h w) ?_ ?_
  · rintro a w' ⟨-, hle⟩ hlt
    omega
  · intro err _ herr c n hc he hlt
    have hle := herr c n hc he
    omega

theorem local_nil {P : α → Prop} (h : Modest P x) : Local r r' st st' [] V x y :=
  local_of_short h (Nat.le_refl _)

theorem Local.bind {P : α → Prop} (P' : α' → Prop) {f : α → Reading Words α'}
    {g : β → Reading Words β'} (h : Local r r' st st' p V x y) (hx : Modest P x)
    (hmodest : ∀ a, P a → Modest P' (f a))
    (hf : ∀ a b q, V a b q → Local r r' st st' q V' (f a) (g b)) :
    Local r r' st st' p V' (x >>= f) (y >>= g) := by
  unfold Local at h ⊢
  have hx := hx ⟨p ++ r, st⟩
  cases hr : x ⟨p ++ r, st⟩ with
  | error err w =>
    rw [wp_iff_of_error hr] at h
    rw [wp_iff_of_error (bind_of_error hr)]
    intro c n hc he hlt
    have hy := h c n hc he hlt
    cases hr' : y ⟨p ++ r', st'⟩ with
    | ok b w' => exact ((wp_iff_of_ok hr').1 hy).elim
    | error err' w' =>
      rw [wp_iff_of_error hr'] at hy
      rw [wp_iff_of_error (bind_of_error hr')]
      exact hy
  | ok a w =>
    rw [wp_iff_of_ok hr] at h hx
    rw [wp, bind_of_ok hr]
    by_cases hlt : r.length < w.left.length
    · obtain ⟨q, rfl, hy⟩ := h hlt
      cases hr' : y ⟨p ++ r', st'⟩ with
      | error err' w' => exact ((wp_iff_of_error hr').1 hy).elim
      | ok b w' =>
        obtain ⟨rfl, hV⟩ := (wp_iff_of_ok hr').1 hy
        have hrest := hf a b q hV
        simpa only [Local, wp, bind_of_ok hr'] using hrest
    · exact local_of_short (hmodest a hx.1) (Nat.not_lt.1 hlt)

theorem Local.takes {P : List Lexeme → β → Prop} (h : Local r r' st st' p V x y)
    (hy : Takes y P) :
    Local r r' st st' p (fun a b q => V a b q ∧ ∃ u, p = u ++ q ∧ P u b) x y := by
  refine wp_mono h ?_ fun _ _ h => h
  intro a w hw hlt
  obtain ⟨q, rfl, hrun⟩ := hw hlt
  refine ⟨q, rfl, ?_⟩
  have htakes := hy ⟨p ++ r', st'⟩
  cases hr : y ⟨p ++ r', st'⟩ with
  | error err w' => exact ((wp_iff_of_error hr).1 hrun).elim
  | ok b w' =>
    obtain ⟨rfl, hV⟩ := (wp_iff_of_ok hr).1 hrun
    obtain ⟨u, hu, -, hP⟩ := (wp_iff_of_ok hr).1 htakes
    have hp : p = u ++ q := by
      rw [← List.append_assoc] at hu
      exact List.append_cancel_right hu
    exact (wp_iff_of_ok hr).2 ⟨rfl, hV, u, hp, hP⟩

theorem local_pure {a : α} {b : β} (h : V a b p) : Local r r' st st' p V (pure a) (pure b) :=
  fun _ => ⟨p, rfl, rfl, h⟩

theorem modest_peek {P : Option Token → Prop} (h : ∀ t, P t) : Modest P peek :=
  takes_peek.modest (L := fun _ => True) (fun _ => heeds_peek (.refl _)) fun _ t _ => h t

theorem local_peek : Local r r' st st' p
    (fun a b _ => Option.Rel (fun t t' => t'.lexeme = t.lexeme) a b) peek peek := by
  cases p with
  | nil => exact local_nil (modest_peek (P := fun _ => True) fun _ => trivial)
  | cons l p => exact fun _ => ⟨l :: p, rfl, rfl, .some rfl⟩

theorem modest_next {P : Option Token → Prop} (h : ∀ t, P t) : Modest P next := by
  rintro ⟨_ | ⟨l, ls⟩, _ | c⟩
  · exact ⟨h _, Nat.le_refl _⟩
  · intro c' n hc he
    cases he
  all_goals exact ⟨h _, Nat.le_succ _⟩

theorem local_next : Local r r' st st' p
    (fun a b _ => Option.Rel (fun t t' => t'.lexeme = t.lexeme) a b) next next := by
  cases p with
  | nil => exact local_nil (modest_next (P := fun _ => True) fun _ => trivial)
  | cons l p => exact fun _ => ⟨p, rfl, rfl, .some rfl⟩

theorem Expects.wp_cons_self {l : Lexeme} {c : Complaint} {x : Reading Words Unit}
    (hx : Expects l c x) {Q : Unit → Words → Prop} {B : Stop SourceError → Words → Prop}
    {ls : List Lexeme} {st : Option Char} (h : Q () ⟨ls, st⟩) : wp x Q B ⟨l :: ls, st⟩ := by
  rw [hx, wp_peek_cons, Option.map_some, if_pos rfl]
  exact h

theorem Expects.wp_cons_of_ne {l l' : Lexeme} {c : Complaint} {x : Reading Words Unit}
    (hx : Expects l c x) (hl : l' ≠ l) {Q : Unit → Words → Prop}
    {B : Stop SourceError → Words → Prop} {ls : List Lexeme} {st : Option Char}
    (h : B (.error (.at .parse c (ls.length + 1) 0)) ⟨l' :: ls, st⟩) :
    wp x Q B ⟨l' :: ls, st⟩ := by
  rw [hx, wp_peek_cons, if_neg (by simpa using hl)]
  exact h

theorem local_of_expects {l : Lexeme} {c : Complaint} {x y : Reading Words Unit}
    (hx : Expects l c x) (hy : Expects l c y) (hmodest : Modest (fun _ => True) x) :
    Local r r' st st' p (fun a b _ => a = b) x y := by
  cases p with
  | nil => exact local_nil hmodest
  | cons l' p =>
    by_cases hl : l' = l
    · subst hl
      exact hx.wp_cons_self fun _ => ⟨p, rfl, hy.wp_cons_self ⟨rfl, rfl⟩⟩
    · refine hx.wp_cons_of_ne hl ?_
      intro c' n hc he hlt
      cases he
      exact hy.wp_cons_of_ne hl ⟨_, rfl⟩

theorem modest_of_expects {l : Lexeme} {c : Complaint} {x : Reading Words Unit}
    (hx : Expects l c x) (hc : c.IsMisfit) (ht : Takes x fun u _ => u = [l]) {P : Unit → Prop}
    (h : P ()) : Modest P x :=
  ht.modest (L := fun _ => True) (fun w => heeds_of_expects hx hc (.refl w) ⟨[], trivial⟩)
    fun _ _ _ => h

theorem modest_variableName {P : String → Prop} (h : ∀ n, P n) : Modest P variableName :=
  takes_variableName.modest viable_variableName fun _ n _ => h n

theorem local_variableName :
    Local r r' st st' p (fun a b _ => a = b) variableName variableName := by
  cases p with
  | nil => exact local_nil (modest_variableName (P := fun _ => True) fun _ => trivial)
  | cons l p =>
    by_cases hl : ∃ n, l = .name n
    · obtain ⟨n, rfl⟩ := hl
      exact fun _ => ⟨p, rfl, rfl, rfl⟩
    · have hfail : ∀ ls st, variableName (⟨l :: ls, st⟩ : Words) =
          .error (.error (.at .parse .expectedName (ls.length + 1) 0)) ⟨ls, st⟩ := by
        intro ls st
        cases l with
        | name n => exact absurd ⟨n, rfl⟩ hl
        | _ => rfl
      refine (wp_iff_of_error (hfail (p ++ r) st)).2 ?_
      intro c n hc he hlt
      cases he
      exact (wp_iff_of_error (hfail (p ++ r') st')).2 ⟨_, rfl⟩

theorem modest_unexpected {P : α → Prop} : Modest P (unexpected : Reading Words α) := by
  have htakes : Takes (unexpected : Reading Words α) fun _ a => P a :=
    takes_peek.bind fun _ t _ => .fail _ t
  exact htakes.modest (L := fun _ => True)
    (fun w => heeds_unexpected (.refl w) ⟨[], trivial⟩) fun _ _ h => h

theorem local_unexpected : Local r r' st st' p V (unexpected : Reading Words α)
    (unexpected : Reading Words β) := by
  cases p with
  | nil => exact local_nil (modest_unexpected (P := fun _ => True))
  | cons l p =>
    intro c n hc he hlt
    cases he
    exact ⟨_, rfl⟩

theorem local_iterate {step step' : α → Reading Words (Option α)}
    (hmodest : ∀ a, Modest (fun _ => True) (step a))
    (hstep : ∀ a p, Local r r' st st' p (fun o o' _ => o = o') (step a) (step' a))
    (hprog : Progresses step') (n m : Nat) (a : α) (hn : (p ++ r).length < n)
    (hm : (p ++ r').length < m) :
    Local r r' st st' p (fun b b' _ => b = b') (iterate step n a) (iterate step' m a) := by
  induction n generalizing m a p with
  | zero => omega
  | succ n ih =>
    obtain _ | m := m
    · omega
    refine ((hstep a p).takes (hprog a)).bind (fun _ => True) (hmodest a) ?_ ?_
    · intro o _
      cases o with
      | none => exact modest_pure trivial
      | some b => exact modest_iterate hmodest n b
    · rintro o o' q ⟨rfl, u, rfl, hne⟩
      cases o with
      | none => exact local_pure rfl
      | some b =>
        have hpos := List.length_pos_iff.2 (hne rfl)
        simp only [List.length_append] at hn hm
        exact ih m b (by simp only [List.length_append]; omega)
          (by simp only [List.length_append]; omega)

end

theorem sameLexeme_refl (t : Option Token) : Option.Rel (fun t t' => t'.lexeme = t.lexeme) t t := by
  refine optionRel_refl ?_ t
  exact fun _ => rfl

/-- The words `r` are none of the business of a run that complains of an earlier one. -/
def Simulation.ahead (r r' : List Lexeme) (st st' : Option Char) : Simulation Words where
  rel {α β} V x y := Modest (fun a => ∃ b, V a b) x ∧
    ∀ p, Local r r' st st' p (fun a b _ => V a b) x y
  token t t' := t'.lexeme = t.lexeme
  lexeme h := h
  depths := Eq
  depths_le := Nat.le_of_eq
  depths_pred := Nat.succ.inj
  pure h := ⟨modest_pure ⟨_, h⟩, fun _ => local_pure h⟩
  bind h hf := by
    refine ⟨h.1.bind fun a ⟨b, hab⟩ => (hf a b hab).1, fun p => ?_⟩
    exact (h.2 p).bind _ h.1 (fun a ⟨b, hab⟩ => (hf a b hab).1) fun a b q hab => (hf a b hab).2 q
  tooDeep hd hy := by
    rw [hy hd.symm]
    exact ⟨fun _ => nofun, fun _ => nofun⟩
  peek := ⟨modest_peek fun t => ⟨t, sameLexeme_refl t⟩, fun _ => local_peek⟩
  next := ⟨modest_next fun t => ⟨t, sameLexeme_refl t⟩, fun _ => local_next⟩
  skipMark m := by
    have hx : ∀ {σ : Type} [TokenSource σ], Expects (.mark m) (.expectedMark m)
      (Grammar.skipMark m : Reading σ Unit) := fun _ _ _ => wp_skipMark
    exact ⟨modest_of_expects hx trivial (takes_skipMark m) ⟨(), rfl⟩,
      fun _ => local_of_expects hx hx (modest_of_expects hx trivial (takes_skipMark m) trivial)⟩
  skipKeyword k := by
    have hx : ∀ {σ : Type} [TokenSource σ], Expects (.keyword k) (.expectedKeyword k)
      (Grammar.skipKeyword k : Reading σ Unit) := fun _ _ _ => wp_skipKeyword
    exact ⟨modest_of_expects hx trivial (takes_skipKeyword k) ⟨(), rfl⟩,
      fun _ => local_of_expects hx hx (modest_of_expects hx trivial (takes_skipKeyword k) trivial)⟩
  variableName := ⟨modest_variableName fun n => ⟨n, rfl⟩, fun _ => local_variableName⟩
  unexpected := ⟨modest_unexpected, fun _ => local_unexpected⟩
  badTarget e h := by
    have no : ∀ {t : Token} {c : Complaint} {n : Nat}, c.IsMisfit →
        Stop.error (SourceError.at .parse (.badTarget e) t.line t.column) ≠
          .error (.at .parse c n 0) := by
      intro t c n hc he
      obtain rfl : .badTarget e = c := congrArg SourceError.complaint (Stop.error.inj he)
      exact hc
    exact ⟨fun _ c n hc he => (no hc he).elim, fun _ c n hc he => (no hc he).elim⟩
  loop a hstep hprog := by
    have hmodest : ∀ b, Modest (fun _ => True) _ := fun b w =>
      wp_mono ((hstep b).1 w) (fun _ _ h => ⟨trivial, h.2⟩) fun _ _ h => h
    refine ⟨fun w => ?_, fun p => ?_⟩
    · rw [wp_loop]
      exact wp_mono (modest_iterate hmodest _ a w) (fun b _ h => ⟨⟨b, rfl⟩, h.2⟩) fun _ _ h => h
    · rw [Local, wp_loop]
      simp only [wp_loop]
      exact local_iterate hmodest (fun b q => (hstep b).2 q) hprog _ _ a (Nat.lt_succ_self _)
        (Nat.lt_succ_self _)

theorem ahead_expression (r r' : List Lexeme) (st st' : Option Char) (d : Nat) :
    (Simulation.ahead r r' st st').rel Eq (expression d) (expression d) :=
  ((Simulation.ahead r r' st st').agree (Eq.refl d)).expression

end

end ExprLang
