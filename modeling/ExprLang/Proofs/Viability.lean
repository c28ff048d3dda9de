import ExprLang.Proofs.Similar

/-!
# What was read before an error

When a production complains of a word, the words it has taken up to there begin some phrase of the
kind it was to read: every place where productions complain is one where a phrase can still be
completed. `Viable x L` says so of a computation and a set `L` of phrases.

The proofs follow a run from the words `w₀` it begins with. `Past w₀ u w`: the run has taken `u` and
come to `w`. `Heeds L w₀ x w`: from there on, `x` blames a word only if what stands before it in
`w₀` begins a phrase of `L`.
-/

namespace ExprLang
open TokenSource Grammar

/-- The words are the beginning of some phrase of `L`. -/
def Begins (L : List Lexeme → Prop) (u : List Lexeme) : Prop := ∃ z, L (u ++ z)

theorem Begins.of {L : List Lexeme → Prop} {u : List Lexeme} (h : L u) : Begins L u :=
  ⟨[], by simpa using h⟩

theorem Begins.trans {L L' : List Lexeme → Prop} {u v : List Lexeme} (h : Begins L v)
    (hL : ∀ v, L v → Begins L' (u ++ v)) : Begins L' (u ++ v) := by
  obtain ⟨z, hz⟩ := h
  obtain ⟨z', hz'⟩ := hL _ hz
  exact ⟨z ++ z', by simpa using hz'⟩

/-- The complaints about a word that does not fit. -/
def Complaint.IsMisfit : Complaint → Prop
  | .expectedMark _ | .expectedKeyword _ | .expectedName | .unexpected _ => True
  | .strayCharacter _ | .badTarget _ | .other _ => False

/-- The errors that point at the right word of `w`: an `=` behind which something else than a name
was to be assigned to, or the first word that does not fit, or the end; and the stray character that
cuts the words short, if there is one. -/
inductive Blames (L : List Lexeme → Prop) (w : Words) : Stop SourceError → Prop
  | tooDeep : Blames L w .tooDeep
  | lexical {c : Char} (hs : w.stray = some c) :
      Blames L w (.error (.at .lexical (.strayCharacter c) 0 0))
  | target {e : Expr} {u v : List Lexeme} (hw : w.left = u ++ .operator "=" :: v) :
      Blames L w (.error (.at .parse (.badTarget e) (v.length + 1) 0))
  | word {c : Complaint} {u v : List Lexeme} (hc : c.IsMisfit) (hw : w.left = u ++ v)
      (hend : v = [] → w.stray = none) (hu : Begins L u) :
      Blames L w (.error (.at .parse c v.length 0))

theorem Past.lexical {L : List Lexeme → Prop} {w₀ w : Words} {u : List Lexeme} {c : Char}
    (hp : Past w₀ u w) (hs : w.stray = some c) :
    Blames L w₀ (.error (.at .lexical (.strayCharacter c) 0 0)) :=
  .lexical (hp.stray.symm.trans hs)

theorem Blames.past {L L' : List Lexeme → Prop} {w₀ w : Words} {u : List Lexeme}
    {err : Stop SourceError} (h : Blames L w err) (hp : Past w₀ u w)
    (hL : ∀ v, v <+: w.left → Begins L v → Begins L' (u ++ v)) : Blames L' w₀ err := by
  cases h with
  | tooDeep => exact .tooDeep
  | lexical hs => exact hp.lexical hs
  | @target e u' v hw =>
    have hw₀ : w₀.left = (u ++ u') ++ .operator "=" :: v := by
      rw [hp.left, hw, List.append_assoc]
    exact .target hw₀
  | @word c u' v hc hw hend hu =>
    have hw₀ : w₀.left = (u ++ u') ++ v := by rw [hp.left, hw, List.append_assoc]
    exact .word hc hw₀ (fun hv => hp.stray ▸ hend hv) (hL u' ⟨v, hw.symm⟩ hu)

section
variable {α β : Type} {L D : List Lexeme → Prop} {w₀ w : Words} {u : List Lexeme}

abbrev Heeds (L : List Lexeme → Prop) (w₀ : Words) (x : Reading Words α) (w : Words) : Prop :=
  FailsBy (Blames L w₀) x w

def Viable (x : Reading Words α) (L : List Lexeme → Prop) : Prop := ∀ w, Heeds L w x w

theorem Viable.heeds_prefix {x : Reading Words α} (h : Viable x D) (hp : Past w₀ u w)
    (hD : ∀ v, v <+: w.left → Begins D v → Begins L (u ++ v)) : Heeds L w₀ x w :=
  wp_mono (h w) (fun _ _ h => h) fun _ _ h => h.past hp hD

theorem Viable.heeds {x : Reading Words α} (h : Viable x D) (hp : Past w₀ u w)
    (hD : ∀ v, D v → Begins L (u ++ v)) : Heeds L w₀ x w :=
  h.heeds_prefix hp fun _ _ hv => hv.trans hD

theorem heeds_peek (hp : Past w₀ u w) : Heeds L w₀ peek w := by
  obtain ⟨_ | ⟨l, ls⟩, _ | c⟩ := w
  case nil.some => exact hp.lexical rfl
  all_goals trivial

theorem heeds_peekIf (p : Lexeme → Bool) (hp : Past w₀ u w) : Heeds L w₀ (peekIf p) w :=
  (heeds_peek hp).bind takes_peek fun _ _ _ _ _ => .pure

theorem heeds_atEnd (hp : Past w₀ u w) : Heeds L w₀ atEnd w :=
  (heeds_peek hp).bind takes_peek fun _ _ _ _ _ => .pure

theorem heeds_atMark (m : String) (hp : Past w₀ u w) : Heeds L w₀ (atMark m) w :=
  (heeds_peekIf _ hp).bind (takes_peekIf _) fun _ _ _ _ _ => .pure

/-- A complaint about the next word. -/
theorem Past.blames {c : Complaint} (hp : Past w₀ u w) (hc : c.IsMisfit)
    (hend : w.left = [] → w.stray = none) (hu : Begins L u) :
    Blames L w₀ (.error (.at .parse c w.left.length 0)) :=
  .word hc hp.left (fun h => hp.stray ▸ hend h) hu

theorem heeds_of_expects {l : Lexeme} {c : Complaint} {x : Reading Words Unit}
    (hx : Expects l c x) (hc : c.IsMisfit) (hp : Past w₀ u w) (hu : Begins L u) :
    Heeds L w₀ x w := by
  rw [Heeds, FailsBy, hx]
  obtain ⟨_ | ⟨l', ls⟩, _ | ch⟩ := w
  · exact hp.blames hc (fun _ => rfl) hu
  · exact hp.lexical rfl
  all_goals
    rw [wp_peek_cons]
    split
    · trivial
    · exact hp.blames hc (by simp) hu

theorem heeds_skipMark (m : String) (hp : Past w₀ u w) (hu : Begins L u) :
    Heeds L w₀ (skipMark m) w :=
  heeds_of_expects (fun _ _ _ => wp_skipMark) trivial hp hu

theorem heeds_skipKeyword (k : String) (hp : Past w₀ u w) (hu : Begins L u) :
    Heeds L w₀ (skipKeyword k) w :=
  heeds_of_expects (fun _ _ _ => wp_skipKeyword) trivial hp hu

theorem heeds_unexpected (hp : Past w₀ u w) (hu : Begins L u) :
    Heeds L w₀ (unexpected : Reading Words α) w := by
  rw [Heeds, FailsBy, wp_unexpected]
  obtain ⟨_ | ⟨l, ls⟩, _ | c⟩ := w
  · exact hp.blames (c := .unexpected none) trivial (fun _ => rfl) hu
  · exact hp.lexical rfl
  all_goals exact hp.blames (c := .unexpected (some l)) trivial (by simp) hu

/-- A choice by the next word: if it is the mark `m`, that is left for `x`. -/
theorem heeds_ifMark {m : String} {x y : Reading Words α} (hp : Past w₀ u w)
    (hx : w.left.head? = some (.mark m) → Heeds L w₀ x w) (hy : Heeds L w₀ y w) :
    Heeds L w₀ (do if ← atMark m then x else y) w := by
  obtain ⟨_ | ⟨l, ls⟩, st⟩ := w
  · cases st with
    | none => simpa [FailsBy] using hy
    | some c => exact hp.lexical rfl
  · by_cases hl : l = .mark m
    · subst hl
      simpa [FailsBy] using hx rfl
    · simpa [Heeds, FailsBy, hl] using hy

/-- A choice by the next word: if it is the keyword `k`, that is taken first. -/
theorem heeds_ifKeyword {k : String} {x y : Reading Words α} (hp : Past w₀ u w)
    (hx : ∀ w', Past w₀ (u ++ [.keyword k]) w' → Heeds L w₀ x w') (hy : Heeds L w₀ y w) :
    Heeds L w₀ (do if ← atKeyword k then (do discard next; x) else y) w := by
  obtain ⟨_ | ⟨l, ls⟩, st⟩ := w
  · cases st with
    | none => simpa [FailsBy] using hy
    | some c => exact hp.lexical rfl
  · by_cases hl : l = .keyword k
    · subst hl
      simpa [FailsBy] using hx ⟨ls, st⟩ hp.next
    · simpa [Heeds, FailsBy, hl] using hy

theorem viable_variableName : Viable variableName fun u => ∃ n, u = [.name n] := by
  intro w
  have hu : Begins (fun u => ∃ n, u = [.name n]) [] := ⟨[.name "x"], "x", rfl⟩
  have hp := Past.refl w
  rw [Heeds, FailsBy, variableName, wp_bind]
  obtain ⟨_ | ⟨l, ls⟩, _ | c⟩ := w
  · exact hp.blames (c := .expectedName) trivial (fun _ => rfl) hu
  · exact hp.lexical rfl
  all_goals
    rw [wp_next_cons]
    split
    · trivial
    · exact hp.blames (c := .expectedName) trivial (by simp) hu

/-- Words `u` and those that a run over `w₀` has taken since stand for `e`. -/
def Grown (w₀ : Words) (u : List Lexeme) (e : Expr) (w : Words) : Prop :=
  ∃ v, Past w₀ v w ∧ Reads (u ++ v) e

theorem Extending.keeps_grown {step : Expr → Reading Words (Option Expr)} (h : Extending step) :
    KeptBy (Grown w₀ u) step := by
  rintro e w ⟨v, hp, hv⟩
  refine wp_mono (h e w) ?_ fun _ _ h => h
  rintro o w' ⟨v', hl, hs, ho⟩ e' rfl
  exact ⟨v ++ v', hp.trans ⟨hl, hs⟩, by simpa using ho.2 _ hv⟩

/-- The rounds of a loop that extends a tree, whose words so far are `u`. -/
theorem Extending.heeds_loop {step : Expr → Reading Words (Option Expr)} (hext : Extending step)
    {e : Expr} (hu : Reads u e)
    (hstep : ∀ v e' w, Past w₀ v w → Reads (u ++ v) e' → Heeds L w₀ (step e') w) :
    Heeds L w₀ (loop step e) w₀ := by
  have hround : ∀ e' w, Grown w₀ u e' w → Heeds L w₀ (step e') w := by
    rintro e' w ⟨v, hp, hv⟩
    exact hstep v e' w hp hv
  exact FailsBy.loop hext.keeps_grown hround ⟨[], .refl w₀, by simpa using hu⟩

/-- Items of a list that a run over `w₀` has taken behind the words `p`. -/
def Collected (D : List Lexeme → Prop) (sep : String) (w₀ : Words) (p : List Lexeme)
    (items : List α) (w : Words) : Prop :=
  ∃ u, Past w₀ (p ++ u) w ∧ Gathered (fun u _ => D u) sep u items

theorem keeps_collected {item : Reading Words α} (ht : Takes item fun u _ => D u)
    (stop sep : String) (p : List Lexeme) :
    KeptBy (Collected D sep w₀ p) (nextItem stop sep item) := by
  rintro items w ⟨u, hp, hu⟩
  refine wp_mono (takes_nextItem ht stop hu w) ?_ fun _ _ h => h
  rintro o w' ⟨v, hl, hs, ho⟩ items' rfl
  exact ⟨u ++ v, by simpa using hp.trans ⟨hl, hs⟩, ho⟩

/-- One round of a list behind the words `p`, where a list can be closed after any of its items. -/
theorem heeds_nextItem {item : Reading Words α} (ht : Takes item fun u _ => D u)
    (hv : Viable item D) {stop sep : String} {p : List Lexeme}
    (hclosed : ∀ us w, (∀ u ∈ us, D u) → Listed sep us w → Begins L (p ++ w)) {items : List α}
    (h : Collected D sep w₀ p items w) : Heeds L w₀ (nextItem stop sep item items) w := by
  obtain ⟨u, hp, ps, hps, hitems, hu⟩ := h
  have hus : ∀ v ∈ ps.map Prod.fst, D v := by
    intro v hv
    obtain ⟨q, hq, rfl⟩ := List.mem_map.1 hv
    exact hps q hq
  refine (heeds_atEnd hp).bind takes_atEnd fun v₁ _ w₁ hp₁ hv₁ => ?_
  refine .ite (fun _ => .pure) fun _ => ?_
  refine (heeds_atMark stop (hp.trans hp₁)).bind (takes_atMark stop) fun v₂ _ w₂ hp₂ hv₂ => ?_
  refine .ite (fun _ => .pure) fun _ => ?_
  subst hv₁ hv₂
  have hp₂ : Past w₀ (p ++ u) w₂ := by simpa using (hp.trans hp₁).trans hp₂
  have hsep : Heeds L w₀ (skipSeparator sep items.isEmpty) w₂ :=
    .ite (fun _ => .pure) fun _ => heeds_skipMark sep hp₂ (hclosed _ u hus (.inl hu))
  refine hsep.bind (takes_skipSeparator items) fun v₃ _ w₃ hp₃ hv₃ => ?_
  refine (heeds_atMark stop (hp₂.trans hp₃)).bind (takes_atMark stop) fun v₄ _ w₄ hp₄ hv₄ => ?_
  refine .ite (fun _ => .pure) fun _ => ?_
  subst hv₄
  have hp₄ : Past w₀ (p ++ u ++ v₃) w₄ := by simpa using (hp₂.trans hp₃).trans hp₄
  refine (hv.heeds hp₄ fun v hv => ?_).bind ht fun _ _ _ _ _ => .pure
  -- the item, once it is complete, may be the last one
  have hall : ∀ v' ∈ ps.map Prod.fst ++ [v], D v' := by
    intro v' hv'
    rcases List.mem_append.1 hv' with hv' | hv'
    · exact hus v' hv'
    · exact List.mem_singleton.1 hv' ▸ hv
  have hlisted : Listed sep (ps.map Prod.fst ++ [v]) (u ++ v₃ ++ v) := by
    rcases hv₃ with ⟨hnil, rfl⟩ | ⟨hne, rfl⟩
    · obtain rfl : ps = [] := by simpa [hnil] using hitems.symm
      exact .inl (by simp [hu])
    · have hps' : ps.map Prod.fst ≠ [] := by simpa [hitems] using hne
      exact .inl (by rw [Listed.intercalate_snoc hps', hu]; simp)
  have hbegins := hclosed _ _ hall hlisted
  rwa [← List.append_assoc, ← List.append_assoc] at hbegins

theorem viable_delimited {item : Reading Words α} (ht : Takes item fun u _ => D u)
    (hv : Viable item D) {start stop sep : String}
    (hL : ∀ us w, (∀ u ∈ us, D u) → Listed sep us w →
      Begins L (.mark start :: w ++ [.mark stop])) : Viable (delimited start stop sep item) L := by
  intro w₀
  have hclosed : ∀ us w, (∀ u ∈ us, D u) → Listed sep us w → Begins L ([.mark start] ++ w) := by
    intro us w hus hw
    obtain ⟨z, hz⟩ := hL us w hus hw
    exact ⟨.mark stop :: z, by simpa using hz⟩
  have hstart : Begins L [] := by
    obtain ⟨z, hz⟩ := hclosed [] [] (by simp) .nil
    exact ⟨[.mark start] ++ z, hz⟩
  refine (heeds_skipMark start (.refl w₀) hstart).bind (takes_skipMark start)
    fun v _ w₁ hp₁ hv₁ => ?_
  subst hv₁
  have hbegin : Collected D sep w₀ [.mark start] ([] : List α) w₁ :=
    ⟨[], by simpa using hp₁, [], by simp, rfl, rfl⟩
  have hloop := FailsBy.loop (keeps_collected ht stop sep _) (fun _ _ => heeds_nextItem ht hv hclosed)
    hbegin
  refine hloop.bind (takes_loop (Gathered _ sep) (Complete _ sep) (fun _ _ h => h.complete)
    (fun u as h => takes_nextItem ht stop h) ⟨[], by simp, rfl, rfl⟩) fun v items w₂ hp₂ hv₂ => ?_
  obtain ⟨ps, hps, -⟩ := hv₂
  have hus : ∀ u ∈ ps.map Prod.fst, D u := by
    intro u hu
    obtain ⟨q, hq, rfl⟩ := List.mem_map.1 hu
    exact hps.items q hq
  refine (heeds_skipMark stop (hp₁.trans hp₂) (hclosed _ v hus hps.listed)).bind
    (takes_skipMark stop) fun _ _ _ _ _ => .pure

end

/-! ### Productions -/

/-- `true` is an expression. -/
theorem derives_true : Derives .expression [.keyword "true"] := .operand (.plain .yes)

/-- What the productions that nest to depth `d` complain of. A production that goes on from a tree
is taken together with the words that were read for it. -/
structure Watchful (d : Nat) : Prop where
  expression : Viable (expression d) (Derives .expression)
  atom : Viable (atom d) (Derives .expression)
  primary : Viable (primary d) (Derives .expression)
  block : Viable (block d) (Derives .expression)
  conditional : Viable (conditional d) (Derives .expression)
  function : Viable (function d) fun v => ∀ word, IsLambda word →
    Derives .expression (.keyword word :: v)
  arguments : ∀ u e, Reads u e → Viable (arguments d e) fun v => Derives .expression (u ++ v)
  calls : ∀ u e, Reads u e → Viable (calls d e) fun v => Derives .expression (u ++ v)
  climb : ∀ bound u e, Reads u e → Viable (climb d bound e) fun v => Derives .expression (u ++ v)

namespace Watchful
variable {d : Nat}

theorem expression_succ (h : Watchful d) :
    Viable (Grammar.expression (d + 1)) (Derives .expression) := by
  intro w₀
  unfold Grammar.expression
  refine (h.atom w₀).bind (sound d).atom fun u₁ left w₁ hp₁ hleft => ?_
  refine ((h.climb 0 u₁ left hleft).heeds hp₁ fun v hv => .of hv).bind ((sound d).climb 0 left)
    fun u₂ e w₂ hp₂ he => ?_
  exact (h.calls _ e (he u₁ hleft)).heeds (hp₁.trans hp₂) fun v hv => .of hv

theorem atom_succ (h : Watchful d) : Viable (Grammar.atom (d + 1)) (Derives .expression) := by
  intro w₀
  unfold Grammar.atom
  refine (h.primary w₀).bind (sound d).primary fun u₁ e w₁ hp₁ he => ?_
  exact (h.calls u₁ e he).heeds hp₁ fun v hv => .of hv

theorem primary_succ (h : Watchful d) : Viable (Grammar.primary (d + 1)) (Derives .expression) := by
  rintro ⟨_ | ⟨l, ls⟩, st⟩
  · have hunexpected : Heeds (Derives .expression) ⟨[], st⟩ (unexpected : Reading Words Expr)
        ⟨[], st⟩ := heeds_unexpected (.refl _) ⟨_, derives_true⟩
    cases st with
    | none => exact hunexpected
    | some c => exact Blames.lexical rfl
  have hp : Past ⟨l :: ls, st⟩ [l] ⟨ls, st⟩ := ⟨rfl, rfl⟩
  have after : ∀ {x : Reading Words Expr}, Heeds (Derives .expression) ⟨l :: ls, st⟩ x ⟨ls, st⟩ →
      Heeds (Derives .expression) ⟨l :: ls, st⟩ (do discard next; x) ⟨l :: ls, st⟩ := by
    intro x hx
    simp only [FailsBy, wp_bind, wp_discard, wp_next_cons]
    exact hx
  rw [Heeds, FailsBy, Grammar.primary]
  simp only [wp_bind, wp_peek_cons, Option.map_some]
  split <;> (try obtain rfl := Option.some.inj ‹_›)
  · have group : ∀ v, Derives .expression v → Derives .expression (.mark "(" :: v ++ [.mark ")"]) :=
      fun v hv => .operand (.plain (.group hv))
    refine after ((h.expression.heeds hp fun v hv => ⟨[.mark ")"], group v hv⟩).bind
      (sound d).expression fun v e w₁ hp₁ he => ?_)
    refine (heeds_skipMark ")" (hp.trans hp₁) ⟨[.mark ")"], group v he.derives⟩).bind
      (takes_skipMark ")") fun _ _ _ _ _ => .pure
  · exact h.block _
  · exact h.conditional _
  · trivial
  · trivial
  · exact after (h.function.heeds hp fun v hv => .of (hv _ (.inl rfl)))
  · exact after (h.function.heeds hp fun v hv => .of (hv _ (.inr rfl)))
  · exact after .pure
  · exact after .pure
  · exact after .pure
  · exact heeds_unexpected (.refl _) ⟨_, derives_true⟩

theorem block_succ (h : Watchful d) : Viable (Grammar.block (d + 2)) (Derives .expression) := by
  have htakes : Takes (Grammar.expression d) fun u _ => Derives .expression u :=
    (sound d).expression.mono fun _ _ he => he.derives
  intro w₀
  unfold Grammar.block
  refine (viable_delimited htakes h.expression (fun us w hus hw => ?_) w₀).bind
    (takes_delimited htakes _ _) fun _ _ _ _ _ => .pure
  exact .of (.operand (.plain (.block hus hw)))

theorem arguments_succ (h : Watchful d) {u : List Lexeme} {e : Expr} (hu : Reads u e) :
    Viable (Grammar.arguments (d + 2) e) fun v => Derives .expression (u ++ v) := by
  have htakes : Takes (Grammar.expression d) fun u _ => Derives .expression u :=
    (sound d).expression.mono fun _ _ he => he.derives
  intro w₀
  unfold Grammar.arguments
  refine (viable_delimited htakes h.expression (fun us w hus hw => ?_) w₀).bind
    (takes_delimited htakes _ _) fun _ _ _ _ _ => .pure
  exact .of (by simpa using hu.derives.expression_call hus hw)

theorem function_succ (h : Watchful d) : Viable (Grammar.function (d + 1)) fun v =>
    ∀ word, IsLambda word → Derives .expression (.keyword word :: v) := by
  have htakes : Takes variableName fun u _ => ∃ n, u = [.name n] :=
    takes_variableName.mono fun _ n hu => ⟨n, hu⟩
  have hparams : ∀ us : List (List Lexeme), (∀ u ∈ us, ∃ n, u = [.name n]) →
      ∃ params : List String, us = params.map fun n => [.name n] := by
    intro us hus
    induction us with
    | nil => exact ⟨[], rfl⟩
    | cons u us ih =>
      obtain ⟨⟨n, rfl⟩, hrest⟩ := List.forall_mem_cons.1 hus
      obtain ⟨params, rfl⟩ := ih hrest
      exact ⟨n :: params, rfl⟩
  have hfunction : ∀ us w b, (∀ u ∈ us, ∃ n, u = [.name n]) → Listed "," us w →
      Derives .expression b → ∀ word, IsLambda word →
      Derives .expression (.keyword word :: (.mark "(" :: w ++ [.mark ")"] ++ b)) := by
    intro us w b hus hw hb word hword
    obtain ⟨params, rfl⟩ := hparams us hus
    simpa using Derives.operand (.plain (.function hword hw hb))
  intro w₀
  unfold Grammar.function
  refine (viable_delimited htakes viable_variableName (fun us w hus hw => ?_) w₀).bind
    (takes_delimited htakes _ _) fun v params w₁ hp₁ hv => ?_
  · exact ⟨_, hfunction us w _ hus hw derives_true⟩
  · obtain ⟨ps, w, hps, -, rfl⟩ := hv
    have hus : ∀ u ∈ ps.map Prod.fst, ∃ n, u = [.name n] := by
      intro u hu
      obtain ⟨q, hq, rfl⟩ := List.mem_map.1 hu
      exact hps.items q hq
    refine (h.expression.heeds hp₁ fun b hb => .of ?_).bind (sound d).expression
      fun _ _ _ _ _ => .pure
    exact hfunction _ w b hus hps.listed hb

theorem calls_succ (h : Watchful d) {u : List Lexeme} {e : Expr} (hu : Reads u e) :
    Viable (Grammar.calls (d + 1) e) fun v => Derives .expression (u ++ v) := by
  intro w₀
  refine (sound d).extending_nextCall.heeds_loop hu fun v e' w hp hv => ?_
  refine (heeds_atMark "(" hp).bind (takes_atMark "(") fun v₁ _ w₁ hp₁ hv₁ => ?_
  refine .ite (fun _ => ?_) fun _ => .pure
  subst hv₁
  have hp₁ : Past w₀ v w₁ := by simpa using hp.trans hp₁
  refine ((h.arguments _ e' hv).heeds hp₁ fun v' hv' => .of ?_).bind ((sound d).arguments e')
    fun _ _ _ _ _ => .pure
  simpa using hv'

theorem heeds_join {L : List Lexeme → Prop} {w₀ w : Words} {u v : List Lexeme} {op : String}
    (hw₀ : w₀.left = u ++ .operator op :: v) (left right : Expr) :
    Heeds L w₀ (join d ⟨.operator op, v.length + 1, 0⟩ op left right) w := by
  unfold join
  refine .ite (fun hop => ?_) fun _ => .pure
  obtain rfl : op = "=" := by simpa using hop
  split
  · exact .pure
  · exact .ite (fun _ => Blames.target hw₀) fun _ => .throw .tooDeep

theorem climb_succ (h : Watchful d) (bound : Nat) {u : List Lexeme} {e : Expr} (hu : Reads u e) :
    Viable (Grammar.climb (d + 1) bound e) fun v => Derives .expression (u ++ v) := by
  intro w₀
  refine ((sound d).extending_nextOperation bound).heeds_loop hu fun v e' w hp hv => ?_
  unfold nextOperation
  obtain ⟨_ | ⟨l, ls⟩, st⟩ := w
  · cases st with
    | none => trivial
    | some c => exact hp.lexical rfl
  cases l with
  | operator op =>
    rw [Heeds, FailsBy, wp_bind, wp_operator?_cons]
    simp only [Lexeme.value]
    split
    · trivial
    rename_i p hprec
    rw [wp_ite]
    split
    · trivial
    have hop : IsOperator op := by simp [IsOperator, hprec]
    rw [wp_bind, wp_discard, wp_next_cons]
    -- whatever operand follows the operator, the whole is an expression
    have operand : ∀ v', Derives .expression v' →
        Derives .expression (u ++ (v ++ [.operator op] ++ v')) := by
      intro v' hv'
      simpa using hv.derives.expression_operation hop hv'
    refine (h.atom.heeds hp.next fun v' hv' => .of (operand v' hv')).bind (sound d).atom
      fun v₁ left w₁ hp₁ hleft => ?_
    have hp₁ := hp.next.trans hp₁
    refine ((h.climb _ v₁ left hleft).heeds hp₁ fun v' hv' => .of ?_).bind ((sound d).climb _ left)
      fun v₂ right w₂ _ hright => ?_
    · simpa using operand _ hv'
    · refine (heeds_join hp.left e' right).bind (takes_join hop (hright v₁ hleft))
        fun _ _ _ _ _ => .pure
  | _ =>
    rw [Heeds, FailsBy, wp_bind, wp_operator?_of_not rfl]
    trivial

theorem conditional_succ (h : Watchful d) :
    Viable (Grammar.conditional (d + 1)) (Derives .expression) := by
  intro w₀
  unfold Grammar.conditional
  have cond : ∀ c y v, Derives .expression c → Derives .expression y → Consequent y v →
      Derives .expression (.keyword "if" :: c ++ v) :=
    fun c y v hc hy hv => .operand (.plain (.cond hc hy hv))
  have hif : Begins (Derives .expression) [] :=
    ⟨_, cond _ _ _ derives_true derives_true (.inl rfl)⟩
  refine (heeds_skipKeyword "if" (.refl w₀) hif).bind (takes_skipKeyword "if")
    fun u₀ _ w₁ hp₁ hu₀ => ?_
  subst hu₀
  -- behind a complete test, `then` and an expression are missing
  have tested : ∀ c, Derives .expression c → Begins (Derives .expression) ([.keyword "if"] ++ c) :=
    fun c hc => ⟨_, by simpa using cond c _ _ hc derives_true (.inl rfl)⟩
  refine (h.expression.heeds hp₁ fun c hc => tested c hc).bind (sound d).expression
    fun c test w₂ hp₂ hc => ?_
  have hp₂ := hp₁.trans hp₂
  have rest : ∀ p w, Past w₀ p w → Begins (Derives .expression) p →
      (∀ y, y.head? = w.left.head? → ∃ v, Consequent y v ∧ .keyword "if" :: c ++ v = p ++ y) →
      Heeds (Derives .expression) w₀ (do
        let yes ← Grammar.expression d
        if ← atKeyword "else" then
          discard next
          return Expr.cond test yes (some (← Grammar.expression d))
        return Expr.cond test yes none) w := by
    intro p w hp hbegins hform
    have consequent : ∀ v, v <+: w.left → Begins (Derives .expression) v →
        Begins (Derives .expression) (p ++ v) := by
      rintro v ⟨left, hleft⟩ ⟨z, hz⟩
      cases v with
      | nil => simpa using hbegins
      | cons l v =>
        obtain ⟨v', hv', hp'⟩ := hform (l :: v ++ z) (by rw [← hleft]; rfl)
        exact ⟨z, by simpa [hp'] using cond c _ v' hc.derives hz hv'⟩
    refine (h.expression.heeds_prefix hp consequent).bind (sound d).expression
      fun y yes w₃ hp₃ hy => ?_
    have hhead : y.head? = w.left.head? := by
      cases y with
      | nil => exact absurd rfl hy.derives.ne_nil
      | cons l y => rw [hp₃.left]; rfl
    obtain ⟨v, hv, hpy⟩ := hform y hhead
    refine heeds_ifKeyword (hp.trans hp₃) (fun w₄ hp₄ => ?_) .pure
    refine (h.expression.heeds hp₄ fun n hn => .of ?_).bind (sound d).expression
      fun _ _ _ _ _ => .pure
    rw [← hpy]
    simpa using Derives.operand (.plain (.condElse hc.derives hy.derives hv hn))
  refine heeds_ifMark hp₂ (fun hbrace => ?_) ?_
  · refine rest _ w₂ hp₂ (tested c hc.derives) fun y hy => ⟨y, .inr ⟨rfl, ?_⟩, by simp⟩
    rw [hy, hbrace]
  · refine (heeds_skipKeyword "then" hp₂ (tested c hc.derives)).bind (takes_skipKeyword "then")
      fun u₁ _ w₃ hp₃ hu₁ => ?_
    subst hu₁
    have hthen := cond c _ _ hc.derives derives_true (.inl rfl)
    exact rest _ w₃ (hp₂.trans hp₃) ⟨[.keyword "true"], by simpa using hthen⟩ fun y _ =>
      ⟨.keyword "then" :: y, .inl rfl, by simp⟩

end Watchful

theorem watchful (d : Nat) : Watchful d := by
  have deep : ∀ {D : List Lexeme → Prop}, Viable (throw .tooDeep : Reading Words Expr) D :=
    fun _ => .throw .tooDeep
  induction d using Nat.strongRecOn with
  | ind d ih =>
    match d with
    | 0 => exact ⟨deep, deep, deep, deep, deep, deep, fun _ _ _ => deep, fun _ _ _ => deep,
        fun _ _ _ _ => deep⟩
    | 1 =>
      have h := ih 0 (by omega)
      exact ⟨h.expression_succ, h.atom_succ, h.primary_succ, deep, h.conditional_succ,
        h.function_succ, fun _ _ _ => deep, fun _ _ => h.calls_succ, fun b _ _ => h.climb_succ b⟩
    | d + 2 =>
      have h := ih (d + 1) (by omega)
      have h' := ih d (by omega)
      exact ⟨h.expression_succ, h.atom_succ, h.primary_succ, h'.block_succ, h.conditional_succ,
        h.function_succ, fun _ _ => h'.arguments_succ, fun _ _ => h.calls_succ,
        fun b _ _ => h.climb_succ b⟩

/-- Expressions of a program over `w₀` that a run has taken; the words end as they did. -/
structure Ongoing (w₀ : Words) (es : List Expr) (w : Words) : Prop where
  started : Started w₀ es w
  stray : w.stray = w₀.stray

theorem keeps_ongoing (d : Nat) (w₀ : Words) :
    KeptBy (Ongoing w₀) (nextStatement (expression d)) := by
  intro es w h
  have hround := wp_nextStatement (d := d) h.started
  have htakes := progresses_nextStatement d es w
  cases hr : nextStatement (expression d) es w with
  | error err w' => exact (wp_iff_of_error hr).2 trivial
  | ok o w' =>
    rw [wp_iff_of_ok hr] at hround htakes ⊢
    rintro es' rfl
    obtain ⟨_, _, hs, _⟩ := htakes
    exact ⟨hround, hs.trans h.stray⟩

theorem heeds_nextStatement {d : Nat} {w₀ w : Words} {es : List Expr} (h : Ongoing w₀ es w) :
    Heeds IsProgram w₀ (nextStatement (expression d) es) w := by
  obtain ⟨⟨ps, u, hu, -, hps⟩, hstray⟩ := h
  obtain ⟨_ | ⟨l, ls⟩, st⟩ := w
  · cases st with
    | none => trivial
    | some c => exact Blames.lexical hstray.symm
  have hp : Past w₀ u ⟨l :: ls, st⟩ := ⟨hu, hstray⟩
  have program : ∀ v, Derives .expression v → IsProgram (u ++ v) := by
    intro v hv
    refine ⟨ps.map Prod.fst ++ [v], fun v' hv' => ?_, .inl (hps.open_end (by simp) v)⟩
    rcases List.mem_append.1 hv' with hv' | hv'
    · obtain ⟨q, hq, rfl⟩ := List.mem_map.1 hv'
      exact (hps.itemized.items q hq).derives
    · exact List.mem_singleton.1 hv' ▸ hv
  refine (heeds_atEnd hp).bind takes_atEnd fun v₁ _ w₁ hp₁ hv₁ => ?_
  refine .ite (fun _ => .pure) fun _ => ?_
  subst hv₁
  have hp₁ : Past w₀ u w₁ := by simpa using hp.trans hp₁
  refine ((watchful d).expression.heeds hp₁ fun v hv => .of (program v hv)).bind
    (sound d).expression fun v e w₂ hp₂ he => ?_
  refine (heeds_atEnd (hp₁.trans hp₂)).bind takes_atEnd fun v₃ _ w₃ hp₃ hv₃ => ?_
  refine .ite (fun _ => .pure) fun _ => ?_
  subst hv₃
  have hp₃ : Past w₀ (u ++ v) w₃ := by simpa using (hp₁.trans hp₂).trans hp₃
  exact (heeds_skipMark ";" hp₃ (.of (program v he.derives))).bind (takes_skipMark ";")
    fun _ _ _ _ _ => .pure

theorem viable_program (d : Nat) : Viable (program d) IsProgram := by
  intro w₀
  cases d with
  | zero => exact .throw .tooDeep
  | succ d =>
    have hbegin : Ongoing w₀ [] w₀ := ⟨⟨[], [], rfl, rfl, .nil, fun _ v => by simp⟩, rfl⟩
    have hloop := FailsBy.loop (keeps_ongoing d w₀) (fun _ _ => heeds_nextStatement) hbegin
    exact hloop.bind ((progresses_nextStatement d).takes_loop []) fun _ _ _ _ _ => .pure

theorem Words.blames_of_parse {limit : Nat} {w : Words} {err : Stop SourceError}
    (h : w.parse limit = .error err) : Blames IsProgram w err := by
  have hrun := viable_program limit w
  unfold Words.parse at h
  cases hr : program limit w with
  | ok tree w' => rw [hr] at h; cases h
  | error err' w' =>
    rw [hr] at h
    cases h
    exact (wp_iff_of_error hr).1 hrun

end ExprLang
