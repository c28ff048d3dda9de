import ExprLang.Proofs.Language

/-!
# The words of a tree

The grammar of `Derives` is ambiguous: it does not say how far a conditional or a function reaches,
which conditional an `else` belongs to, or how operators group. `Spells` is the same language with
every choice made. A conditional or a function reaches as far as it can, so that it stands only at
the end of a chain of operators and no argument list follows it; an `else` belongs to the last
conditional that has none; operators group by precedence (`Groups`).

No sentence is lost by that (`Derives.spelled`): whatever follows a phrase of `Derives` can be
moved to the right edge of the phrase.
-/

namespace ExprLang
open Grammar

def joined (op : String) (left right : Expr) : Expr :=
  if op == "=" then .assign left right else .binary op left right

/-- Of the operators and operands `ops` behind `left`, those that bind more tightly than `bound`
make up the tree `t` with it, and `rest` are left. -/
inductive Groups : Nat → Expr → List (String × Expr) → Expr → List (String × Expr) → Prop
  | nil {bound : Nat} {left : Expr} : Groups bound left [] left []
  | stop {bound p : Nat} {left operand : Expr} {op : String} {ops : List (String × Expr)}
      (hp : precedence op = some p) (hb : p ≤ bound) :
      Groups bound left ((op, operand) :: ops) left ((op, operand) :: ops)
  | step {bound p : Nat} {left operand right t : Expr} {op : String}
      {ops ops' rest : List (String × Expr)} (hp : precedence op = some p) (hb : bound < p)
      (hr : Groups (rightBound op p) operand ops right ops')
      (ht : Groups bound (joined op left right) ops' t rest) :
      Groups bound left ((op, operand) :: ops) t rest

theorem precedence_pos {op : String} {p : Nat} (h : precedence op = some p) : 0 < p := by
  unfold precedence at h
  split at h <;> cases h <;> omega

namespace Groups
variable {bound : Nat} {left t : Expr} {ops rest : List (String × Expr)}

theorem exists_of_operators (bound : Nat) (left : Expr) (hops : ∀ o ∈ ops, IsOperator o.1) :
    ∃ t rest, Groups bound left ops t rest ∧ rest <:+ ops := by
  generalize hn : ops.length = n
  induction n using Nat.strongRecOn generalizing bound left ops with
  | ind n ih =>
    obtain _ | ⟨⟨op, operand⟩, ops⟩ := ops
    · exact ⟨left, [], .nil, List.suffix_refl _⟩
    obtain ⟨p, hp⟩ := Option.isSome_iff_exists.1 (hops _ (List.mem_cons_self ..))
    by_cases hb : p ≤ bound
    · exact ⟨left, _, .stop hp hb, List.suffix_refl _⟩
    rw [List.length_cons] at hn
    have hmem : ∀ o ∈ ops, IsOperator o.1 := fun o ho => hops o (List.mem_cons_of_mem _ ho)
    obtain ⟨right, ops', hr, hsuf⟩ := ih ops.length (by omega) (rightBound op p) operand hmem rfl
    have hlen := hsuf.length_le
    obtain ⟨t, rest, ht, hsuf'⟩ := ih ops'.length (by omega) bound (joined op left right)
      (fun o ho => hmem o (hsuf.subset ho)) rfl
    exact ⟨t, rest, .step hp (by omega) hr ht, (hsuf'.trans hsuf).trans (List.suffix_cons ..)⟩

/-- Behind the operators that were grouped stands one that does not bind tightly enough. -/
theorem rest_eq_nil (h : Groups 0 left ops t rest) : rest = [] := by
  generalize hb : 0 = bound at h
  induction h with
  | nil => rfl
  | stop hp hp' => have := precedence_pos hp; omega
  | step _ _ _ _ _ ih => exact ih hb

end Groups

/-- The parts of an expression, with the trees they make. `dangling` says of a part that it may end
in a conditional without `else`, so that an `else` behind it would be taken for its own. -/
inductive Form where
  /-- A literal, a name, or a phrase in parentheses or braces. -/
  | base (t : Expr)
  /-- Argument lists that make `t` out of `callee`. -/
  | calls (callee t : Expr)
  /-- A base with argument lists. -/
  | operand (t : Expr)
  /-- A conditional or a function. -/
  | reaching (dangling : Bool) (t : Expr)
  /-- An operand, and operators with their operands behind it. -/
  | chain (dangling : Bool) (first : Expr) (ops : List (String × Expr))
  | expression (dangling : Bool) (t : Expr)

inductive Spells : Form → List Lexeme → Prop
  | number (x : Float) : Spells (.base (.number x)) [.number x]
  | text (s : String) : Spells (.base (.text s)) [.text s]
  | name (n : String) : Spells (.base (.name n)) [.name n]
  | yes : Spells (.base (.truth true)) [.keyword "true"]
  | no : Spells (.base (.truth false)) [.keyword "false"]
  | group {u : List Lexeme} {t : Expr} (hu : Spells (.expression true t) u) :
      Spells (.base t) (.mark "(" :: u ++ [.mark ")"])
  | block {w : List Lexeme} {ps : List (List Lexeme × Expr)}
      (hps : ∀ p ∈ ps, Spells (.expression true p.2) p.1) (hw : Listed "," (ps.map Prod.fst) w) :
      Spells (.base (blockOf (ps.map Prod.snd))) (.mark "\x7b" :: w ++ [.mark "\x7d"])
  | plain {t : Expr} : Spells (.calls t t) []
  | call {u w : List Lexeme} {callee t : Expr} {ps : List (List Lexeme × Expr)}
      (hps : ∀ p ∈ ps, Spells (.expression true p.2) p.1) (hw : Listed "," (ps.map Prod.fst) w)
      (hu : Spells (.calls (.call callee (ps.map Prod.snd)) t) u) :
      Spells (.calls callee t) (.mark "(" :: w ++ .mark ")" :: u)
  | operand {u v : List Lexeme} {t t' : Expr} (hu : Spells (.base t) u)
      (hv : Spells (.calls t t') v) : Spells (.operand t') (u ++ v)
  | cond {c y v : List Lexeme} {test yes : Expr} (hc : Spells (.expression true test) c)
      (hy : Spells (.expression true yes) y) (hv : Consequent y v) :
      Spells (.reaching true (.cond test yes none)) (.keyword "if" :: c ++ v)
  | condElse {c y v n : List Lexeme} {test yes no : Expr} {dangling : Bool}
      (hc : Spells (.expression true test) c) (hy : Spells (.expression false yes) y)
      (hv : Consequent y v) (hn : Spells (.expression dangling no) n) :
      Spells (.reaching dangling (.cond test yes (some no)))
        (.keyword "if" :: c ++ v ++ .keyword "else" :: n)
  | function {word : String} {params : List String} {w b : List Lexeme} {body : Expr}
      {dangling : Bool} (hword : IsLambda word) (hw : Listed "," (params.map fun n => [.name n]) w)
      (hb : Spells (.expression dangling body) b) :
      Spells (.reaching dangling (.lambda params body))
        (.keyword word :: .mark "(" :: w ++ .mark ")" :: b)
  | single {u : List Lexeme} {t : Expr} {dangling : Bool} (hu : Spells (.operand t) u) :
      Spells (.chain dangling t []) u
  | last {u : List Lexeme} {t : Expr} {dangling : Bool} (hu : Spells (.reaching dangling t) u) :
      Spells (.chain dangling t []) u
  | more {u v : List Lexeme} {t t' : Expr} {op : String} {ops : List (String × Expr)}
      {dangling : Bool} (hu : Spells (.operand t) u) (hop : IsOperator op)
      (hv : Spells (.chain dangling t' ops) v) :
      Spells (.chain dangling t ((op, t') :: ops)) (u ++ .operator op :: v)
  | expression {u : List Lexeme} {t t' : Expr} {ops : List (String × Expr)} {dangling : Bool}
      (hu : Spells (.chain dangling t ops) u) (ht : Groups 0 t ops t' []) :
      Spells (.expression dangling t') u

/-- Whether words of this form can stand alone. -/
def Form.standsAlone : Form → Bool
  | .calls _ _ => false
  | _ => true

/-- Whether words of this form go on as far as they can. -/
def Form.goesOn : Form → Bool
  | .reaching _ _ | .chain _ _ _ | .expression _ _ => true
  | _ => false

/-- The first word of `u` can begin an expression. -/
def Starts (u : List Lexeme) : Prop := ∃ l v, u = l :: v ∧ ∀ m, l = .mark m → m = "(" ∨ m = "\x7b"

theorem Starts.append {u : List Lexeme} (h : Starts u) (v : List Lexeme) : Starts (u ++ v) := by
  obtain ⟨l, u', rfl, hl⟩ := h
  exact ⟨l, u' ++ v, rfl, hl⟩

theorem Starts.ne_nil {u : List Lexeme} (h : Starts u) : u ≠ [] := by
  obtain ⟨l, u', rfl, -⟩ := h
  simp

theorem Spells.starts {form : Form} {u : List Lexeme} (h : Spells form u)
    (hform : form.standsAlone) : Starts u := by
  induction h with
  | plain => cases hform
  | call => cases hform
  | operand _ _ ih => exact (ih rfl).append _
  | single _ ih => exact ih rfl
  | last _ ih => exact ih rfl
  | more _ _ _ ih => exact (ih rfl).append _
  | expression _ _ ih => exact ih rfl
  | _ => exact ⟨_, _, rfl, by simp⟩

theorem Spells.operators {dangling : Bool} {t : Expr} {ops : List (String × Expr)}
    {u : List Lexeme} (h : Spells (.chain dangling t ops) u) : ∀ o ∈ ops, IsOperator o.1 := by
  induction ops generalizing t u with
  | nil => simp
  | cons o ops ih =>
    cases h with
    | more hu hop hv => exact List.forall_mem_cons.2 ⟨hop, ih hv⟩

/-- The same form when nothing is known of its right edge. -/
def Form.weakened : Form → Form
  | .reaching _ t => .reaching true t
  | .chain _ t ops => .chain true t ops
  | .expression _ t => .expression true t
  | form => form

theorem Spells.weaken {form : Form} {u : List Lexeme} (h : Spells form u) :
    Spells form.weakened u := by
  induction h with
  | number x => exact .number x
  | text s => exact .text s
  | name n => exact .name n
  | yes => exact .yes
  | no => exact .no
  | group hu => exact .group hu
  | block hps hw => exact .block hps hw
  | plain => exact .plain
  | call hps hw hu => exact .call hps hw hu
  | operand hu hv => exact .operand hu hv
  | cond hc hy hv => exact .cond hc hy hv
  | condElse hc hy hv _ _ _ ihn => exact .condElse hc hy hv ihn
  | function hword hw _ ihb => exact .function hword hw ihb
  | single hu => exact .single hu
  | last _ ih => exact .last ih
  | more hu hop _ _ ihv => exact .more hu hop ihv
  | expression _ ht ih => exact .expression ih ht

/-! ### The right edge

What follows a phrase can be moved to its right edge. There, an operator or an argument list meets
an operand, and an `else` meets the last conditional without one. -/

def Spelled (dangling : Bool) (u : List Lexeme) : Prop := ∃ t, Spells (.expression dangling t) u

theorem Spells.spelled {dangling : Bool} {t : Expr} {ops : List (String × Expr)} {u : List Lexeme}
    (h : Spells (.chain dangling t ops) u) : Spelled dangling u := by
  obtain ⟨t', rest, ht, -⟩ := Groups.exists_of_operators 0 t h.operators
  obtain rfl := ht.rest_eq_nil
  exact ⟨t', .expression h ht⟩

theorem Spelled.more {dangling : Bool} {t : Expr} {op : String} {u v : List Lexeme}
    (hu : Spells (.operand t) u) (hop : IsOperator op) (hv : Spelled dangling v) :
    Spelled dangling (u ++ .operator op :: v) := by
  obtain ⟨_, hv⟩ := hv
  cases hv with
  | expression hv _ => exact (Spells.more hu hop hv).spelled

theorem Consequent.append {y v : List Lexeme} (h : Consequent y v) (hy : y ≠ [])
    (s : List Lexeme) : Consequent (y ++ s) (v ++ s) := by
  rcases h with rfl | ⟨rfl, h⟩
  · exact .inl rfl
  · refine .inr ⟨rfl, ?_⟩
    cases v with
    | nil => exact absurd rfl hy
    | cons l v => exact h

namespace Spells
variable {form : Form} {s u w : List Lexeme}

/-- Words that can follow any operand can follow any expression. -/
theorem append_edge (hs : ∀ t u, Spells (.operand t) u → Spelled true (u ++ s))
    (h : Spells form u) (hform : form.goesOn) : Spelled true (u ++ s) := by
  induction h with
  | cond hc hy hv _ ihy =>
    obtain ⟨yes, ihy⟩ := ihy rfl
    have hv' := hv.append (hy.starts rfl).ne_nil s
    simpa using (last (cond hc ihy hv')).spelled
  | condElse hc hy hv _ _ _ ihn =>
    obtain ⟨no, ihn⟩ := ihn rfl
    simpa using (last (condElse hc hy hv ihn)).spelled
  | function hword hw _ ihb =>
    obtain ⟨body, ihb⟩ := ihb rfl
    simpa using (last (function hword hw ihb)).spelled
  | single hu => exact hs _ _ hu
  | last _ ih => exact ih rfl
  | more hu hop _ _ ihv => simpa using (ihv rfl).more hu hop
  | expression _ _ ih => exact ih rfl
  | _ => cases hform

/-- Either no conditional without `else` is at the right edge, or an `else` can follow. -/
theorem settled_or_append_else (h : Spells form u) (hform : form.goesOn) :
    Spelled false u ∨ ∀ n, Spelled true n → Spelled true (u ++ .keyword "else" :: n) := by
  induction h with
  | cond hc hy hv _ ihy =>
    refine .inr fun n hn => ?_
    rcases ihy rfl with ⟨yes, ihy⟩ | ihy
    · obtain ⟨no, hn⟩ := hn
      exact (last (condElse hc ihy hv hn)).spelled
    · obtain ⟨yes, ihy⟩ := ihy n hn
      have hv' := hv.append (hy.starts rfl).ne_nil (.keyword "else" :: n)
      simpa using (last (cond hc ihy hv')).spelled
  | condElse hc hy hv _ _ _ ihn =>
    refine (ihn rfl).imp (fun ⟨e, ihn⟩ => (last (condElse hc hy hv ihn)).spelled) fun ihn n hn => ?_
    obtain ⟨e, ihn⟩ := ihn n hn
    simpa using (last (condElse hc hy hv ihn)).spelled
  | function hword hw _ ihb =>
    refine (ihb rfl).imp (fun ⟨body, ihb⟩ => (last (function hword hw ihb)).spelled) ?_
    intro ihb n hn
    obtain ⟨body, ihb⟩ := ihb n hn
    simpa using (last (function hword hw ihb)).spelled
  | single hu => exact .inl (single hu).spelled
  | last _ ih => exact ih rfl
  | more hu hop _ _ ihv =>
    exact (ihv rfl).imp (fun ihv => ihv.more hu hop) fun ihv n hn => by
      simpa using (ihv n hn).more hu hop
  | expression _ _ ih => exact ih rfl
  | _ => cases hform

theorem calls_snoc {callee t : Expr} {ps : List (List Lexeme × Expr)}
    (hps : ∀ p ∈ ps, Spells (.expression true p.2) p.1) (hw : Listed "," (ps.map Prod.fst) w)
    (h : Spells (.calls callee t) u) :
    Spells (.calls callee (.call t (ps.map Prod.snd))) (u ++ .mark "(" :: w ++ [.mark ")"]) := by
  generalize hform : Form.calls callee t = form at h
  induction h generalizing callee with
  | plain => cases hform; simpa using call hps hw .plain
  | call hps' hw' _ _ ih => cases hform; simpa using call hps' hw' (ih rfl)
  | _ => cases hform

theorem operand_call {t : Expr} {ps : List (List Lexeme × Expr)}
    (hps : ∀ p ∈ ps, Spells (.expression true p.2) p.1) (hw : Listed "," (ps.map Prod.fst) w)
    (h : Spells (.operand t) u) :
    Spells (.operand (.call t (ps.map Prod.snd))) (u ++ .mark "(" :: w ++ [.mark ")"]) := by
  cases h with
  | operand hu hv => simpa using operand hu (hv.calls_snoc hps hw)

theorem of_base {t : Expr} (h : Spells (.base t) u) : Spells (.operand t) u := by
  simpa using operand h .plain

end Spells

theorem exists_spells_of_forall {vs : List (List Lexeme)} (h : ∀ v ∈ vs, Spelled true v) :
    ∃ ps : List (List Lexeme × Expr), ps.map Prod.fst = vs ∧
      ∀ p ∈ ps, Spells (.expression true p.2) p.1 := by
  induction vs with
  | nil => exact ⟨[], rfl, by simp⟩
  | cons v vs ih =>
    obtain ⟨⟨t, ht⟩, hvs⟩ := List.forall_mem_cons.1 h
    obtain ⟨ps, rfl, hps⟩ := ih hvs
    exact ⟨(v, t) :: ps, rfl, List.forall_mem_cons.2 ⟨ht, hps⟩⟩

theorem Spells.spelled_of_base {t : Expr} {u : List Lexeme} (h : Spells (.base t) u) :
    Spelled true u :=
  (Spells.single h.of_base).spelled

theorem Derives.spelled {p : Phrase} {u : List Lexeme} (h : Derives p u) : Spelled true u := by
  induction h with
  | operand _ ih => exact ih
  | operation _ hop _ ihu ihv =>
    obtain ⟨t, ihu⟩ := ihu
    exact ihu.append_edge (fun t u hu => ihv.more hu hop) rfl
  | plain _ ih => exact ih
  | call _ _ hw ihu ihvs =>
    obtain ⟨t, ihu⟩ := ihu
    obtain ⟨ps, rfl, hps⟩ := exists_spells_of_forall ihvs
    simpa using ihu.append_edge (s := .mark "(" :: (_ ++ [.mark ")"]))
      (fun t u hu => by simpa using (Spells.single (hu.operand_call hps hw)).spelled) rfl
  | group _ ih =>
    obtain ⟨t, ih⟩ := ih
    exact (Spells.group ih).spelled_of_base
  | block _ hw ih =>
    obtain ⟨ps, rfl, hps⟩ := exists_spells_of_forall ih
    exact (Spells.block hps hw).spelled_of_base
  | cond _ _ hv ihc ihy =>
    obtain ⟨test, ihc⟩ := ihc
    obtain ⟨yes, ihy⟩ := ihy
    exact (Spells.last (.cond ihc ihy hv)).spelled
  | @condElse c y v n _ hy hv _ ihc ihy ihn =>
    obtain ⟨test, ihc⟩ := ihc
    obtain ⟨yes, ihy⟩ := ihy
    rcases ihy.settled_or_append_else rfl with ⟨yes, hy'⟩ | hy'
    · obtain ⟨no, ihn⟩ := ihn
      exact (Spells.last (.condElse ihc hy' hv ihn)).spelled
    · -- the `else` belongs to a conditional at the end of the consequent
      obtain ⟨yes', hy'⟩ := hy' n ihn
      have hv' := hv.append hy.ne_nil (.keyword "else" :: n)
      simpa using (Spells.last (.cond ihc hy' hv')).spelled
  | yes => exact Spells.yes.spelled_of_base
  | no => exact Spells.no.spelled_of_base
  | function hword hw _ ih =>
    obtain ⟨body, ih⟩ := ih
    exact (Spells.last (.function hword hw ih)).spelled
  | number x => exact (Spells.number x).spelled_of_base
  | text s => exact (Spells.text s).spelled_of_base
  | name n => exact (Spells.name n).spelled_of_base

theorem IsProgram.exists_spells {w : List Lexeme} (h : IsProgram w) :
    ∃ ps : List (List Lexeme × Expr), (∀ p ∈ ps, Spells (.expression true p.2) p.1) ∧
      Listed ";" (ps.map Prod.fst) w := by
  obtain ⟨vs, hvs, hw⟩ := h
  obtain ⟨ps, rfl, hps⟩ := exists_spells_of_forall fun v hv => (hvs v hv).spelled
  exact ⟨ps, hps, hw⟩

end ExprLang
