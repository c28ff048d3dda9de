import ExprLang.Proofs.Soundness
import ExprLang.Proofs.Spelling

/-!
# What is spelled is read

The productions read the words of a tree back as that tree, whatever follows, as long as it cannot
belong to the tree (`Ends`). The only ways to fail are to run out of depth, and to come upon an
assignment to something other than a name, which must then stand in the tree.

The proof goes by the depth. `climb` keeps two things in view: the operators still ahead of it
(`Behind`), and how they group (`Groups`).
-/

namespace ExprLang
open TokenSource Grammar

/-- Every assignment in a tree is to a name. -/
inductive ValidTargets : Expr → Prop
  | number (x : Float) : ValidTargets (.number x)
  | text (s : String) : ValidTargets (.text s)
  | truth (b : Bool) : ValidTargets (.truth b)
  | name (n : String) : ValidTargets (.name n)
  | alien (written : String) : ValidTargets (.alien written)
  | lambda {params : List String} {body : Expr} (hb : ValidTargets body) :
      ValidTargets (.lambda params body)
  | call {callee : Expr} {args : List Expr} (hc : ValidTargets callee)
      (ha : ∀ a ∈ args, ValidTargets a) : ValidTargets (.call callee args)
  | cond {test yes : Expr} {no : Option Expr} (ht : ValidTargets test) (hy : ValidTargets yes)
      (hn : ∀ e ∈ no, ValidTargets e) : ValidTargets (.cond test yes no)
  | assign {n : String} {value : Expr} (hv : ValidTargets value) :
      ValidTargets (.assign (.name n) value)
  | binary {op : String} {left right : Expr} (hl : ValidTargets left) (hr : ValidTargets right) :
      ValidTargets (.binary op left right)
  | block {items : List Expr} (hi : ∀ e ∈ items, ValidTargets e) : ValidTargets (.block items)

namespace ValidTargets

theorem of_joined {op : String} {left right : Expr} (h : ValidTargets (joined op left right)) :
    ValidTargets left ∧ ValidTargets right ∧ (op = "=" → ∃ n, left = .name n) := by
  unfold joined at h
  split at h
  · cases h with
    | assign hv => exact ⟨.name _, hv, fun _ => ⟨_, rfl⟩⟩
  · rename_i hop
    cases h with
    | binary hl hr => exact ⟨hl, hr, fun h => absurd h (by simpa using hop)⟩

theorem of_groups {bound : Nat} {left t : Expr} {ops rest : List (String × Expr)}
    (h : Groups bound left ops t rest) (ht : ValidTargets t) : ValidTargets left := by
  induction h with
  | nil => exact ht
  | stop => exact ht
  | step _ _ _ _ _ ih => exact (of_joined (ih ht)).1

theorem of_calls {callee t : Expr} {u : List Lexeme} (h : Spells (.calls callee t) u)
    (ht : ValidTargets t) : ValidTargets callee := by
  generalize hform : Form.calls callee t = form at h
  induction h generalizing callee with
  | plain => cases hform; exact ht
  | call _ _ _ _ ih =>
    cases hform
    cases ih rfl with
    | call hc _ => exact hc
  | _ => cases hform

theorem of_blockOf {items : List Expr} (h : ValidTargets (blockOf items)) :
    ∀ e ∈ items, ValidTargets e := by
  match items with
  | [] => simp
  | [e] => simpa [blockOf] using h
  | e :: e' :: es =>
    cases h with
    | block hi => exact hi

theorem blockOf {items : List Expr} (h : ∀ e ∈ items, ValidTargets e) :
    ValidTargets (blockOf items) := by
  match items with
  | [] => exact .truth false
  | [e] => exact h e (List.mem_singleton_self e)
  | e :: e' :: es => exact .block h

theorem of_reads {u : List Lexeme} {t : Expr} (h : Reads u t) : ValidTargets t := by
  have items : ∀ {ps : List (List Lexeme × Expr)}, (∀ p ∈ ps, ValidTargets p.2) →
      ∀ e ∈ ps.map Prod.snd, ValidTargets e := by
    intro ps hps e he
    obtain ⟨p, hp, rfl⟩ := List.mem_map.1 he
    exact hps p hp
  induction h with
  | number x => exact .number x
  | text s => exact .text s
  | name n => exact .name n
  | yes | no => exact .truth _
  | group _ ih => exact ih
  | block _ _ ih => exact blockOf (items ih)
  | cond _ _ _ ihc ihy => exact .cond ihc ihy nofun
  | condElse _ _ _ _ ihc ihy ihn =>
    refine .cond ihc ihy fun e he => ?_
    cases he
    exact ihn
  | function _ _ _ ih => exact .lambda ih
  | call _ _ _ ihu ih => exact .call ihu (items ih)
  | assign _ _ _ ihv => exact .assign ihv
  | binary _ _ _ _ ihu ihv => exact .binary ihu ihv

end ValidTargets

/-- How reading the words of `t` can fail. -/
def Refused (t : Expr) (err : Stop SourceError) (_ : Words) : Prop :=
  err = .tooDeep ∨ ¬ ValidTargets t ∧
    ∃ target n, err = .error (.at .parse (.badTarget target) n 0)

theorem Refused.mono {t t' : Expr} {err : Stop SourceError} {w : Words} (h : Refused t err w)
    (ht : ValidTargets t' → ValidTargets t) : Refused t' err w :=
  h.imp_right fun ⟨hn, h⟩ => ⟨fun h' => hn (ht h'), h⟩

/-- In front of `r`, the words `u` are read as `t`. -/
def Gives (x : Reading Words Expr) (u : List Lexeme) (t : Expr) (r : List Lexeme) : Prop :=
  wp x (fun e w => e = t ∧ w = ⟨r, none⟩) (Refused t) ⟨u ++ r, none⟩

theorem Gives.tooDeep {u r : List Lexeme} {t : Expr} : Gives (throw .tooDeep) u t r := .inl rfl

/-- What holds of `t` and the words behind it holds of the run. -/
theorem Gives.elim {x : Reading Words Expr} {Q : Expr → Words → Prop} {u r : List Lexeme}
    {t t' : Expr} (h : Gives x u t r) (ht : ValidTargets t' → ValidTargets t)
    (hQ : Q t ⟨r, none⟩) : wp x Q (Refused t') ⟨u ++ r, none⟩ := by
  refine wp_mono h ?_ fun _ _ h => h.mono ht
  rintro _ _ ⟨rfl, rfl⟩
  exact hQ

/-- The words `r` cannot belong to an expression in front of them. -/
def Ends (dangling : Bool) (r : List Lexeme) : Prop :=
  ∀ l ∈ r.head?, l ≠ .mark "(" ∧ (∀ op, l = .operator op → ¬ IsOperator op) ∧
    (dangling → l ≠ .keyword "else")

namespace Ends
variable {dangling : Bool} {r : List Lexeme}

theorem nil : Ends dangling [] := by simp [Ends]

theorem mark {m : String} (hm : m ≠ "(") : Ends dangling (.mark m :: r) := by simp [Ends, hm]

theorem keyword {k : String} (hk : dangling → k ≠ "else") : Ends dangling (.keyword k :: r) := by
  simpa [Ends] using hk

theorem consequent {y v : List Lexeme} (hv : Consequent y v) : Ends true (v ++ r) := by
  rcases hv with rfl | ⟨rfl, hhead⟩
  · exact keyword (by decide)
  · cases v with
    | nil => cases hhead
    | cons l v =>
      cases hhead
      exact mark (by decide)

theorem not_call (h : Ends dangling r) : r.head? ≠ some (.mark "(") := fun hr => (h _ hr).1 rfl

end Ends

/-- The word `l` is an operator that binds more tightly than `bound`. -/
def Binds (bound : Nat) (l : Lexeme) : Prop :=
  ∃ op n, l = .operator op ∧ precedence op = some n ∧ bound < n

theorem Ends.not_binds {dangling : Bool} {r : List Lexeme} (h : Ends dangling r) (bound : Nat) :
    ∀ l ∈ r.head?, ¬ Binds bound l := by
  rintro l hl ⟨op, n, rfl, hop, -⟩
  exact (h _ hl).2.1 op rfl (by simp [IsOperator, hop])

/-- Where no operator goes on, nothing is taken. -/
theorem nextOperation_of_not_binds {d : Nat} {x : Reading Words Expr}
    {f : Nat → Expr → Reading Words Expr} {bound : Nat} {left : Expr} {ls : List Lexeme}
    (h : ∀ l ∈ ls.head?, ¬ Binds bound l) :
    nextOperation d x f bound left ⟨ls, none⟩ = .ok none ⟨ls, none⟩ := by
  refine ok_of_wp ?_
  rw [nextOperation, wp_bind]
  cases ls with
  | nil => exact ⟨rfl, rfl⟩
  | cons l ls =>
    cases l with
    | operator op =>
      rw [wp_operator?_cons]
      simp only [Lexeme.value]
      cases hop : precedence op with
      | none => exact ⟨rfl, rfl⟩
      | some n =>
        have hle : n ≤ bound := Nat.not_lt.1 fun hlt => h _ rfl ⟨op, n, rfl, hop, hlt⟩
        simp [hle]
    | _ =>
      rw [wp_operator?_of_not rfl]
      exact ⟨rfl, rfl⟩

section
variable {α : Type} {B : Stop SourceError → Words → Prop} {r : List Lexeme} {st : Option Char}

theorem wp_skipMark_self {m : String} {Q : Unit → Words → Prop} :
    wp (skipMark m) Q B ⟨.mark m :: r, st⟩ ↔ Q () ⟨r, st⟩ := by simp

theorem wp_skipKeyword_self {k : String} {Q : Unit → Words → Prop} :
    wp (skipKeyword k) Q B ⟨.keyword k :: r, st⟩ ↔ Q () ⟨r, st⟩ := by simp

theorem wp_atEnd_append {Q : Bool → Words → Prop} {v : List Lexeme} {l : Lexeme} :
    wp atEnd Q B ⟨v ++ l :: r, st⟩ ↔ Q false ⟨v ++ l :: r, st⟩ := by
  cases v <;> simp

theorem wp_atMark_of_eq {m : String} {Q : Bool → Words → Prop} (h : r.head? = some (.mark m)) :
    wp (atMark m) Q B ⟨r, st⟩ ↔ Q true ⟨r, st⟩ := by
  cases r with
  | nil => cases h
  | cons l r =>
    obtain rfl : l = .mark m := by simpa using h
    simp

theorem wp_atMark_of_ne {m : String} {Q : Bool → Words → Prop} (h : r.head? ≠ some (.mark m)) :
    wp (atMark m) Q B ⟨r, none⟩ ↔ Q false ⟨r, none⟩ := by
  cases r with
  | nil => simp
  | cons l r =>
    have hl : l ≠ .mark m := by simpa using h
    simp [hl]

theorem wp_atKeyword_of_ne {k : String} {Q : Bool → Words → Prop}
    (h : r.head? ≠ some (.keyword k)) : wp (atKeyword k) Q B ⟨r, none⟩ ↔ Q false ⟨r, none⟩ := by
  cases r with
  | nil => simp
  | cons l r =>
    have hl : l ≠ .keyword k := by simpa using h
    simp [hl]

/-- The consequent of a conditional is read from its first word on. -/
theorem wp_consequent {x : Reading Words α} {Q : α → Words → Prop} {y v : List Lexeme}
    (hv : Consequent y v) (h : wp x Q B ⟨y ++ r, none⟩) :
    wp (do unless ← atMark "\x7b" do skipKeyword "then"
           x) Q B ⟨v ++ r, none⟩ := by
  rw [wp_bind]
  rcases hv with rfl | ⟨rfl, hhead⟩
  · rw [wp_atMark_of_ne (by simp)]
    simpa using h
  · rw [wp_atMark_of_eq (by simp [hhead])]
    exact h

/-- What is left of a list of the items `us`, at its start or behind an item. -/
def Remaining (sep : String) (first : Bool) (us : List (List Lexeme)) (v : List Lexeme) : Prop :=
  if first then Listed sep us v else us = [] ∧ v = [] ∨ ∃ v', v = .mark sep :: v' ∧ Listed sep us v'

theorem Listed.remaining {sep : String} {u v : List Lexeme} {us : List (List Lexeme)}
    (h : Listed sep (u :: us) v) : ∃ v', v = u ++ v' ∧ Remaining sep false us v' := by
  rcases h.cons_inv with ⟨rfl, rfl⟩ | ⟨w', rfl, hw'⟩
  · exact ⟨[], by simp, .inl ⟨rfl, rfl⟩⟩
  · exact ⟨_, rfl, .inr ⟨w', rfl, hw'⟩⟩

/-- An item is read in front of a separator and of the mark that ends the list. -/
def ReadsItem (item : Reading Words α) (B : Stop SourceError → Words → Prop) (stop sep : String)
    (p : List Lexeme × α) : Prop :=
  Starts p.1 ∧ ∀ m r, m = sep ∨ m = stop →
    wp item (fun a w => a = p.2 ∧ w = ⟨.mark m :: r, none⟩) B ⟨p.1 ++ .mark m :: r, none⟩

theorem Starts.head_ne {u : List Lexeme} (h : Starts u) {m : String} (hm : m ≠ "(")
    (hm' : m ≠ "\x7b") (r : List Lexeme) : (u ++ r).head? ≠ some (.mark m) := by
  obtain ⟨l, v, rfl, hl⟩ := h
  rintro h
  rcases hl m (by simpa using h) with rfl | rfl
  · exact hm rfl
  · exact hm' rfl

/-- The items `all` of a list over their words, with those of `items` taken. -/
def Underway (stop sep : String) (all : List (List Lexeme × α)) (r : List Lexeme) (items : List α)
    (w : Words) : Prop :=
  ∃ taken left v, all = taken ++ left ∧ items = (taken.map Prod.snd).reverse ∧
    Remaining sep taken.isEmpty (left.map Prod.fst) v ∧ w = ⟨v ++ .mark stop :: r, none⟩

section
variable {stop sep : String} {item : Reading Words α} {all : List (List Lexeme × α)}

/-- Behind a separator, or at the start of a list. -/
theorem wp_item_or_stop (hstop : stop ≠ "(") (hstop' : stop ≠ "\x7b")
    {taken left : List (List Lexeme × α)} {v : List Lexeme} (hall : all = taken ++ left)
    (hitem : ∀ p ∈ all, ReadsItem item B stop sep p) (hv : Listed sep (left.map Prod.fst) v) :
    wp (do
      if ← atMark stop then return none
      return some ((← item) :: (taken.map Prod.snd).reverse))
      (fun o w => o.elim (taken = all ∧ w = ⟨.mark stop :: r, none⟩)
        fun items => Underway stop sep all r items w) B ⟨v ++ .mark stop :: r, none⟩ := by
  cases left with
  | nil =>
    obtain rfl := hv.nil_inv
    simp [hall]
  | cons p left =>
    obtain ⟨v', rfl, hv'⟩ := Listed.remaining hv
    obtain ⟨hstarts, hread⟩ := hitem p (by simp [hall])
    rw [List.append_assoc, wp_bind, wp_atMark_of_ne (hstarts.head_ne hstop hstop' _)]
    -- what follows the item is a separator or the end of the list
    obtain ⟨m, r', hm, hr'⟩ : ∃ m r', (m = sep ∨ m = stop) ∧
        v' ++ .mark stop :: r = .mark m :: r' := by
      rcases hv' with ⟨-, rfl⟩ | ⟨w', rfl, -⟩
      · exact ⟨stop, r, .inr rfl, rfl⟩
      · exact ⟨sep, _, .inl rfl, rfl⟩
    simp only [Bool.false_eq_true, if_false, wp_bind, wp_pure, hr']
    refine wp_mono (hread m r' hm) ?_ fun _ _ h => h
    rintro a w ⟨rfl, rfl⟩
    refine ⟨taken ++ [p], left, v', by simp [hall], by simp, ?_, by rw [hr']⟩
    simpa [Remaining] using hv'

theorem wp_nextItem (hsep : sep ≠ stop) (hstop : stop ≠ "(") (hstop' : stop ≠ "\x7b")
    (hitem : ∀ p ∈ all, ReadsItem item B stop sep p) {items : List α} {w : Words}
    (h : Underway stop sep all r items w) : wp (nextItem stop sep item items)
      (fun o w' => o.elim (items = (all.map Prod.snd).reverse ∧ w' = ⟨.mark stop :: r, none⟩)
        fun items' => Underway stop sep all r items' w') B w := by
  obtain ⟨taken, left, v, hall, rfl, hv, rfl⟩ := h
  rw [nextItem, wp_bind, wp_atEnd_append]
  simp only [Bool.false_eq_true, if_false]
  have tail : ∀ v, Listed sep (left.map Prod.fst) v → wp (do
      if ← atMark stop then return none
      return some ((← item) :: (taken.map Prod.snd).reverse))
      (fun o w' => o.elim ((taken.map Prod.snd).reverse = (all.map Prod.snd).reverse ∧
        w' = ⟨.mark stop :: r, none⟩) fun items' => Underway stop sep all r items' w') B
      ⟨v ++ .mark stop :: r, none⟩ := by
    intro v hv
    refine wp_mono (wp_item_or_stop hstop hstop' hall hitem hv) (fun o w h => ?_) fun _ _ h => h
    cases o with
    | none => exact ⟨by rw [h.1], h.2⟩
    | some items => exact h
  by_cases hfirst : taken = []
  · subst hfirst
    obtain _ | ⟨p, left⟩ := left
    · obtain rfl : v = [] := Listed.nil_inv hv
      rw [List.nil_append, wp_bind, wp_atMark_of_eq rfl]
      exact ⟨by simp [hall], rfl⟩
    · have hstarts := (hitem p (by simp [hall])).1
      obtain ⟨v', rfl, -⟩ := Listed.remaining hv
      rw [List.append_assoc, wp_bind, wp_atMark_of_ne (hstarts.head_ne hstop hstop' _),
        ← List.append_assoc]
      simpa [skipSeparator] using tail _ hv
  · have hempty : taken.isEmpty = false := by simpa using hfirst
    rw [hempty] at hv
    rcases hv with ⟨hleft, rfl⟩ | ⟨v', rfl, hv'⟩
    · rw [List.nil_append, wp_bind, wp_atMark_of_eq rfl]
      exact ⟨by simp [hall, List.map_eq_nil_iff.1 hleft], rfl⟩
    · have hitems : (taken.map Prod.snd).reverse.isEmpty = false := by simpa using hfirst
      rw [List.cons_append, wp_bind, wp_atMark_of_ne (by simpa using hsep)]
      simp only [Bool.false_eq_true, if_false, skipSeparator, hitems]
      rw [wp_bind, wp_skipMark_self]
      exact tail v' hv'

theorem wp_delimited {start : String} {w : List Lexeme} (hsep : sep ≠ stop) (hstop : stop ≠ "(")
    (hstop' : stop ≠ "\x7b") (hprog : Takes item fun u _ => u ≠ [])
    (hitem : ∀ p ∈ all, ReadsItem item B stop sep p) (hw : Listed sep (all.map Prod.fst) w) :
    wp (delimited start stop sep item)
      (fun as w' => as = all.map Prod.snd ∧ w' = ⟨r, none⟩) B
      ⟨.mark start :: w ++ .mark stop :: r, none⟩ := by
  rw [delimited, wp_bind, List.cons_append, wp_skipMark_self, wp_bind]
  refine wp_mono ((progresses_nextItem stop sep hprog).wp_loop
    (fun items w' h => wp_nextItem hsep hstop hstop' hitem h)
    ⟨[], all, w, rfl, rfl, hw, rfl⟩) ?_ fun _ _ h => h
  rintro items w' ⟨rfl, rfl⟩
  rw [wp_bind, wp_skipMark_self, wp_pure]
  exact ⟨by simp, rfl⟩

end

end

/-! ### Productions -/

/-- The words of operators and operands behind an operand. -/
inductive Behind (dangling : Bool) : List (String × Expr) → List Lexeme → Prop
  | nil : Behind dangling [] []
  | cons {op : String} {t : Expr} {ops : List (String × Expr)} {v : List Lexeme}
      (hv : Spells (.chain dangling t ops) v) : Behind dangling ((op, t) :: ops) (.operator op :: v)

theorem wp_join_of_name {d : Nat} {token : Token} {op : String} {left right : Expr} {w : Words}
    {Q : Expr → Words → Prop} {B : Stop SourceError → Words → Prop}
    (hleft : op = "=" → ∃ n, left = .name n) (h : Q (joined op left right) w) :
    wp (join d token op left right) Q B w := by
  unfold join
  unfold joined at h
  split
  · rename_i hop
    obtain ⟨n, rfl⟩ := hleft (beq_iff_eq.1 hop)
    rwa [if_pos hop] at h
  · rename_i hop
    rwa [if_neg hop] at h

theorem wp_join_refused {d n : Nat} {left right : Expr} {w : Words} {Q : Expr → Words → Prop}
    {B : Stop SourceError → Words → Prop} (hleft : ∀ m, left ≠ .name m) (hdeep : B .tooDeep w)
    (h : B (.error (.at .parse (.badTarget left) n 0)) w) :
    wp (join d ⟨.operator "=", n, 0⟩ "=" left right) Q B w := by
  unfold join
  rw [if_pos (by decide)]
  split
  · exact absurd rfl (hleft _)
  · rw [refuse]
    split
    · exact h
    · exact hdeep

/-- The productions that nest to depth `d` read what is spelled. -/
structure Accepts (d : Nat) : Prop where
  expression : ∀ {b t u r}, Spells (.expression b t) u → Ends b r → Gives (expression d) u t r
  operand : ∀ {t u r}, Spells (.operand t) u → r.head? ≠ some (.mark "(") → Gives (atom d) u t r
  reaching : ∀ {b t u r}, Spells (.reaching b t) u → Ends b r → Gives (atom d) u t r
  base : ∀ {t u r}, Spells (.base t) u → Gives (primary d) u t r
  reach : ∀ {b t u r}, Spells (.reaching b t) u → Ends b r → Gives (primary d) u t r
  block : ∀ {ps : List (List Lexeme × Expr)} {w r}, (∀ p ∈ ps, Spells (.expression true p.2) p.1) →
    Listed "," (ps.map Prod.fst) w →
    Gives (block d) (.mark "\x7b" :: w ++ [.mark "\x7d"]) (blockOf (ps.map Prod.snd)) r
  conditional : ∀ {b t u r}, Spells (.reaching b t) u → u.head? = some (.keyword "if") →
    Ends b r → Gives (conditional d) u t r
  function : ∀ {b params body w u r}, Listed "," (params.map fun n => [.name n]) w →
    Spells (.expression b body) u → Ends b r →
    Gives (function d) (.mark "(" :: w ++ .mark ")" :: u) (.lambda params body) r
  arguments : ∀ {callee} {ps : List (List Lexeme × Expr)} {w r},
    (∀ p ∈ ps, Spells (.expression true p.2) p.1) → Listed "," (ps.map Prod.fst) w →
    Gives (arguments d callee) (.mark "(" :: w ++ [.mark ")"]) (.call callee (ps.map Prod.snd)) r
  calls : ∀ {callee t u r}, Spells (.calls callee t) u → r.head? ≠ some (.mark "(") →
    Gives (calls d callee) u t r
  climb : ∀ {b bound left t ops rest u r}, Groups bound left ops t rest → Behind b ops u →
    Ends b r → wp (climb d bound left)
      (fun e w => e = t ∧ ∃ v, Behind b rest v ∧ w = ⟨v ++ r, none⟩) (Refused t) ⟨u ++ r, none⟩

namespace Accepts
variable {d : Nat} {b : Bool} {t : Expr} {u w r : List Lexeme}

/-- The first operand of a chain is read, and leaves the rest of the chain. -/
theorem first (h : Accepts d) {ops : List (String × Expr)} (hu : Spells (.chain b t ops) u)
    (hr : Ends b r) :
    ∃ v v', u = v ++ v' ∧ Behind b ops v' ∧ Gives (Grammar.atom d) v t (v' ++ r) := by
  cases hu with
  | single hu => exact ⟨u, [], by simp, .nil, h.operand hu hr.not_call⟩
  | last hu => exact ⟨u, [], by simp, .nil, h.reaching hu hr⟩
  | more hu _ hv => exact ⟨_, _, rfl, .cons hv, h.operand hu (by simp)⟩

theorem expression_succ (h : Accepts d) (hu : Spells (.expression b t) u) (hr : Ends b r) :
    Gives (Grammar.expression (d + 1)) u t r := by
  cases hu with
  | expression hu ht =>
    obtain ⟨v, v', rfl, hv', hfirst⟩ := h.first hu hr
    rw [Gives, Grammar.expression, List.append_assoc, wp_bind]
    refine hfirst.elim (ValidTargets.of_groups ht) ?_
    rw [wp_bind]
    refine wp_mono (h.climb ht hv' hr) ?_ fun _ _ h => h
    rintro _ _ ⟨rfl, v, hv, rfl⟩
    cases hv
    exact h.calls .plain hr.not_call

theorem operand_succ (h : Accepts d) (hu : Spells (.operand t) u)
    (hr : r.head? ≠ some (.mark "(")) : Gives (Grammar.atom (d + 1)) u t r := by
  cases hu with
  | operand hu hv =>
    rw [Gives, Grammar.atom, List.append_assoc, wp_bind]
    exact (h.base hu).elim (ValidTargets.of_calls hv) (h.calls hv hr)

theorem reaching_succ (h : Accepts d) (hu : Spells (.reaching b t) u) (hr : Ends b r) :
    Gives (Grammar.atom (d + 1)) u t r := by
  rw [Gives, Grammar.atom, wp_bind]
  exact (h.reach hu hr).elim id (h.calls .plain hr.not_call)

theorem base_succ (h : Accepts d) (hu : Spells (.base t) u) :
    Gives (Grammar.primary (d + 1)) u t r := by
  rw [Gives, Grammar.primary]
  cases hu with
  | group hu =>
    simp only [List.append_assoc, List.cons_append, List.nil_append, wp_bind, wp_peek_cons,
      Option.map_some, wp_discard, wp_next_cons]
    have hr : Ends true (.mark ")" :: r) := .mark (by decide)
    refine (h.expression hu hr).elim id ?_
    rw [wp_skipMark_self]
    exact ⟨rfl, rfl⟩
  | block hps hw => exact h.block hps hw
  | yes => simp [truth, Lexeme.value]
  | no => simp [truth, Lexeme.value]
  | _ => simp

theorem reach_succ (h : Accepts d) (hu : Spells (.reaching b t) u) (hr : Ends b r) :
    Gives (Grammar.primary (d + 1)) u t r := by
  rw [Gives, Grammar.primary]
  cases hu with
  | cond hc hy hv => exact h.conditional (.cond hc hy hv) rfl hr
  | condElse hc hy hv hn => exact h.conditional (.condElse hc hy hv hn) rfl hr
  | function hword hw hb =>
    have hbody := h.function hw hb hr
    rw [Gives] at hbody
    rcases hword with rfl | rfl <;> simpa using hbody

theorem readsItem (h : Accepts d) {stop : String} (hstop : stop ≠ "(")
    {p : List Lexeme × Expr} (hp : Spells (.expression true p.2) p.1) {t : Expr}
    (ht : ValidTargets t → ValidTargets p.2) :
    ReadsItem (Grammar.expression d) (Refused t) stop "," p := by
  refine ⟨hp.starts rfl, fun m r hm => wp_mono (h.expression hp (.mark ?_)) (fun _ _ h => h)
    fun _ _ h => h.mono ht⟩
  rcases hm with rfl | rfl
  · decide
  · exact hstop

theorem wp_items (h : Accepts d) {start stop : String} {t : Expr} (hsep : "," ≠ stop)
    (hstop : stop ≠ "(") (hstop' : stop ≠ "\x7b") {ps : List (List Lexeme × Expr)}
    (hps : ∀ p ∈ ps, Spells (.expression true p.2) p.1) (hw : Listed "," (ps.map Prod.fst) w)
    (ht : ValidTargets t → ∀ e ∈ ps.map Prod.snd, ValidTargets e) :
    wp (delimited start stop "," (Grammar.expression d))
      (fun es w' => es = ps.map Prod.snd ∧ w' = ⟨r, none⟩) (Refused t)
      ⟨.mark start :: w ++ [.mark stop] ++ r, none⟩ := by
  rw [List.append_assoc, List.singleton_append]
  exact wp_delimited hsep hstop hstop' (takes_expression_ne_nil d) (fun p hp =>
    h.readsItem hstop (hps p hp) fun h => ht h _ (List.mem_map_of_mem hp)) hw

theorem block_succ (h : Accepts d) {ps : List (List Lexeme × Expr)}
    (hps : ∀ p ∈ ps, Spells (.expression true p.2) p.1) (hw : Listed "," (ps.map Prod.fst) w) :
    Gives (Grammar.block (d + 2)) (.mark "\x7b" :: w ++ [.mark "\x7d"]) (blockOf (ps.map Prod.snd))
      r := by
  rw [Gives, Grammar.block, wp_bind]
  refine wp_mono (h.wp_items (by decide) (by decide) (by decide) hps hw ValidTargets.of_blockOf) ?_
    fun _ _ h => h
  rintro _ _ ⟨rfl, rfl⟩
  exact ⟨rfl, rfl⟩

theorem arguments_succ (h : Accepts d) {callee : Expr} {ps : List (List Lexeme × Expr)}
    (hps : ∀ p ∈ ps, Spells (.expression true p.2) p.1) (hw : Listed "," (ps.map Prod.fst) w) :
    Gives (Grammar.arguments (d + 2) callee) (.mark "(" :: w ++ [.mark ")"])
      (.call callee (ps.map Prod.snd)) r := by
  rw [Gives, Grammar.arguments, wp_bind]
  refine wp_mono (h.wp_items (by decide) (by decide) (by decide) hps hw ?_) ?_ fun _ _ h => h
  · intro ht
    cases ht with
    | call _ ha => exact ha
  · rintro _ _ ⟨rfl, rfl⟩
    exact ⟨rfl, rfl⟩

theorem function_succ (h : Accepts d) {params : List String} {body : Expr}
    (hw : Listed "," (params.map fun n => [.name n]) w) (hu : Spells (.expression b body) u)
    (hr : Ends b r) :
    Gives (Grammar.function (d + 1)) (.mark "(" :: w ++ .mark ")" :: u)
      (.lambda params body) r := by
  let ps : List (List Lexeme × String) := params.map fun n => ([.name n], n)
  have hfst : ps.map Prod.fst = params.map fun n => [.name n] := by simp [ps]
  have hsnd : ps.map Prod.snd = params := by simp [ps, Function.comp_def]
  rw [Gives, Grammar.function, wp_bind, List.append_assoc, List.cons_append]
  rw [← hfst] at hw
  refine wp_mono (wp_delimited (by decide) (by decide) (by decide)
    (takes_variableName.mono fun _ _ h => by simp [h]) (fun p hp => ?_) hw) ?_ fun _ _ h => h
  · obtain ⟨n, -, rfl⟩ := List.mem_map.1 hp
    exact ⟨⟨.name n, [], rfl, by simp⟩, fun m r _ => by simp [variableName]⟩
  · rintro _ _ ⟨rfl, rfl⟩
    rw [wp_bind]
    refine (h.expression hu hr).elim (fun ht => ?_) ⟨by rw [hsnd], rfl⟩
    cases ht with
    | lambda hb => exact hb

theorem conditional_succ (h : Accepts d) (hu : Spells (.reaching b t) u)
    (hif : u.head? = some (.keyword "if")) (hr : Ends b r) :
    Gives (Grammar.conditional (d + 1)) u t r := by
  rw [Gives, Grammar.conditional, wp_bind]
  cases hu with
  | cond hc hy hv =>
    rw [List.append_assoc, List.cons_append, wp_skipKeyword_self, wp_bind]
    refine (h.expression hc (.consequent hv)).elim (fun ht => ?_) (wp_consequent hv ?_)
    · cases ht with
      | cond ht => exact ht
    rw [wp_bind]
    refine (h.expression hy hr).elim (fun ht => ?_) ?_
    · cases ht with
      | cond _ hy => exact hy
    rw [wp_bind, wp_atKeyword_of_ne fun hr' => (hr _ hr').2.2 rfl rfl]
    exact ⟨rfl, rfl⟩
  | @condElse c y v n test yes no _ hc hy hv hn =>
    have hstate : .keyword "if" :: c ++ v ++ .keyword "else" :: n ++ r =
        .keyword "if" :: (c ++ (v ++ .keyword "else" :: (n ++ r))) := by simp
    rw [hstate, wp_skipKeyword_self, wp_bind]
    refine (h.expression hc (.consequent hv)).elim (fun ht => ?_) (wp_consequent hv ?_)
    · cases ht with
      | cond ht => exact ht
    rw [wp_bind]
    refine (h.expression hy (.keyword nofun)).elim (fun ht => ?_) ?_
    · cases ht with
      | cond _ hy => exact hy
    simp only [wp_bind, wp_atKeyword, wp_peek_cons, Option.map_some, wp_discard, wp_next_cons,
      decide_true, if_true]
    refine (h.expression hn hr).elim (fun ht => ?_) ⟨rfl, rfl⟩
    cases ht with
    | cond _ _ hn => exact hn _ rfl
  | function hword => rcases hword with rfl | rfl <;> simp at hif

theorem calls_succ (h : Accepts d) {callee : Expr} (hu : Spells (.calls callee t) u)
    (hr : r.head? ≠ some (.mark "(")) : Gives (Grammar.calls (d + 1) callee) u t r := by
  rw [Gives, Grammar.calls]
  refine (progresses_nextCall d).wp_loop (J := fun f w => ∃ v, Spells (.calls f t) v ∧
    w = ⟨v ++ r, none⟩) ?_ ⟨u, hu, rfl⟩
  rintro f _ ⟨v, hv, rfl⟩
  rw [nextCall, wp_bind]
  cases hv with
  | plain => exact (wp_atMark_of_ne hr).2 ⟨rfl, rfl⟩
  | @call v w _ _ ps hps hw hv =>
    have hargs : Gives (Grammar.arguments d f) _ _ (v ++ r) := h.arguments hps hw
    have hstate : .mark "(" :: w ++ .mark ")" :: v ++ r =
        .mark "(" :: w ++ [.mark ")"] ++ (v ++ r) := by
      simp
    rw [hstate, wp_atMark_of_eq rfl]
    simp only [if_true, wp_bind]
    exact hargs.elim (ValidTargets.of_calls hv) ⟨v, hv, rfl⟩

theorem wp_join {op : String} {left right : Expr} {n : Nat} {s : Words}
    (ht : ValidTargets t → ValidTargets (joined op left right)) :
    wp (join d ⟨.operator op, n, 0⟩ op left right)
      (fun e s' => e = joined op left right ∧ s' = s) (Refused t) s := by
  by_cases hleft : op = "=" → ∃ m, left = .name m
  · exact wp_join_of_name hleft ⟨rfl, rfl⟩
  · have hbad : ¬ ValidTargets t := fun h => hleft (ht h).of_joined.2.2
    obtain ⟨rfl, hno⟩ := Classical.not_imp.1 hleft
    exact wp_join_refused (not_exists.1 hno) (.inl rfl) (.inr ⟨hbad, left, n, rfl⟩)

theorem climb_succ (h : Accepts d) {bound : Nat} {left : Expr} {ops rest : List (String × Expr)}
    (ht : Groups bound left ops t rest) (hu : Behind b ops u) (hr : Ends b r) :
    wp (Grammar.climb (d + 1) bound left)
      (fun e w => e = t ∧ ∃ v, Behind b rest v ∧ w = ⟨v ++ r, none⟩) (Refused t)
      ⟨u ++ r, none⟩ := by
  rw [Grammar.climb]
  refine (progresses_nextOperation d bound).wp_loop (J := fun e w => ∃ ops v,
    Groups bound e ops t rest ∧ Behind b ops v ∧ w = ⟨v ++ r, none⟩) ?_ ⟨ops, u, ht, hu, rfl⟩
  rintro e _ ⟨ops, v, ht, hv, rfl⟩
  cases ht with
  | nil =>
    cases hv
    rw [List.nil_append, wp_iff_of_ok (nextOperation_of_not_binds (hr.not_binds bound))]
    exact ⟨rfl, [], .nil, rfl⟩
  | stop hp hb =>
    cases hv with
    | cons hv =>
      rw [nextOperation, wp_bind, List.cons_append, wp_operator?_cons]
      simp only [Lexeme.value, hp, hb, if_true]
      exact ⟨trivial, _, .cons hv, rfl⟩
  | @step _ p _ operand right _ op _ ops' _ hp hb hright ht =>
    cases hv with
    | cons hv =>
      obtain ⟨v, v', rfl, hv', hfirst⟩ := h.first hv hr
      have hvalid := fun h => (ValidTargets.of_groups ht h).of_joined.2.1
      rw [nextOperation, wp_bind, List.cons_append, wp_operator?_cons]
      simp only [Lexeme.value, hp, Nat.not_le.2 hb, if_false, wp_bind, wp_discard, wp_next_cons,
        List.append_assoc]
      refine hfirst.elim (fun h => (ValidTargets.of_groups hright (hvalid h))) ?_
      refine wp_mono (h.climb hright hv' hr) ?_ fun _ _ h => h.mono hvalid
      rintro _ _ ⟨rfl, v, hv, rfl⟩
      refine wp_mono (wp_join (ValidTargets.of_groups ht)) ?_ fun _ _ h => h
      rintro _ _ ⟨rfl, rfl⟩
      exact ⟨ops', v, ht, hv, rfl⟩

end Accepts

theorem accepts (d : Nat) : Accepts d := by
  induction d using Nat.strongRecOn with
  | ind d ih =>
    match d with
    | 0 => constructor <;> intros <;> exact .inl rfl
    | 1 =>
      have h := ih 0 (by omega)
      exact ⟨h.expression_succ, h.operand_succ, h.reaching_succ, h.base_succ, h.reach_succ,
        fun _ _ => .tooDeep, h.conditional_succ, h.function_succ, fun _ _ => .tooDeep,
        h.calls_succ, h.climb_succ⟩
    | d + 2 =>
      have h := ih (d + 1) (by omega)
      have h' := ih d (by omega)
      exact ⟨h.expression_succ, h.operand_succ, h.reaching_succ, h.base_succ, h.reach_succ,
        h'.block_succ, h.conditional_succ, h.function_succ, h'.arguments_succ, h.calls_succ,
        h.climb_succ⟩

/-- A program over its words with the trees of `es` taken. -/
def UnderwayProgram (all : List (List Lexeme × Expr)) (es : List Expr) (w : Words) : Prop :=
  ∃ taken left, all = taken ++ left ∧ es = (taken.map Prod.snd).reverse ∧
    Listed ";" (left.map Prod.fst) w.left ∧ w.stray = none

theorem wp_nextStatement_of_spells {d : Nat} {all : List (List Lexeme × Expr)}
    (hall : ∀ p ∈ all, Spells (.expression true p.2) p.1) {es : List Expr} {w : Words}
    (h : UnderwayProgram all es w) : wp (nextStatement (expression d) es)
      (fun o w' => o.elim (es = (all.map Prod.snd).reverse ∧ w' = ⟨[], none⟩)
        fun es' => UnderwayProgram all es' w') (Refused (.block (all.map Prod.snd))) w := by
  obtain ⟨taken, left, rfl, rfl, hleft, hstray⟩ := h
  obtain ⟨v, _⟩ := w
  subst hstray
  rw [nextStatement, wp_bind]
  cases left with
  | nil =>
    obtain rfl : v = [] := hleft.nil_inv
    simp
  | cons p left =>
    have hp := hall p (by simp)
    have hvalid : ValidTargets (.block ((taken ++ p :: left).map Prod.snd)) → ValidTargets p.2 := by
      intro h
      cases h with
      | block hi => exact hi _ (by simp)
    obtain ⟨v', rfl, hv'⟩ := Listed.remaining hleft
    obtain ⟨l, u, hl, -⟩ := (hp.starts rfl).append v'
    rw [hl, wp_atEnd, wp_peek_cons, ← hl]
    simp only [Option.isNone_some, Bool.false_eq_true, if_false, wp_bind]
    have hes : p.2 :: (taken.map Prod.snd).reverse = ((taken ++ [p]).map Prod.snd).reverse := by
      simp
    rcases hv' with ⟨hnil, rfl⟩ | ⟨w', rfl, hw'⟩
    · refine ((accepts d).expression hp .nil).elim hvalid ?_
      simp only [wp_atEnd, wp_peek_nil, Option.isNone_none, if_true, wp_pure]
      exact ⟨taken ++ [p], left, by simp, hes, .inl (by simp [hnil]), rfl⟩
    · refine ((accepts d).expression hp (.mark (by decide))).elim hvalid ?_
      simp only [wp_atEnd, wp_peek_cons, Option.isNone_some, Bool.false_eq_true, if_false]
      rw [wp_bind, wp_skipMark_self]
      exact ⟨taken ++ [p], left, by simp, hes, hw', rfl⟩

theorem wp_program_of_spells (d : Nat) {all : List (List Lexeme × Expr)}
    (hall : ∀ p ∈ all, Spells (.expression true p.2) p.1) {w : List Lexeme}
    (hw : Listed ";" (all.map Prod.fst) w) : wp (program d)
      (fun e w' => e = .block (all.map Prod.snd) ∧ w' = ⟨[], none⟩)
      (Refused (.block (all.map Prod.snd))) ⟨w, none⟩ := by
  cases d with
  | zero => exact .inl rfl
  | succ d =>
    rw [program, wp_bind]
    refine wp_mono ((progresses_nextStatement d).wp_loop
      (fun es w' h => wp_nextStatement_of_spells hall h) ⟨[], all, rfl, rfl, hw, rfl⟩) ?_
      fun _ _ h => h
    rintro _ _ ⟨rfl, rfl⟩
    exact ⟨by simp, rfl⟩

end ExprLang
