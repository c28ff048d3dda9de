import ExprLang.Proofs.Context
import ExprLang.Proofs.Depth
import ExprLang.Proofs.SyntaxErrors

/-!
# Chains of operators

A chain of operands and operators has a tree that is said without a parser (`Chain.tree`): the chain
is split in two at its first `=`, or else at the last of the operators that bind least, and so are
the two parts. `climb` never sees the chain as a whole. It goes from left to right, and only the
operators that bind more tightly than the one before it are left to the operand between them.

`Climbs` is what `climb` does, without the words. That it comes to the tree of the chain rests on
one equation (`grouped_cons`): an operator can be carried out as soon as the next one behind its
right operand does not bind more tightly. Where parts of a chain are assigned to and are no names,
the last of them is refused, for the assignments are joined from right to left
(`Chain.climbs_refused`).
-/

namespace ExprLang
open TokenSource Grammar

/-- The words of a literal, a name, or an expression in parentheses that is read by itself. -/
inductive IsOperand : List Lexeme → Expr → Prop
  | number (x : Float) : IsOperand [.number x] (.number x)
  | text (s : String) : IsOperand [.text s] (.text s)
  | name (n : String) : IsOperand [.name n] (.name n)
  | yes : IsOperand [.keyword "true"] (.truth true)
  | no : IsOperand [.keyword "false"] (.truth false)
  | group {d : Nat} {u : List Lexeme} {t : Expr}
      (h : expression d (⟨u, none⟩ : Words) = .ok t ⟨[], none⟩) :
      IsOperand (.mark "(" :: u ++ [.mark ")"]) t

/-- What is read is spelled: the tree is the one that the parser has come to. -/
theorem spells_of_expression {d : Nat} {u : List Lexeme} {t : Expr}
    (h : expression d (⟨u, none⟩ : Words) = .ok t ⟨[], none⟩) :
    Spells (.expression true t) u ∧ ValidTargets t := by
  obtain ⟨v, hreads, hv⟩ := (sound d).expression.origin h
  obtain ⟨rfl, -⟩ := Words.mk.inj hv
  rw [List.append_nil] at h ⊢
  obtain ⟨t', ht'⟩ := hreads.derives.spelled
  have hgives := (accepts d).expression ht' .nil
  rw [Gives, List.append_nil, wp_iff_of_ok h] at hgives
  exact ⟨hgives.1 ▸ ht', .of_reads hreads⟩

theorem IsOperand.spells {u : List Lexeme} {t : Expr} (h : IsOperand u t) :
    Spells (.operand t) u ∧ ValidTargets t := by
  cases h with
  | number x => exact ⟨(Spells.number x).of_base, .number x⟩
  | text s => exact ⟨(Spells.text s).of_base, .text s⟩
  | name n => exact ⟨(Spells.name n).of_base, .name n⟩
  | yes => exact ⟨Spells.yes.of_base, .truth true⟩
  | no => exact ⟨Spells.no.of_base, .truth false⟩
  | group h =>
    obtain ⟨hu, ht⟩ := spells_of_expression h
    exact ⟨(Spells.group hu).of_base, ht⟩

/-- An operand is read as its tree, whatever operator follows. -/
theorem IsOperand.wp_atom {u : List Lexeme} {t : Expr} (h : IsOperand u t) (d : Nat)
    {r : List Lexeme} (hr : r.head? ≠ some (.mark "(")) :
    wp (atom d) (fun e w => e = t ∧ w = (⟨r, none⟩ : Words)) (fun err _ => err = .tooDeep)
      ⟨u ++ r, none⟩ := by
  obtain ⟨hspells, hvalid⟩ := h.spells
  refine wp_mono ((accepts d).operand hspells hr) (fun _ _ h => h) ?_
  rintro err _ (hdeep | ⟨hbad, -⟩)
  · exact hdeep
  · exact absurd hvalid hbad

structure Operand where
  tokens : List Token
  tree : Expr
  stands : IsOperand (tokens.map Token.lexeme) tree

/-- An operator with the operand behind it. -/
structure Link where
  token : Token
  op : String
  operand : Operand
  lexeme_eq : token.lexeme = .operator op
  isOperator : IsOperator op

structure Chain where
  first : Operand
  links : List Link

namespace Link

def tokens (l : Link) : List Token := l.token :: l.operand.tokens

/-- How tightly the operator binds. -/
def strength (l : Link) : Nat := (precedence l.op).get l.isOperator

theorem precedence_eq (l : Link) : precedence l.op = some l.strength :=
  (Option.some_get l.isOperator).symm

/-- Where both operators stand in a chain, this one first, the chain is rather split at this one. -/
def SplitsBefore (l m : Link) : Prop := l.op = "=" ∨ l.strength < m.strength

instance (l m : Link) : Decidable (l.SplitsBefore m) := inferInstanceAs (Decidable (_ ∨ _))

/-- The bound with which the operand on the right is read. -/
def rightBound (l : Link) : Nat := Grammar.rightBound l.op l.strength

theorem rightBound_of_ne {l : Link} (h : l.op ≠ "=") : l.rightBound = l.strength := by
  simp [rightBound, Grammar.rightBound, h]

theorem strength_of_assign {l : Link} (h : l.op = "=") : l.strength = 1 := by
  have hp := l.precedence_eq
  rw [h] at hp
  exact (Option.some.inj hp).symm

theorem rightBound_of_assign {l : Link} (h : l.op = "=") : l.rightBound = 0 := by
  rw [rightBound, strength_of_assign h, h]
  rfl

theorem strength_pos (l : Link) : 0 < l.strength := precedence_pos l.precedence_eq

variable {l m n : Link}

/-- No operator binds less than `=`. -/
theorem ne_assign_of_lt (h : l.strength < m.strength) : m.op ≠ "=" := by
  intro hm
  have hl := l.strength_pos
  rw [strength_of_assign hm] at h
  omega

theorem not_splitsBefore : ¬ l.SplitsBefore m ↔ l.op ≠ "=" ∧ m.strength ≤ l.strength := by
  simp [SplitsBefore]

theorem SplitsBefore.trans (h : l.SplitsBefore m) (h' : m.SplitsBefore n) : l.SplitsBefore n := by
  rcases h with h | h
  · exact .inl h
  rcases h' with h' | h'
  · exact absurd h' (ne_assign_of_lt h)
  · exact .inr (Nat.lt_trans h h')

theorem SplitsBefore.of_not (h : l.SplitsBefore m) (h' : ¬ n.SplitsBefore m) :
    l.SplitsBefore n :=
  h.imp_right fun h => Nat.lt_of_lt_of_le h (not_splitsBefore.1 h').2

end Link

/-! ### The tree of a chain -/

/-- Splits a chain in two at its first `=`, or else at the last of the operators that bind least:
what stands before that operator, the operator with its operand, and what stands behind. -/
def cut : List Link → Option (List Link × Link × List Link)
  | [] => none
  | l :: ls =>
    match cut ls with
    | none => some ([], l, [])
    | some (before, m, after) =>
      if l.SplitsBefore m then some ([], l, ls) else some (l :: before, m, after)

theorem cut_eq_none {ls : List Link} (h : cut ls = none) : ls = [] := by
  cases ls with
  | nil => rfl
  | cons l ls =>
    rw [cut] at h
    split at h
    · cases h
    · split at h <;> cases h

theorem cut_spec {ls before after : List Link} {m : Link} (h : cut ls = some (before, m, after)) :
    ls = before ++ m :: after ∧ (∀ l ∈ before, ¬ l.SplitsBefore m) ∧
      ∀ l ∈ after, m.SplitsBefore l := by
  induction ls generalizing before m after with
  | nil => cases h
  | cons l ls ih =>
    rw [cut] at h
    split at h
    · rename_i hnone
      cases h
      rw [cut_eq_none hnone]
      simp
    rename_i before' m' after' hcut
    obtain ⟨rfl, hbefore, hafter⟩ := ih hcut
    split at h
    · rename_i hl
      cases h
      refine ⟨rfl, by simp, fun x hx => ?_⟩
      rcases List.mem_append.1 hx with hx | hx
      · exact hl.of_not (hbefore x hx)
      rcases List.mem_cons.1 hx with rfl | hx
      · exact hl
      · exact hl.trans (hafter x hx)
    · rename_i hl
      cases h
      exact ⟨rfl, List.forall_mem_cons.2 ⟨hl, hbefore⟩, hafter⟩

/-- There is only one such operator. -/
theorem cut_append {before after : List Link} {m : Link}
    (hbefore : ∀ l ∈ before, ¬ l.SplitsBefore m) (hafter : ∀ l ∈ after, m.SplitsBefore l) :
    cut (before ++ m :: after) = some (before, m, after) := by
  induction before with
  | nil =>
    rw [List.nil_append, cut]
    split
    · rename_i hnone
      rw [cut_eq_none hnone]
    · rename_i m' _ hcut
      rw [if_pos (hafter m' (by simp [(cut_spec hcut).1]))]
  | cons l before ih =>
    obtain ⟨hl, hbefore⟩ := List.forall_mem_cons.1 hbefore
    rw [List.cons_append, cut, ih hbefore]
    exact if_neg hl

/-- The tree of the operand `left` and the operators `ls` behind it. -/
def grouped (left : Expr) (ls : List Link) : Expr :=
  match _h : cut ls with
  | none => left
  | some (before, m, after) => joined m.op (grouped left before) (grouped m.operand.tree after)
termination_by ls.length
decreasing_by all_goals simp [(cut_spec _h).1] <;> omega

@[simp] theorem grouped_nil (left : Expr) : grouped left [] = left := by
  rw [grouped]
  rfl

theorem grouped_of_cut {left : Expr} {ls before after : List Link} {m : Link}
    (h : cut ls = some (before, m, after)) :
    grouped left ls = joined m.op (grouped left before) (grouped m.operand.tree after) := by
  rw [grouped]
  split
  · rename_i hnone
    rw [h] at hnone
    cases hnone
  · rename_i hsome
    rw [h] at hsome
    cases hsome
    rfl

theorem grouped_append {left : Expr} {before after : List Link} {m : Link}
    (hbefore : ∀ l ∈ before, ¬ l.SplitsBefore m) (hafter : ∀ l ∈ after, m.SplitsBefore l) :
    grouped left (before ++ m :: after) =
      joined m.op (grouped left before) (grouped m.operand.tree after) :=
  grouped_of_cut (cut_append hbefore hafter)

theorem eq_nil_of_grouped {left : Expr} {ls : List Link} {n : String}
    (h : grouped left ls = .name n) : ls = [] := by
  rw [grouped] at h
  split at h
  · rename_i hnone
    exact cut_eq_none hnone
  · unfold joined at h
    split at h <;> cases h

/-- An operator can be carried out as soon as none behind its right operand binds more tightly. -/
theorem grouped_cons {left : Expr} {l : Link} {tight rest : List Link} (hl : l.op ≠ "=")
    (htight : ∀ x ∈ tight, l.strength < x.strength)
    (hhead : ∀ x ∈ rest.head?, x.strength ≤ l.strength) (hrest : ∀ x ∈ rest, x.op ≠ "=") :
    grouped left (l :: tight ++ rest) =
      grouped (joined l.op left (grouped l.operand.tree tight)) rest := by
  generalize hn : rest.length = n
  induction n using Nat.strongRecOn generalizing rest with
  | ind n ih =>
    cases hcut : cut rest with
    | none =>
      rw [cut_eq_none hcut, List.append_nil, grouped_nil]
      have hsplit : grouped left ([] ++ l :: tight) =
          joined l.op (grouped left []) (grouped l.operand.tree tight) :=
        grouped_append (by simp) fun x hx => .inr (htight x hx)
      simpa using hsplit
    | some parts =>
      obtain ⟨before, m, after⟩ := parts
      obtain ⟨rfl, hbefore, hafter⟩ := cut_spec hcut
      -- the chain is split where its rest is
      have hm : m.strength ≤ l.strength := by
        cases before with
        | nil => exact hhead m rfl
        | cons r before =>
          have hr := (Link.not_splitsBefore.1 (hbefore r (List.mem_cons_self ..))).2
          exact Nat.le_trans hr (hhead r rfl)
      have hfront : ∀ x ∈ l :: tight ++ before, ¬ x.SplitsBefore m := by
        intro x hx
        rcases List.mem_append.1 hx with hx | hx
        · rcases List.mem_cons.1 hx with rfl | hx
          · exact Link.not_splitsBefore.2 ⟨hl, hm⟩
          · have hlt := htight x hx
            exact Link.not_splitsBefore.2 ⟨Link.ne_assign_of_lt hlt, by omega⟩
        · exact hbefore x hx
      rw [grouped_append hbefore hafter, ← List.append_assoc, grouped_append hfront hafter]
      rw [ih before.length (by simp [← hn]) (fun x hx => hhead x ?_)
        (fun x hx => hrest x (List.mem_append_left _ hx)) rfl]
      rw [List.head?_append, hx]
      rfl

/-- The links for which `p` holds, up to the first for which it does not. -/
theorem exists_span (p : Link → Prop) [DecidablePred p] (ls : List Link) :
    ∃ before after, ls = before ++ after ∧ (∀ x ∈ before, p x) ∧ ∀ x ∈ after.head?, ¬ p x := by
  induction ls with
  | nil => exact ⟨[], [], by simp⟩
  | cons l ls ih =>
    by_cases hl : p l
    · obtain ⟨before, after, rfl, hbefore, hafter⟩ := ih
      exact ⟨l :: before, after, rfl, List.forall_mem_cons.2 ⟨hl, hbefore⟩, hafter⟩
    · exact ⟨[], l :: ls, rfl, by simp, by simpa using hl⟩

/-- What is left of a chain that was climbed: a tree and the operators behind it, or a tree that
cannot be assigned to and the operators from the `=` behind it on. -/
inductive ClimbEnd where
  | grouped (tree : Expr) (rest : List Link)
  | refused (target : Expr) (rest : List Link)

/-- From `left` on, the operators that bind more tightly than `bound` are carried out one after the
other. -/
inductive Climbs : Nat → Expr → List Link → ClimbEnd → Prop
  | nil {bound : Nat} {left : Expr} : Climbs bound left [] (.grouped left [])
  | stop {bound : Nat} {left : Expr} {l : Link} {ls : List Link} (hb : l.strength ≤ bound) :
      Climbs bound left (l :: ls) (.grouped left (l :: ls))
  | step {bound : Nat} {left right : Expr} {l : Link} {ls ls' : List Link} {out : ClimbEnd}
      (hb : bound < l.strength) (hr : Climbs l.rightBound l.operand.tree ls (.grouped right ls'))
      (hl : l.op = "=" → ∃ n, left = .name n) (ht : Climbs bound (joined l.op left right) ls' out) :
      Climbs bound left (l :: ls) out
  | inner {bound : Nat} {left target : Expr} {l : Link} {ls rest : List Link}
      (hb : bound < l.strength)
      (hr : Climbs l.rightBound l.operand.tree ls (.refused target rest)) :
      Climbs bound left (l :: ls) (.refused target rest)
  | refuse {bound : Nat} {left right : Expr} {l : Link} {ls ls' : List Link}
      (hb : bound < l.strength) (hr : Climbs l.rightBound l.operand.tree ls (.grouped right ls'))
      (hop : l.op = "=") (hl : ∀ n, left ≠ .name n) :
      Climbs bound left (l :: ls) (.refused left (l :: ls))

namespace Climbs
variable {bound : Nat} {left : Expr} {out : ClimbEnd}

theorem of_head {rest : List Link} (h : ∀ x ∈ rest.head?, x.strength ≤ bound) :
    Climbs bound left rest (.grouped left rest) := by
  cases rest with
  | nil => exact .nil
  | cons l rest => exact .stop (h l rfl)

/-- Operators that all bind more tightly than `bound` come to the tree of their chain, and climbing
goes on from there. Behind them may stand an operator that still exceeds the bound by one: with the
bound 0, that is `=`. -/
theorem of_tight {tight rest : List Link}
    (htight : ∀ x ∈ tight, x.op ≠ "=" ∧ bound < x.strength)
    (hhead : ∀ x ∈ rest.head?, x.strength ≤ bound + 1)
    (h : Climbs bound (ExprLang.grouped left tight) rest out) :
    Climbs bound left (tight ++ rest) out := by
  generalize hn : tight.length = n
  induction n using Nat.strongRecOn generalizing bound left tight rest out with
  | ind n ih =>
    cases tight with
    | nil => simpa using h
    | cons l ls =>
      obtain ⟨⟨hop, hb⟩, hls⟩ := List.forall_mem_cons.1 htight
      -- those that belong to the right operand of `l`, and the others
      obtain ⟨inner, outer, rfl, hinner, houter⟩ : ∃ inner outer, ls = inner ++ outer ∧
          (∀ x ∈ inner, l.strength < x.strength) ∧ ∀ x ∈ outer.head?, x.strength ≤ l.strength := by
        simpa using exists_span (l.strength < ·.strength) ls
      have hright : ∀ x ∈ (outer ++ rest).head?, x.strength ≤ l.strength := by
        cases outer with
        | nil => exact fun x hx => Nat.le_trans (hhead x hx) hb
        | cons => exact houter
      have hout : ∀ x ∈ outer, x.op ≠ "=" ∧ bound < x.strength :=
        fun x hx => hls x (List.mem_append_right _ hx)
      rw [List.length_cons, List.length_append] at hn
      rw [← List.cons_append, grouped_cons hop hinner houter fun x hx => (hout x hx).1] at h
      rw [List.cons_append, List.append_assoc]
      refine .step hb ?_ (fun h => absurd h hop) (ih outer.length (by omega) hout hhead h rfl)
      rw [Link.rightBound_of_ne hop]
      exact ih inner.length (by omega)
        (fun x hx => ⟨(hls x (List.mem_append_left _ hx)).1, hinner x hx⟩)
        (fun x hx => Nat.le_succ_of_le (hright x hx)) (of_head hright) rfl

end Climbs

namespace Chain

def tokens (c : Chain) : List Token := c.first.tokens ++ c.links.flatMap Link.tokens

def tree (c : Chain) : Expr := grouped c.first.tree c.links

def IsName (c : Chain) : Prop := c.links = [] ∧ ∃ n, c.first.tree = .name n

theorem isName_of_tree {c : Chain} {n : String} (h : c.tree = .name n) : c.IsName := by
  have hlinks := eq_nil_of_grouped h
  rw [tree, hlinks, grouped_nil] at h
  exact ⟨hlinks, n, h⟩

/-- Each `=` among the operators, with the part of the chain between it and the `=` before it, or
the start: `first` and `between` are what stands there already. -/
def targetsFrom (first : Operand) (between : List Link) : List Link → List (Chain × Link)
  | [] => []
  | l :: ls =>
    if l.op = "=" then (⟨first, between⟩, l) :: targetsFrom l.operand [] ls
    else targetsFrom first (between ++ [l]) ls

/-- What is assigned to, and by which operator. -/
def targets (c : Chain) : List (Chain × Link) := targetsFrom c.first [] c.links

theorem targetsFrom_append {first : Operand} {between before ls : List Link}
    (h : ∀ x ∈ before, x.op ≠ "=") :
    targetsFrom first between (before ++ ls) = targetsFrom first (between ++ before) ls := by
  induction before generalizing between with
  | nil => simp
  | cons l before ih =>
    obtain ⟨hl, hbefore⟩ := List.forall_mem_cons.1 h
    rw [List.cons_append, targetsFrom, if_neg hl, ih hbefore, List.append_assoc,
      List.singleton_append]

theorem targets_of_assign {first : Operand} {before after : List Link} {l : Link}
    (hbefore : ∀ x ∈ before, x.op ≠ "=") (hl : l.op = "=") :
    targets ⟨first, before ++ l :: after⟩ = (⟨first, before⟩, l) :: targets ⟨l.operand, after⟩ := by
  rw [targets, targetsFrom_append hbefore, targetsFrom, if_pos hl]
  rfl

theorem targets_eq_nil {first : Operand} {ls : List Link} (h : ∀ x ∈ ls, x.op ≠ "=") :
    targets ⟨first, ls⟩ = [] := by
  have happend : targetsFrom first [] (ls ++ []) = targetsFrom first ([] ++ ls) [] :=
    targetsFrom_append h
  rwa [List.append_nil] at happend

/-- A chain without assignments, or one that is split at its first `=`. -/
theorem targets_cases (c : Chain) : (∀ x ∈ c.links, x.op ≠ "=") ∧ c.targets = [] ∨
    ∃ before l after, c.links = before ++ l :: after ∧ (∀ x ∈ before, x.op ≠ "=") ∧ l.op = "=" ∧
      c.targets = (⟨c.first, before⟩, l) :: targets ⟨l.operand, after⟩ := by
  obtain ⟨first, links⟩ := c
  obtain ⟨before, after, rfl, hbefore, hafter⟩ := exists_span (·.op ≠ "=") links
  cases after with
  | nil =>
    rw [List.append_nil]
    exact .inl ⟨hbefore, targets_eq_nil hbefore⟩
  | cons l after =>
    have hl : l.op = "=" := by simpa using hafter
    exact .inr ⟨before, l, after, rfl, hbefore, hl, targets_of_assign hbefore hl⟩

/-- What stands before the first `=` is grouped before that is looked at. -/
theorem climbs_of_assign {first : Operand} {before after : List Link} {l : Link} {out : ClimbEnd}
    (hbefore : ∀ x ∈ before, x.op ≠ "=") (hl : l.op = "=")
    (h : Climbs 0 (tree ⟨first, before⟩) (l :: after) out) :
    Climbs 0 first.tree (before ++ l :: after) out := by
  refine .of_tight (fun x hx => ⟨hbefore x hx, x.strength_pos⟩) ?_ h
  rintro _ ⟨⟩
  exact Nat.le_of_eq (Link.strength_of_assign hl)

theorem tree_of_assign {first : Operand} {before after : List Link} {l : Link}
    (hbefore : ∀ x ∈ before, x.op ≠ "=") (hl : l.op = "=") :
    tree ⟨first, before ++ l :: after⟩ =
      joined l.op (tree ⟨first, before⟩) (tree ⟨l.operand, after⟩) := by
  refine grouped_append (fun x hx => Link.not_splitsBefore.2 ⟨hbefore x hx, ?_⟩) fun x _ => .inl hl
  rw [Link.strength_of_assign hl]
  exact x.strength_pos

/-- If only names are assigned to, climbing comes to the tree of the chain. -/
theorem climbs {c : Chain} (h : ∀ p ∈ c.targets, p.1.IsName) :
    Climbs 0 c.first.tree c.links (.grouped c.tree []) := by
  generalize hts : c.targets = ts at h
  induction ts generalizing c with
  | nil =>
    rcases c.targets_cases with ⟨hfree, -⟩ | ⟨_, _, _, _, _, _, htargets⟩
    · rw [← List.append_nil c.links]
      exact .of_tight (fun x hx => ⟨hfree x hx, x.strength_pos⟩) (by simp) .nil
    · rw [hts] at htargets
      cases htargets
  | cons p ts ih =>
    rcases c.targets_cases with ⟨-, hnone⟩ | ⟨before, l, after, hlinks, hbefore, hl, htargets⟩
    · rw [hts] at hnone
      cases hnone
    rw [hts] at htargets
    obtain ⟨rfl, rfl⟩ := List.cons.inj htargets
    obtain ⟨⟨rfl, n, hn⟩, hlater⟩ := List.forall_mem_cons.1 h
    obtain ⟨first, links⟩ := c
    subst hlinks
    rw [tree_of_assign hbefore hl]
    refine climbs_of_assign hbefore hl (.step ?_ ?_ (fun _ => ⟨n, ?_⟩) .nil)
    · exact l.strength_pos
    · rw [Link.rightBound_of_assign hl]
      exact ih rfl hlater
    · simpa [tree] using hn

/-- Of the parts that are assigned to and are no names, the last is refused. -/
theorem climbs_refused {c part : Chain} {l : Link} {earlier later : List (Chain × Link)}
    (htargets : c.targets = earlier ++ (part, l) :: later) (hpart : ¬ part.IsName)
    (hlater : ∀ p ∈ later, p.1.IsName) : ∃ before after, c.links = before ++ l :: after ∧
      Climbs 0 c.first.tree c.links (.refused part.tree (l :: after)) := by
  induction earlier generalizing c with
  | nil =>
    rcases c.targets_cases with ⟨-, hnone⟩ | ⟨before, l', after, hlinks, hbefore, hl, htargets'⟩
    · rw [htargets] at hnone
      cases hnone
    rw [htargets] at htargets'
    cases htargets'
    refine ⟨before, after, hlinks, ?_⟩
    have hright := climbs hlater
    rw [← Link.rightBound_of_assign hl] at hright
    rw [hlinks]
    exact climbs_of_assign hbefore hl
      (.refuse l.strength_pos hright hl fun n hn => hpart (isName_of_tree hn))
  | cons p earlier ih =>
    rcases c.targets_cases with ⟨-, hnone⟩ | ⟨before, m, after, hlinks, hbefore, hm, htargets'⟩
    · rw [htargets] at hnone
      cases hnone
    rw [htargets] at htargets'
    obtain ⟨-, hrest⟩ := List.cons.inj htargets'
    obtain ⟨before', after', rfl, hclimbs⟩ := ih hrest.symm
    refine ⟨before ++ m :: before', after', by simp [hlinks], ?_⟩
    rw [hlinks]
    refine climbs_of_assign hbefore hm (.inner m.strength_pos ?_)
    rw [Link.rightBound_of_assign hm]
    exact hclimbs

end Chain

/-! ### The parser -/

def lexemes (ls : List Link) : List Lexeme := (ls.flatMap Link.tokens).map Token.lexeme

@[simp] theorem lexemes_nil : lexemes [] = [] := rfl

@[simp] theorem lexemes_cons (l : Link) (ls : List Link) : lexemes (l :: ls) =
    .operator l.op :: (l.operand.tokens.map Token.lexeme ++ lexemes ls) := by
  simp [lexemes, Link.tokens, l.lexeme_eq]

theorem lexemes_head (ls : List Link) : (lexemes ls).head? ≠ some (.mark "(") := by
  cases ls <;> simp

namespace ClimbEnd

/-- The tree and the words with which the parser goes on. -/
def Returns : ClimbEnd → Expr → Words → Prop
  | grouped t rest, e, w => e = t ∧ w = ⟨lexemes rest, none⟩
  | refused _ _, _, _ => False

/-- How the parser can stop: over bare words, an error stands where so many of them are left. -/
def Stops : ClimbEnd → Stop SourceError → Words → Prop
  | grouped _ _, err, _ => err = .tooDeep
  | refused target rest, err, _ =>
    err = .tooDeep ∨ err = .error (.at .parse (.badTarget target) (lexemes rest).length 0)

theorem stops_tooDeep (out : ClimbEnd) (w : Words) : out.Stops .tooDeep w := by
  cases out with
  | grouped => rfl
  | refused => exact .inl rfl

end ClimbEnd

/-- A round that goes on reads the operand behind the operator and climbs from there. -/
theorem Link.wp_nextOperation {d bound : Nat} {left : Expr} {l : Link} {ls : List Link}
    {Q : Option Expr → Words → Prop} {B : Stop SourceError → Words → Prop}
    (hb : bound < l.strength) (hdeep : ∀ w, B .tooDeep w)
    (h : wp (climb d l.rightBound l.operand.tree)
      (fun right w => wp (join d ⟨.operator l.op, (lexemes (l :: ls)).length, 0⟩ l.op left right)
        (fun e => Q (some e)) B w) B ⟨lexemes ls, none⟩) :
    wp (nextOperation d (atom d) (climb d) bound left) Q B ⟨lexemes (l :: ls), none⟩ := by
  rw [lexemes_cons] at h ⊢
  rw [nextOperation, wp_bind, wp_operator?_cons]
  simp only [Lexeme.value, l.precedence_eq, Nat.not_le.2 hb, if_false, wp_bind, wp_discard,
    wp_next_cons]
  refine wp_mono (l.operand.stands.wp_atom d (lexemes_head ls)) ?_ fun _ _ herr => herr ▸ hdeep _
  rintro _ _ ⟨rfl, rfl⟩
  exact h

theorem wp_calls_of_ne {d : Nat} {e : Expr} {r : List Lexeme} (hr : r.head? ≠ some (.mark "(")) :
    wp (calls d e) (fun e' w => e' = e ∧ w = (⟨r, none⟩ : Words)) (fun err _ => err = .tooDeep)
      ⟨r, none⟩ := by
  cases d with
  | zero => exact rfl
  | succ d =>
    rw [calls, wp_loop, iterate, wp_bind, nextCall, wp_bind, wp_atMark_of_ne hr]
    exact ⟨rfl, rfl⟩

/-- The parser climbs in this way, as deep as it can go. -/
theorem Climbs.wp_climb {bound : Nat} {left : Expr} {ls : List Link} {out : ClimbEnd}
    (h : Climbs bound left ls out) (d : Nat) :
    wp (climb d bound left) out.Returns out.Stops ⟨lexemes ls, none⟩ := by
  induction d generalizing bound left ls out with
  | zero => exact out.stops_tooDeep _
  | succ d ih =>
    rw [climb]
    refine (progresses_nextOperation d bound).wp_loop (J := fun e w => ∃ ls,
      Climbs bound e ls out ∧ w = ⟨lexemes ls, none⟩) ?_ ⟨ls, h, rfl⟩
    rintro e _ ⟨ls, h, rfl⟩
    cases h with
    | nil =>
      rw [lexemes_nil, wp_iff_of_ok (nextOperation_of_not_binds (by simp))]
      exact ⟨rfl, rfl⟩
    | @stop _ _ l ls hb =>
      have hstop : ∀ x ∈ (lexemes (l :: ls)).head?, ¬ Binds bound x := by
        rw [lexemes_cons]
        rintro _ ⟨⟩ ⟨op, n, hop, hn, hlt⟩
        cases hop
        rw [l.precedence_eq] at hn
        cases hn
        omega
      rw [wp_iff_of_ok (nextOperation_of_not_binds hstop)]
      exact ⟨rfl, rfl⟩
    | step hb hr hl ht =>
      refine Link.wp_nextOperation hb out.stops_tooDeep (wp_mono (ih hr) ?_ ?_)
      · rintro right _ ⟨rfl, rfl⟩
        exact wp_join_of_name hl ⟨_, ht, rfl⟩
      · rintro _ w rfl
        exact out.stops_tooDeep w
    | inner hb hr =>
      exact Link.wp_nextOperation hb (ClimbEnd.stops_tooDeep _)
        (wp_mono (ih hr) (fun _ _ h => h.elim) fun _ _ h => h)
    | refuse hb hr hop hl =>
      refine Link.wp_nextOperation hb (ClimbEnd.stops_tooDeep _) (wp_mono (ih hr) ?_ ?_)
      · rintro right _ ⟨rfl, rfl⟩
        rw [hop]
        exact wp_join_refused hl (.inl rfl) (.inr rfl)
      · rintro _ w rfl
        exact ClimbEnd.stops_tooDeep _ w

namespace Chain

theorem tokens_lexemes (c : Chain) :
    c.tokens.map Token.lexeme = c.first.tokens.map Token.lexeme ++ lexemes c.links := by
  rw [tokens, List.map_append]
  rfl

theorem wp_expression {c : Chain} {out : ClimbEnd} (h : Climbs 0 c.first.tree c.links out)
    (d : Nat) : wp (expression d) out.Returns out.Stops ⟨c.tokens.map Token.lexeme, none⟩ := by
  cases d with
  | zero => exact out.stops_tooDeep _
  | succ d =>
    rw [expression, wp_bind, tokens_lexemes]
    refine wp_mono (c.first.stands.wp_atom d (lexemes_head c.links)) ?_
      fun _ _ herr => herr ▸ out.stops_tooDeep _
    rintro _ _ ⟨rfl, rfl⟩
    rw [wp_bind]
    refine wp_mono (h.wp_climb d) ?_ fun _ _ h => h
    intro e w he
    cases out with
    | refused => exact he.elim
    | grouped t rest =>
      obtain ⟨rfl, rfl⟩ := he
      exact wp_calls_of_ne (lexemes_head rest)

/-- A link of the chain with the tokens that stand around it. -/
theorem exists_tokens {c : Chain} {before after : List Link} {l : Link}
    (h : c.links = before ++ l :: after) : ∃ ts₁ ts₂, c.tokens = ts₁ ++ l.token :: ts₂ ∧
      (lexemes (l :: after)).length = ts₂.length + 1 := by
  refine ⟨c.first.tokens ++ before.flatMap Link.tokens,
    l.operand.tokens ++ after.flatMap Link.tokens, ?_, ?_⟩
  · simp [tokens, h, Link.tokens]
  · simp [lexemes, Link.tokens]

end Chain

/-- A chain of operands up to the end of a text has the tree that splitting gives it, if only names
are assigned to. Otherwise the last of the parts that are assigned to and are no names is refused,
at the `=` behind it. Only a chain that is long for the depth can be too deep. -/
theorem expression_splits_chain (d : Nat) (c : Chain) {s : TokenStream} {e : TextEnd}
    (hs : Holds s c.tokens e) (he : e.stray = none) :
    (d < 5 * c.tokens.length + 5 ∧ ∃ s', expression d s = .error .tooDeep s') ∨
    ((∀ p ∈ c.targets, p.1.IsName) → ∃ s', expression d s = .ok c.tree s' ∧ Holds s' [] e) ∧
    ∀ earlier part l later, c.targets = earlier ++ (part, l) :: later → ¬ part.IsName →
      (∀ p ∈ later, p.1.IsName) → ∃ err s', expression d s = .error (.error err) s' ∧
        err.stage = .parse ∧ err.complaint.description = "Cannot assign to " ++ part.tree.quoted ∧
        err.IsAt l.token.line l.token.column := by
  have halike := alike_expression c.tokens e d c.tokens
  have hwords : Words.ofTokens c.tokens e = ⟨c.tokens.map Token.lexeme, none⟩ := by
    rw [Words.ofTokens, he]
  have hruns := fun {out} (h : Climbs 0 c.first.tree c.links out) => hwords ▸ c.wp_expression h d
  cases hy : expression d (Words.ofTokens c.tokens e) with
  | ok x w =>
    refine .inr ⟨fun hnames => ?_, fun earlier part l later htargets hpart hlater => ?_⟩
    · obtain ⟨rfl, rfl⟩ := (wp_iff_of_ok hy).1 (hruns (Chain.climbs hnames))
      obtain ⟨s', ts', hx, -, hs', hleft⟩ := halike.ok_of_words hs hy
      obtain rfl : ts' = [] := by simpa [Words.ofTokens] using (Words.mk.inj hleft).1.symm
      exact ⟨s', hx, hs'⟩
    · obtain ⟨_, _, -, hclimbs⟩ := Chain.climbs_refused htargets hpart hlater
      exact ((wp_iff_of_ok hy).1 (hruns hclimbs)).elim
  | error stop w =>
    obtain ⟨s', hx⟩ := halike.error_of_words hs hy
    cases stop with
    | tooDeep =>
      have hdepth := (wp_iff_of_error hy).1 ((shallow d).expression _)
      exact .inl ⟨by simpa [ProperError, hwords] using hdepth, s', hx⟩
    | error err =>
      refine .inr ⟨fun hnames => ?_, fun earlier part l later htargets hpart hlater => ?_⟩
      · cases (wp_iff_of_error hy).1 (hruns (Chain.climbs hnames))
      · obtain ⟨before, after, hlinks, hclimbs⟩ := Chain.climbs_refused htargets hpart hlater
        rcases (wp_iff_of_error hy).1 (hruns hclimbs) with hdeep | herr
        · cases hdeep
        · cases herr
          obtain ⟨ts₁, ts₂, htokens, hlen⟩ := Chain.exists_tokens hlinks
          refine ⟨_, s', hx, rfl, rfl, ?_⟩
          rw [hlen, htokens]
          exact e.isAt_locate ts₁ ts₂ l.token _

/-- A chain of three levels, and one with two assignments of which the second is to a sum. -/
theorem expression_splits_chain_assignments :
    (∃ s, expression 60 (TokenStream.ofText "a = b - c * d - f") =
      .ok (.assign (.name "a") (.binary "-" (.binary "-" (.name "b")
        (.binary "*" (.name "c") (.name "d"))) (.name "f"))) s) ∧
    ∃ err s, expression 60 (TokenStream.ofText "a = b + c = d") = .error (.error err) s ∧
      err.complaint.description = "Cannot assign to " ++
        (Expr.binary "+" (.name "b") (.name "c")).quoted ∧ err.IsAt 1 11 := by
  let name (n : String) (column : Nat) : Operand := ⟨[⟨.name n, 1, column⟩], .name n, .name n⟩
  let link (op : String) (column : Nat) (h : IsOperator op) (right : Operand) : Link :=
    ⟨⟨.operator op, 1, column⟩, op, right, rfl, h⟩
  constructor
  · let minus := link "-" 7 rfl (name "c" 9)
    let times := link "*" 11 rfl (name "d" 13)
    let last := link "-" 15 rfl (name "f" 17)
    let assign := link "=" 3 rfl (name "b" 5)
    let c : Chain := ⟨name "a" 1, [assign, minus, times, last]⟩
    have hc : (tokenize "a = b - c * d - f").toOption = some c.tokens := by decide +kernel
    have htargets : c.targets = [(⟨name "a" 1, []⟩, assign)] := rfl
    have htree : c.tree = .assign (.name "a") (.binary "-" (.binary "-" (.name "b")
        (.binary "*" (.name "c") (.name "d"))) (.name "f")) := by
      have hassign : cut c.links = some ([], assign, [minus, times, last]) := rfl
      have hlast : cut [minus, times, last] = some ([minus, times], last, []) := rfl
      have hminus : cut [minus, times] = some ([], minus, [times]) := rfl
      have htimes : cut [times] = some ([], times, []) := rfl
      rw [Chain.tree, grouped_of_cut hassign, grouped_of_cut hlast, grouped_of_cut hminus,
        grouped_of_cut htimes]
      simp only [grouped_nil]
      rfl
    obtain ⟨e, hs, he⟩ := Holds.of_tokenize (ok_of_toOption hc)
    rcases expression_splits_chain 60 c hs he with ⟨hdeep, -⟩ | ⟨hnames, -⟩
    · exact absurd hdeep (by decide)
    · obtain ⟨s, hx, -⟩ := hnames (by rw [htargets]; simp [Chain.IsName, name])
      exact ⟨s, htree ▸ hx⟩
  · let plus := link "+" 7 rfl (name "c" 9)
    let first := link "=" 3 rfl (name "b" 5)
    let second := link "=" 11 rfl (name "d" 13)
    let c : Chain := ⟨name "a" 1, [first, plus, second]⟩
    let sum : Chain := ⟨name "b" 5, [plus]⟩
    have hc : (tokenize "a = b + c = d").toOption = some c.tokens := by decide +kernel
    have htargets : c.targets = [(⟨name "a" 1, []⟩, first)] ++ (sum, second) :: [] := rfl
    have hsum : sum.tree = .binary "+" (.name "b") (.name "c") := by
      have hplus : cut sum.links = some ([], plus, []) := rfl
      rw [Chain.tree, grouped_of_cut hplus]
      simp only [grouped_nil]
      rfl
    obtain ⟨e, hs, he⟩ := Holds.of_tokenize (ok_of_toOption hc)
    rcases expression_splits_chain 60 c hs he with ⟨hdeep, -⟩ | ⟨-, hrefused⟩
    · exact absurd hdeep (by decide)
    · obtain ⟨err, s, hx, -, hdescription, hplace⟩ :=
        hrefused _ sum second [] htargets (by simp [Chain.IsName, sum]) (by simp)
      exact ⟨err, s, hx, hsum ▸ hdescription, hplace⟩

end ExprLang
