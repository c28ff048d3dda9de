import ExprLang.Proofs.Recognition

/-!
# The words that a tree is made of

Brackets, separators and most keywords say how a program is grouped, and are gone once it is a tree.
The other words carry something (`Lexeme.isContent`): a value, a name, an operator. Each of these
turns up in the tree once, and walking through the tree from left to right meets them in the order
in which they were written (`Reads.content`).
-/

namespace ExprLang
open Grammar

/-- Numbers, strings, names, operators, and the word `true`. -/
def Lexeme.isContent : Lexeme → Bool
  | number _ | text _ | name _ | operator _ => true
  | keyword k => k == "true"
  | mark _ => false

namespace Lexeme

@[simp] theorem isContent_name (n : String) : (name n).isContent = true := rfl

@[simp] theorem isContent_operator (op : String) : (operator op).isContent = true := rfl

@[simp] theorem isContent_mark (m : String) : (mark m).isContent = false := rfl

end Lexeme

namespace Expr

mutual

/-- What a tree holds, from left to right: an operator stands between its operands, and parameters
stand before the body. -/
def content : Expr → List Lexeme
  | number x => [.number x]
  | text s => [.text s]
  | truth b => if b then [.keyword "true"] else []
  | name n => [.name n]
  | lambda params body => params.map .name ++ body.content
  | call callee args => callee.content ++ contentAll args
  | cond test yes no => test.content ++ (yes.content ++ contentElse no)
  | assign target value => target.content ++ .operator "=" :: value.content
  | binary op left right => left.content ++ .operator op :: right.content
  | block items => contentAll items
  | alien _ => []

def contentAll : List Expr → List Lexeme
  | [] => []
  | e :: es => e.content ++ contentAll es

def contentElse : Option Expr → List Lexeme
  | none => []
  | some e => e.content

end

theorem contentAll_eq (es : List Expr) : contentAll es = es.flatMap content := by
  induction es with
  | nil => rfl
  | cons e es ih => rw [contentAll, ih, List.flatMap_cons]

/-- A block in braces holds what its items hold, also where it is none or one of them. -/
theorem content_blockOf (es : List Expr) : (blockOf es).content = es.flatMap content := by
  match es with
  | [] => rfl
  | [e] => simp [blockOf]
  | e :: e' :: es => exact contentAll_eq (e :: e' :: es)

end Expr

/-- Separators are no content. -/
theorem Listed.filter_content {sep : String} {us : List (List Lexeme)} {w : List Lexeme}
    (h : Listed sep us w) :
    w.filter Lexeme.isContent = us.flatMap fun u => u.filter Lexeme.isContent := by
  induction us generalizing w with
  | nil => rw [h.nil_inv]; rfl
  | cons u us ih =>
    rcases h.cons_inv with ⟨rfl, rfl⟩ | ⟨w', rfl, hw'⟩
    · simp
    · simp [ih hw']

/-- The words of a list hold what its items hold. -/
theorem Listed.content_of_items {sep : String} {ps : List (List Lexeme × Expr)} {w : List Lexeme}
    (h : Listed sep (ps.map Prod.fst) w)
    (hps : ∀ p ∈ ps, p.1.filter Lexeme.isContent = p.2.content) :
    w.filter Lexeme.isContent = (ps.map Prod.snd).flatMap Expr.content := by
  rw [h.filter_content, List.flatMap_map, List.flatMap_map, List.flatMap_def, List.flatMap_def,
    List.map_congr_left hps]

theorem Consequent.filter_content {y v : List Lexeme} (h : Consequent y v) :
    v.filter Lexeme.isContent = y.filter Lexeme.isContent := by
  rcases h with rfl | ⟨rfl, -⟩
  · rfl
  · rfl

theorem IsLambda.isContent {word : String} (h : IsLambda word) :
    (Lexeme.keyword word).isContent = false := by
  rcases h with rfl | rfl
  · rfl
  · rfl

/-- Of the words that stand for a tree, those that carry something are what the tree holds. -/
theorem Reads.content {u : List Lexeme} {e : Expr} (h : Reads u e) :
    u.filter Lexeme.isContent = e.content := by
  have hif : (Lexeme.keyword "if").isContent = false := rfl
  have helse : (Lexeme.keyword "else").isContent = false := rfl
  induction h with
  | number | text | name | yes | no => rfl
  | group _ ih => simp [ih]
  | block _ hw ih => simp [hw.content_of_items ih, Expr.content_blockOf]
  | cond _ _ hv ihc ihy => simp [Expr.content, Expr.contentElse, hv.filter_content, hif, ihc, ihy]
  | condElse _ _ hv _ ihc ihy ihn =>
    simp [Expr.content, Expr.contentElse, hv.filter_content, hif, helse, ihc, ihy, ihn]
  | @function word params w b body hword hw _ ih =>
    have hparams : w.filter Lexeme.isContent = params.map Lexeme.name := by
      rw [hw.filter_content, List.flatMap_map, List.map_eq_flatMap]
      rfl
    simp [Expr.content, hword.isContent, hparams, ih]
  | call _ _ hw ihu ih =>
    simp [Expr.content, Expr.contentAll_eq, hw.content_of_items ih, ihu]
  | assign _ _ ihu ihv | binary _ _ _ _ ihu ihv =>
    simp [Expr.content, List.filter_cons, ihu, ihv]

/-- Nothing that a program says is lost, doubled or moved when it is parsed. -/
theorem parse_keeps_content_in_order (limit : Nat) (text : String) (tree : Expr)
    (h : parse limit text = .ok tree) : ∃ ts, tokenize text = .ok ts ∧
      (ts.map Token.lexeme).filter Lexeme.isContent = tree.content := by
  obtain ⟨ts, e, ps, hs, he, hps, rfl⟩ := reads_of_parse h
  refine ⟨ts, by rw [hs.tokenize_eq, he], ?_⟩
  rw [hps.listed.content_of_items fun p hp => (hps.items p hp).content]
  exact (Expr.contentAll_eq _).symm

/-- A block of two items and one of none, a parameter list, and a chain of calls. -/
theorem parse_keeps_content_in_order_branches : ∃ tree ts,
    parse 80 "f = lambda(x, y) if x == true then \x7by, \"s\"\x7d else \x7b\x7d; f(1)(z)" =
      .ok tree ∧
    tokenize "f = lambda(x, y) if x == true then \x7by, \"s\"\x7d else \x7b\x7d; f(1)(z)" = .ok ts ∧
    (ts.map Token.lexeme).filter Lexeme.isContent = tree.content := by
  obtain ⟨tree, htree⟩ := exists_of_isOk (x := parse 80
    "f = lambda(x, y) if x == true then \x7by, \"s\"\x7d else \x7b\x7d; f(1)(z)") (by decide +kernel)
  obtain ⟨ts, hts, hcontent⟩ := parse_keeps_content_in_order 80 _ tree htree
  exact ⟨tree, ts, htree, hts, hcontent⟩

end ExprLang
