import ExprLang.Proofs.Stream

/-!
# A stream is a cursor over its tokens

A stream reads when it is asked, keeps one token of lookahead, and notes neither that it came to the
end of the text nor that it failed there. None of this shows in its answers: they are those of a
cursor over a list of tokens that is settled from the start, with an end that is the same each time.

One query moves what the stream holds by a token or not at all (`Holds.ask`), and the number of
tokens that were taken says what is left after many (`Holds.after`).
-/

namespace ExprLang

namespace TokenStream

/-- What a stream can be asked. -/
inductive Query where
  | next
  | peek
  | atEnd
  deriving DecidableEq

/-- The next token, if there is one; whether there is none; or why neither can be said. -/
inductive Answer where
  | token (t : Option Token)
  | atEnd (b : Bool)
  | failure (stop : Stop SourceError)

def Answer.isToken : Answer → Bool
  | token (some _) => true
  | _ => false

/-- A query as it runs. -/
def Query.run : Query → Parse Answer
  | next => return .token (← TokenSource.next)
  | peek => return .token (← TokenSource.peek)
  | atEnd => return .atEnd (← TokenSource.atEnd)

/-- The answer and the stream after it. A failure is an answer, and the stream is as it left it. -/
def ask (s : TokenStream) (q : Query) : Answer × TokenStream :=
  match q.run s with
  | .ok a s' => (a, s')
  | .error stop s' => (.failure stop, s')

/-- The stream after queries, whatever they answered. -/
def after (s : TokenStream) : List Query → TokenStream
  | [] => s
  | q :: qs => (s.ask q).2.after qs

def answers (s : TokenStream) : List Query → List Answer
  | [] => []
  | q :: qs => (s.ask q).1 :: (s.ask q).2.answers qs

/-- How many tokens a query took, going by its answer. -/
def Query.count (q : Query) (a : Answer) : Nat := if q = .next ∧ a.isToken then 1 else 0

/-- How many tokens the queries took. -/
def taken (s : TokenStream) : List Query → Nat
  | [] => 0
  | q :: qs => q.count (s.ask q).1 + (s.ask q).2.taken qs

/-- What is answered where `t` comes next. -/
def Query.answer (t : Option Token) : Query → Answer
  | next | peek => .token t
  | atEnd => .atEnd t.isNone

/-- What is answered where `j` of the tokens `ts` were taken: behind the last of them the text ends,
or it is wrong. -/
def Query.reply (ts : List Token) (ending : Option SourceError) (j : Nat) (q : Query) : Answer :=
  match ts[j]?, ending with
  | some t, _ => q.answer (some t)
  | none, none => q.answer none
  | none, some err => .failure (.error err)

/-- The tokens that are left after a query. -/
def Query.left (ts : List Token) : Query → List Token
  | next => ts.tail
  | peek | atEnd => ts

namespace Query

/-- What a query asks of the stream, before it puts that as an answer. -/
def fetch : Query → Parse (Option Token)
  | next => TokenSource.next
  | peek | atEnd => TokenSource.peek

theorem wp_run {q : Query} {Q : Answer → TokenStream → Prop}
    {B : Stop SourceError → TokenStream → Prop} {s : TokenStream} :
    wp q.run Q B s ↔ wp q.fetch (fun t => Q (q.answer t)) B s := by
  cases q <;> simp [run, fetch, answer, TokenSource.atEnd]

theorem reply_drop (q : Query) (ts : List Token) (ending : Option SourceError) (j : Nat) :
    q.reply (ts.drop j) ending 0 = q.reply ts ending j := by
  simp [reply]

theorem count_le (q : Query) (ts : List Token) (ending : Option SourceError) :
    q.count (q.reply ts ending 0) ≤ ts.length := by
  cases q with
  | next =>
    cases ts with
    | nil => cases ending <;> exact Nat.le_refl 0
    | cons t ts => exact Nat.succ_le_succ (Nat.zero_le _)
  | peek | atEnd => exact Nat.zero_le _

theorem left_of_ne {q : Query} (hq : q ≠ .next) (ts : List Token) : q.left ts = ts := by
  cases q with
  | next => exact absurd rfl hq
  | peek | atEnd => rfl

theorem left_eq_drop (q : Query) (ts : List Token) (ending : Option SourceError) :
    q.left ts = ts.drop (q.count (q.reply ts ending 0)) := by
  cases q with
  | next =>
    cases ts with
    | nil => simp [left]
    | cons t ts => rfl
  | peek | atEnd => rfl

end Query

theorem after_append (s : TokenStream) (qs qs' : List Query) :
    s.after (qs ++ qs') = (s.after qs).after qs' := by
  induction qs generalizing s with
  | nil => rfl
  | cons q qs ih => exact ih _

end TokenStream

open TokenStream

/-- What is wrong with the text behind its last token, if anything is. -/
def TextEnd.failure? (e : TextEnd) : Option SourceError :=
  e.stray.map fun c => .at .lexical (.strayCharacter c) e.line e.column

namespace Holds
variable {s : TokenStream} {ts : List Token} {e : TextEnd}

section
variable {q : Query} {t : Token} {c : Char} {Q : Option Token → TokenStream → Prop}
  {B : Stop SourceError → TokenStream → Prop}

theorem wp_fetch_cons (h : Holds s (t :: ts) e)
    (hQ : ∀ s', Holds s' (q.left (t :: ts)) e → Q (some t) s') : wp q.fetch Q B s := by
  cases q with
  | next => exact h.wp_next_cons hQ
  | peek | atEnd => exact h.wp_peek_cons fun s' hs' _ => hQ s' hs'

theorem wp_fetch_nil (h : Holds s [] e) (he : e.stray = none)
    (hQ : ∀ s', Holds s' (q.left []) e → Q none s') : wp q.fetch Q B s := by
  cases q with
  | next => exact h.wp_next_nil he fun s' hs' _ => hQ s' hs'
  | peek | atEnd => exact h.wp_peek_nil he fun s' hs' _ => hQ s' hs'

theorem wp_fetch_stray (h : Holds s [] e) (he : e.stray = some c)
    (hB : ∀ s', Holds s' (q.left []) e → B (e.error c) s') : wp q.fetch Q B s := by
  cases q with
  | next => exact h.wp_next_stray he hB
  | peek | atEnd => exact h.wp_peek_stray he hB

end

theorem wp_query (h : Holds s ts e) (q : Query) :
    wp q.run (fun a s' => a = q.reply ts e.failure? 0 ∧ Holds s' (q.left ts) e)
      (fun stop s' => .failure stop = q.reply ts e.failure? 0 ∧ Holds s' (q.left ts) e) s := by
  rw [Query.wp_run]
  cases ts with
  | cons t ts => exact h.wp_fetch_cons fun s' hs' => ⟨rfl, hs'⟩
  | nil =>
    cases he : e.stray with
    | none =>
      have hfail : e.failure? = none := by simp [TextEnd.failure?, he]
      rw [hfail]
      exact h.wp_fetch_nil he fun s' hs' => ⟨rfl, hs'⟩
    | some c =>
      have hfail : e.failure? = some (.at .lexical (.strayCharacter c) e.line e.column) := by
        simp [TextEnd.failure?, he]
      rw [hfail]
      exact h.wp_fetch_stray he fun s' hs' => ⟨rfl, hs'⟩

/-- A query is answered by the first of the tokens that are left, or by the end. -/
theorem ask (h : Holds s ts e) (q : Query) :
    (s.ask q).1 = q.reply ts e.failure? 0 ∧ Holds (s.ask q).2 (q.left ts) e := by
  have hrun := h.wp_query q
  unfold TokenStream.ask
  cases hq : q.run s with
  | ok a s' => exact (wp_iff_of_ok hq).1 hrun
  | error stop s' => exact (wp_iff_of_error hq).1 hrun

theorem after (h : Holds s ts e) (qs : List Query) :
    s.taken qs ≤ ts.length ∧ Holds (s.after qs) (ts.drop (s.taken qs)) e := by
  induction qs generalizing s ts with
  | nil => exact ⟨Nat.zero_le _, h⟩
  | cons q qs ih =>
    obtain ⟨hanswer, hleft⟩ := h.ask q
    have hcount := q.count_le ts e.failure?
    rw [q.left_eq_drop ts e.failure?] at hleft
    obtain ⟨hle, hholds⟩ := ih hleft
    rw [List.length_drop] at hle
    rw [List.drop_drop] at hholds
    rw [TokenStream.taken, hanswer]
    exact ⟨by omega, hholds⟩

/-- The answers depend on nothing but the tokens that are left and the end. -/
theorem answers_eq {s' : TokenStream} (h : Holds s ts e) (h' : Holds s' ts e) (qs : List Query) :
    s.answers qs = s'.answers qs := by
  induction qs generalizing s s' ts with
  | nil => rfl
  | cons q qs ih =>
    obtain ⟨hanswer, hleft⟩ := h.ask q
    obtain ⟨hanswer', hleft'⟩ := h'.ask q
    simp only [TokenStream.answers, hanswer, hanswer', ih hleft hleft']

end Holds

/-- A text has tokens and an end, at which it may be wrong, and a stream over the text is a cursor
over them: after any queries, failed ones among them, the tokens that were taken are the first of
the list, every query is answered by the one behind them or by the end, and a query that takes none
makes no difference to what is answered later. -/
theorem stream_answers_as_cursor (text : String) :
    ∃ (ts : List Token) (ending : Option SourceError),
      (∀ err, ending = some err → err.stage = .lexical ∧ tokenize text = .error (.error err)) ∧
      (ending = none → tokenize text = .ok ts) ∧
      ∀ qs : List Query,
        (ofText text).taken qs ≤ ts.length ∧
        (∀ q, (((ofText text).after qs).ask q).1 = q.reply ts ending ((ofText text).taken qs)) ∧
        ∀ q, q ≠ .next → ∀ later, ((ofText text).after (qs ++ [q])).answers later =
          ((ofText text).after qs).answers later := by
  obtain ⟨ts, e, h⟩ := Holds.exists_of_lookahead (ofText text) rfl
  have htokens := h.tokenize_eq
  refine ⟨ts, e.failure?, ?_, ?_, fun qs => ?_⟩
  · intro err herr
    obtain ⟨c, hc, rfl⟩ := Option.map_eq_some_iff.1 herr
    rw [hc] at htokens
    exact ⟨rfl, htokens⟩
  · intro hnone
    rw [Option.map_eq_none_iff.1 hnone] at htokens
    exact htokens
  · obtain ⟨hle, hafter⟩ := h.after qs
    refine ⟨hle, fun q => ?_, fun q hq later => ?_⟩
    · rw [(hafter.ask q).1, Query.reply_drop]
    · have hleft := (hafter.ask q).2
      rw [Query.left_of_ne hq] at hleft
      rw [after_append]
      exact hleft.answers_eq hafter later

end ExprLang
