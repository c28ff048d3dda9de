import ExprLang.Proofs.Acceptance
import ExprLang.Proofs.Similar

/-!
# The texts that are programs

Parsing accepts exactly the texts whose lexemes are a program (`IsProgram`), but for those that
assign to something other than a name.
-/

namespace ExprLang
open Grammar

theorem Words.isProgram_of_parse {limit : Nat} {w : Words} {tree : Expr}
    (h : w.parse limit = .ok tree) : w.stray = none ∧ ∃ ps, Itemized Reads ";" ps w.left ∧
      tree = .block (ps.map Prod.snd) := by
  have hrun := wp_program limit w
  have htakes := takes_program limit w
  unfold Words.parse at h
  cases hr : program limit w with
  | ok tree' w' =>
    rw [hr] at h
    cases h
    obtain ⟨rfl, hps⟩ := (wp_iff_of_ok hr).1 hrun
    obtain ⟨-, -, hstray, -⟩ := (wp_iff_of_ok hr).1 htakes
    exact ⟨hstray.symm, hps⟩
  | error err w' => rw [hr] at h; cases h

/-- The tree of a text stands for its lexemes, all of them. -/
theorem reads_of_parse {limit : Nat} {text : String} {tree : Expr}
    (h : parse limit text = .ok tree) : ∃ ts e ps, Holds (.ofText text) ts e ∧ e.stray = none ∧
      Itemized Reads ";" ps (ts.map Token.lexeme) ∧ tree = .block (ps.map Prod.snd) := by
  obtain ⟨ts, e, hs⟩ := Holds.exists_of_lookahead (.ofText text) rfl
  rw [hs.parse_eq] at h
  cases hw : (Words.ofTokens ts e).parse limit with
  | error err => rw [hw] at h; cases h
  | ok tree' =>
    rw [hw] at h
    cases h
    obtain ⟨hstray, ps, hps, htree⟩ := Words.isProgram_of_parse hw
    exact ⟨ts, e, ps, hs, hstray, hps, htree⟩

theorem Itemized.isProgram {ps : List (List Lexeme × Expr)} {w : List Lexeme}
    (h : Itemized Reads ";" ps w) : IsProgram w := by
  refine ⟨ps.map Prod.fst, fun v hv => ?_, h.listed⟩
  obtain ⟨p, hp, rfl⟩ := List.mem_map.1 hv
  exact (h.items p hp).derives

theorem Words.parse_of_spells (limit : Nat) {ps : List (List Lexeme × Expr)} {w : List Lexeme}
    (hps : ∀ p ∈ ps, Spells (.expression true p.2) p.1) (hw : Listed ";" (ps.map Prod.fst) w) :
    Words.parse limit ⟨w, none⟩ = .ok (.block (ps.map Prod.snd)) ∨
      ∃ err, Words.parse limit ⟨w, none⟩ = .error err ∧
        Refused (.block (ps.map Prod.snd)) err ⟨w, none⟩ := by
  have hrun := wp_program_of_spells limit hps hw
  unfold Words.parse
  cases hr : program limit (⟨w, none⟩ : Words) with
  | ok tree w' =>
    obtain ⟨rfl, -⟩ := (wp_iff_of_ok hr).1 hrun
    exact .inl rfl
  | error err w' => exact .inr ⟨err, rfl, (wp_iff_of_error hr).1 hrun⟩

/-- A text is parsed if and only if its lexemes are a program, unless it assigns to something other
than a name. -/
theorem parse_accepts_programs (limit : Nat) (text : String) (ts : List Token)
    (hts : tokenize text = .ok ts) (hdeep : parse limit text ≠ .error .tooDeep) :
    (∀ tree, parse limit text = .ok tree →
      (∃ items, tree = .block items) ∧ IsProgram (ts.map Token.lexeme)) ∧
    (IsProgram (ts.map Token.lexeme) → (∃ items, parse limit text = .ok (.block items)) ∨
      ∃ err rest, parse limit text = .error (.error err) ∧ err.stage = .parse ∧
        err.complaint.description = "Cannot assign to" ++ rest) := by
  obtain ⟨e, hs, he⟩ := Holds.of_tokenize hts
  have hwords : Words.ofTokens ts e = ⟨ts.map Token.lexeme, none⟩ := by rw [Words.ofTokens, he]
  have hparse := hs.parse_eq limit
  rw [hwords] at hparse
  rw [hparse] at hdeep ⊢
  refine ⟨fun tree htree => ?_, fun hprog => ?_⟩
  · cases hw : Words.parse limit ⟨ts.map Token.lexeme, none⟩ with
    | ok tree' =>
      obtain ⟨-, ps, hps, rfl⟩ := Words.isProgram_of_parse hw
      rw [hw] at htree
      cases htree
      exact ⟨⟨_, rfl⟩, hps.isProgram⟩
    | error err => rw [hw] at htree; cases htree
  · obtain ⟨ps, hps, hlisted⟩ := hprog.exists_spells
    rcases Words.parse_of_spells limit hps hlisted with hw | ⟨err, hw, hdeep' | ⟨-, target, n, rfl⟩⟩
    · exact .inl ⟨_, by rw [hw]; rfl⟩
    · rw [hw, hdeep'] at hdeep
      exact absurd rfl hdeep
    · refine .inr ⟨_, " " ++ target.quoted, by rw [hw]; rfl, rfl, ?_⟩
      show "Cannot assign to " ++ target.quoted = _
      rw [← String.append_assoc]
      rfl

/-- An `else` behind two conditionals, an argument list with a comma at its end, and a semicolon at
the end of the program. -/
theorem parse_accepts_programs_dangling_else : ∃ ts,
    tokenize "if a then if b then c else d; f(x,);" = .ok ts ∧
    parse 40 "if a then if b then c else d; f(x,);" ≠ .error .tooDeep ∧
    IsProgram (ts.map Token.lexeme) := by
  have hlex : (tokenize "if a then if b then c else d; f(x,);").isOk := by decide +kernel
  have hparse : (parse 40 "if a then if b then c else d; f(x,);").isOk := by decide +kernel
  cases hts : tokenize "if a then if b then c else d; f(x,);" with
  | error err => rw [hts] at hlex; cases hlex
  | ok ts =>
    cases htree : parse 40 "if a then if b then c else d; f(x,);" with
    | error err => rw [htree] at hparse; cases hparse
    | ok tree =>
      have h := parse_accepts_programs 40 _ ts hts (by rw [htree]; simp)
      exact ⟨ts, rfl, by simp, (h.1 tree htree).2⟩

end ExprLang
