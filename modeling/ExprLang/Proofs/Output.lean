import ExprLang.Proofs.Evaluation

/-!
# What evaluation writes

Evaluation takes nothing back that was written, and all that it adds is written by the program
(`Store.Continued`). That holds of every tree in every store, and however the evaluation ends, if it
holds of native functions (`Host.KeepsOutput`).
-/

namespace ExprLang

/-- What was written up to `st'` is what was written up to `st`, and then pieces by the program. -/
def Store.Continued (st st' : Store) : Prop :=
  ∃ pieces : List Piece, st'.output.toList = st.output.toList ++ pieces ∧
    ∀ p ∈ pieces, p.writer = .program

namespace Store.Continued
variable {st st' : Store}

theorem refl (st : Store) : st.Continued st := ⟨[], by simp⟩

theorem trans {st'' : Store} (h : st.Continued st') (h' : st'.Continued st'') :
    st.Continued st'' := by
  obtain ⟨pieces, houtput, hpieces⟩ := h
  obtain ⟨pieces', houtput', hpieces'⟩ := h'
  refine ⟨pieces ++ pieces', by rw [houtput', houtput, List.append_assoc], fun p hp => ?_⟩
  exact (List.mem_append.1 hp).elim (hpieces p) (hpieces' p)

theorem write (h : st.Continued st') (text : String) : st.Continued (st'.write .program text) := by
  obtain ⟨pieces, houtput, hpieces⟩ := h
  refine ⟨pieces ++ [⟨.program, text⟩], by simp [Store.write, houtput], ?_⟩
  simpa [or_imp, forall_and] using hpieces

theorem enter (h : st.Continued st') (s scope : ScopeId) (params : List String)
    (args : List Value) : st.Continued (Eval.bindParams s params args (st'.extend scope).2) := by
  have hextend : st.Continued (st'.extend scope).2 := h
  exact bindParams_induction (P := fun _ => True) (fun _ _ _ h _ => h) trivial hextend params
    fun _ _ => trivial

theorem isPrefix (h : st.Continued st') : st.output.toList <+: st'.output.toList := by
  obtain ⟨pieces, houtput, -⟩ := h
  exact ⟨pieces, houtput.symm⟩

/-- If nothing was written before, all is written by the program. -/
theorem writer_of_mem (h : st.Continued st') (hst : st.output = #[]) :
    ∀ p ∈ st'.output, p.writer = .program := by
  obtain ⟨pieces, houtput, hpieces⟩ := h
  intro p hp
  rw [hst, List.nil_append] at houtput
  exact hpieces p (houtput ▸ hp.val)

end Store.Continued

def Host.KeepsOutput (host : Host) : Prop :=
  ∀ f args (st : Store), st.Continued (leaves (host f args) st)

theorem Host.keepsOutput_builtins : Host.builtins.KeepsOutput := by
  intro f args st
  refine of_wp_leaves (P := st.Continued) (wp_mono (wp_print args st) ?_ ?_)
  · rintro v st' ⟨-, t, rfl⟩
    exact (Store.Continued.refl st).write t
  · rintro e st' ⟨-, rfl⟩
    exact .refl st'

/-- Any tree and any values will do. -/
def Discipline.writing {host : Host} (hhost : host.KeepsOutput) (st₀ : Store) : Discipline host where
  store := st₀.Continued
  later _ _ := True
  value _ _ := True
  tree _ _ _ := True
  error _ := True
  later_refl _ := trivial
  later_trans _ _ := trivial
  value_later _ _ := trivial
  tree_later _ _ := trivial
  tree_part _ _ := trivial
  number _ _ := trivial
  text _ _ := trivial
  truth _ _ := trivial
  read _ _ _ := trivial
  unread _ _ _ := trivial
  assigned hst _ _ _ := ⟨hst, trivial⟩
  unassigned _ _ _ := trivial
  badTarget _ _ := trivial
  closure hst _ := ⟨trivial, hst, trivial⟩
  enter hst _ _ := ⟨trivial, hst.enter _ _ _ _, trivial⟩
  native {_ f args st} hst _ _ := by
    have hrun := hst.trans (hhost f args st)
    cases hr : host f args st with
    | ok v st' =>
      rw [leaves_of_ok hr] at hrun
      exact (wp_iff_of_ok hr).2 ⟨trivial, hrun, trivial⟩
    | error err st' =>
      rw [leaves_of_error hr] at hrun
      refine (wp_iff_of_error hr).2 ?_
      cases err with
      | tooDeep => exact hrun
      | error e => exact ⟨trivial, hrun⟩
  notCallable _ := trivial
  notNumber _ := trivial
  divideByZero := trivial
  calculated {f m n _} _ _ _ := by cases f m n <;> exact trivial
  unknownOperator _ _ _ _ := trivial
  alien _ := trivial

theorem continued_evaluate {host : Host} (hhost : host.KeepsOutput) (limit : Nat) (e : Expr)
    (s : ScopeId) (st : Store) : st.Continued (leaves (evaluate host limit e s) st) := by
  refine of_wp_leaves ?_
  refine wp_mono ((Discipline.writing hhost st).wp_evaluate limit e s st (.refl st) trivial) ?_ ?_
  · intro v st' hdone
    exact hdone.store
  · rintro (_ | err) st' hstop
    · exact hstop
    · exact hstop.2

end ExprLang
