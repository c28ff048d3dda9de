/-!
# What a run can end in

A computation over a state ends with a value or stops with an error, and leaves a state either
way. `wp x Q B s` says of the run of `x` from `s` that its value and state satisfy `Q`, or its error
and state satisfy `B`.
-/

namespace ExprLang

section
variable {ε σ α β : Type} {Q : α → σ → Prop} {B : ε → σ → Prop} {s : σ}

def wp (x : EStateM ε σ α) (Q : α → σ → Prop) (B : ε → σ → Prop) (s : σ) : Prop :=
  match x s with
  | .ok a s' => Q a s'
  | .error e s' => B e s'

theorem wp_mono {x : EStateM ε σ α} {Q' : α → σ → Prop} {B' : ε → σ → Prop} (h : wp x Q B s)
    (hQ : ∀ a s', Q a s' → Q' a s') (hB : ∀ e s', B e s' → B' e s') : wp x Q' B' s := by
  unfold wp at h ⊢
  split <;> rename_i heq <;> rw [heq] at h
  · exact hQ _ _ h
  · exact hB _ _ h

theorem wp_of_forall {x : EStateM ε σ α} (hQ : ∀ a s', Q a s') (hB : ∀ e s', B e s') :
    wp x Q B s := by
  unfold wp
  split
  · exact hQ _ _
  · exact hB _ _

theorem wp_iff_of_ok {x : EStateM ε σ α} {a : α} {s' : σ} (hx : x s = .ok a s') :
    wp x Q B s ↔ Q a s' := by
  rw [wp, hx]

theorem wp_iff_of_error {x : EStateM ε σ α} {e : ε} {s' : σ} (hx : x s = .error e s') :
    wp x Q B s ↔ B e s' := by
  rw [wp, hx]

theorem ok_of_wp {x : EStateM ε σ α} {a : α} {s' : σ}
    (h : wp x (fun b s₁ => s₁ = s' ∧ a = b) (fun _ _ => False) s) : x s = .ok a s' := by
  cases hx : x s with
  | ok b s₁ =>
    obtain ⟨rfl, rfl⟩ := (wp_iff_of_ok hx).1 h
    rfl
  | error e s₁ => exact ((wp_iff_of_error hx).1 h).elim

/-- A run that cannot fail ends with a value. -/
theorem exists_ok_of_wp {x : EStateM ε σ α} (h : wp x Q (fun _ _ => False) s) :
    ∃ a s', x s = .ok a s' ∧ Q a s' := by
  cases hx : x s with
  | ok a s' => exact ⟨a, s', rfl, (wp_iff_of_ok hx).1 h⟩
  | error e s' => exact ((wp_iff_of_error hx).1 h).elim

theorem error_of_wp {x : EStateM ε σ α} {e : ε} {s' : σ}
    (h : wp x (fun _ _ => False) (fun e' s₁ => s₁ = s' ∧ e = e') s) : x s = .error e s' := by
  cases hx : x s with
  | ok b s₁ => exact ((wp_iff_of_ok hx).1 h).elim
  | error e' s₁ =>
    obtain ⟨rfl, rfl⟩ := (wp_iff_of_error hx).1 h
    rfl

@[simp] theorem wp_pure (a : α) : wp (pure a) Q B s ↔ Q a s := Iff.rfl

@[simp] theorem wp_throw (e : ε) : wp (throw e : EStateM ε σ α) Q B s ↔ B e s := Iff.rfl

@[simp] theorem wp_get {Q : σ → σ → Prop} : wp get Q B s ↔ Q s s := Iff.rfl

@[simp] theorem wp_set {Q : PUnit → σ → Prop} (s' : σ) : wp (set s') Q B s ↔ Q ⟨⟩ s' := Iff.rfl

@[simp] theorem wp_modify {Q : PUnit → σ → Prop} (f : σ → σ) :
    wp (modify f) Q B s ↔ Q ⟨⟩ (f s) := Iff.rfl

@[simp] theorem wp_modifyGet (f : σ → α × σ) :
    wp (modifyGet f) Q B s ↔ Q (f s).1 (f s).2 := Iff.rfl

@[simp] theorem wp_bind {Q : β → σ → Prop} (x : EStateM ε σ α) (f : α → EStateM ε σ β) :
    wp (x >>= f) Q B s ↔ wp x (fun a s' => wp (f a) Q B s') B s := by
  simp only [wp, bind, EStateM.bind]
  cases x s <;> rfl

theorem bind_of_ok {x : EStateM ε σ α} {f : α → EStateM ε σ β} {a : α} {s' : σ}
    (hx : x s = .ok a s') : (x >>= f) s = f a s' := by
  simp only [bind, EStateM.bind, hx]

theorem bind_of_error {x : EStateM ε σ α} {f : α → EStateM ε σ β} {e : ε} {s' : σ}
    (hx : x s = .error e s') : (x >>= f) s = .error e s' := by
  simp only [bind, EStateM.bind, hx]

theorem ok_of_bind {x : EStateM ε σ α} {f : α → EStateM ε σ β} {b : β} {s' : σ}
    (h : (x >>= f) s = .ok b s') : ∃ a s₁, x s = .ok a s₁ ∧ f a s₁ = .ok b s' := by
  cases hx : x s with
  | ok a s₁ => exact ⟨a, s₁, rfl, (bind_of_ok hx).symm.trans h⟩
  | error e s₁ =>
    rw [bind_of_error hx] at h
    cases h

@[simp] theorem wp_map {Q : β → σ → Prop} (f : α → β) (x : EStateM ε σ α) :
    wp (f <$> x) Q B s ↔ wp x (fun a => Q (f a)) B s := by
  simp only [wp, Functor.map, EStateM.map]
  cases x s <;> rfl

theorem discard_eq (x : EStateM ε σ α) : discard x = x >>= fun _ => pure PUnit.unit :=
  map_eq_pure_bind (fun _ => PUnit.unit) x

@[simp] theorem wp_discard {Q : PUnit → σ → Prop} (x : EStateM ε σ α) :
    wp (discard x) Q B s ↔ wp x (fun _ => Q ⟨⟩) B s :=
  wp_map (fun _ => PUnit.unit) x

@[simp] theorem wp_ite (c : Prop) [Decidable c] (x y : EStateM ε σ α) :
    wp (if c then x else y) Q B s ↔ if c then wp x Q B s else wp y Q B s := by
  split <;> rfl

/-- The value or the error that the run of `x` from `s` ends with. -/
def returns (x : EStateM ε σ α) (s : σ) : Except ε α :=
  match x s with
  | .ok a _ => .ok a
  | .error e _ => .error e

/-- The state that the run of `x` from `s` leaves, however it ends. -/
def leaves (x : EStateM ε σ α) (s : σ) : σ :=
  match x s with
  | .ok _ s' => s'
  | .error _ s' => s'

theorem leaves_of_ok {x : EStateM ε σ α} {a : α} {s' : σ} (hx : x s = .ok a s') :
    leaves x s = s' := by
  rw [leaves, hx]

theorem leaves_of_error {x : EStateM ε σ α} {e : ε} {s' : σ} (hx : x s = .error e s') :
    leaves x s = s' := by
  rw [leaves, hx]

theorem leaves_bind_of_ok {x : EStateM ε σ α} {f : α → EStateM ε σ β} {a : α} {s' : σ}
    (hx : x s = .ok a s') : leaves (x >>= f) s = leaves (f a) s' := by
  rw [leaves, leaves, bind_of_ok hx]

theorem leaves_bind_of_error {x : EStateM ε σ α} {f : α → EStateM ε σ β} {e : ε} {s' : σ}
    (hx : x s = .error e s') : leaves (x >>= f) s = s' :=
  leaves_of_error (bind_of_error hx)

/-- What holds of the state however the run ends. -/
theorem of_wp_leaves {x : EStateM ε σ α} {P : σ → Prop} (h : wp x (fun _ => P) (fun _ => P) s) :
    P (leaves x s) := by
  cases hx : x s with
  | ok a s' =>
    rw [leaves_of_ok hx]
    exact (wp_iff_of_ok hx).1 h
  | error e s' =>
    rw [leaves_of_error hx]
    exact (wp_iff_of_error hx).1 h

/-- `I` holds all along, `R` relates a state to every later one, and what `P` says of a result stays
true in later states. -/
theorem wp_mapM {I : σ → Prop} {R : σ → σ → Prop} {P : β → σ → Prop} (hrefl : ∀ s, R s s)
    (htrans : ∀ {s s' s''}, R s s' → R s' s'' → R s s'')
    (hP : ∀ {b s s'}, P b s → R s s' → P b s') {f : α → EStateM ε σ β} {as : List α}
    (hf : ∀ a ∈ as, ∀ s, I s → wp (f a) (fun b s' => P b s' ∧ I s' ∧ R s s') B s) (hs : I s) :
    wp (as.mapM f) (fun bs s' => (∀ b ∈ bs, P b s') ∧ I s' ∧ R s s') B s := by
  induction as generalizing s with
  | nil =>
    rw [List.mapM_nil, wp_pure]
    exact ⟨by simp, hs, hrefl s⟩
  | cons a as ih =>
    obtain ⟨ha, has⟩ := List.forall_mem_cons.1 hf
    rw [List.mapM_cons, wp_bind]
    refine wp_mono (ha s hs) ?_ fun _ _ h => h
    rintro b s' ⟨hb, hs', hR⟩
    rw [wp_bind]
    refine wp_mono (ih has hs') ?_ fun _ _ h => h
    rintro bs s'' ⟨hbs, hs'', hR'⟩
    exact ⟨List.forall_mem_cons.2 ⟨hP hb hR', hbs⟩, hs'', htrans hR hR'⟩

theorem wp_foldlM {I : σ → Prop} {P : β → σ → Prop} {f : β → α → EStateM ε σ β} {as : List α}
    (hf : ∀ a ∈ as, ∀ b s, I s → wp (f b a) (fun b' s' => P b' s' ∧ I s') B s) {b : β} (hb : P b s)
    (hs : I s) : wp (as.foldlM f b) (fun b' s' => P b' s' ∧ I s') B s := by
  induction as generalizing b s with
  | nil =>
    rw [List.foldlM_nil, wp_pure]
    exact ⟨hb, hs⟩
  | cons a as ih =>
    obtain ⟨ha, has⟩ := List.forall_mem_cons.1 hf
    rw [List.foldlM_cons, wp_bind]
    refine wp_mono (ha b s hs) ?_ fun _ _ h => h
    rintro b' s' ⟨hb', hs'⟩
    exact ih has hb' hs'

/-- What a closed term comes to is seen by a test that can be decided. -/
theorem exists_of_isOk {x : Except ε α} (h : x.isOk) : ∃ a, x = .ok a := by
  cases x with
  | ok a => exact ⟨a, rfl⟩
  | error e => cases h

theorem ok_of_toOption {x : Except ε α} {a : α} (h : x.toOption = some a) : x = .ok a := by
  cases x with
  | ok b =>
    cases h
    rfl
  | error e => cases h

end

end ExprLang
