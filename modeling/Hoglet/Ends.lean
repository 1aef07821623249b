import Mathlib.Order.Defs.Unbundled

/-! How a computation with a state and errors can end, and the rules that take its end apart step by
step. The state survives an error. -/
namespace Hoglet

/-- From `s` the computation ends with a value and a state that meet `Q`, or with an error and a state
that meet `E`. -/
def Ends {ε σ α : Type} (x : EStateM ε σ α) (s : σ) (Q : α → σ → Prop) (E : ε → σ → Prop) : Prop :=
  match x s with
  | .ok a s' => Q a s'
  | .error e s' => E e s'

namespace Ends
variable {ε σ α γ : Type} {s : σ} {E : ε → σ → Prop}

theorem ok {x : EStateM ε σ α} {Q : α → σ → Prop} (h : Ends x s Q E) {a : α} {s' : σ} (hx : x s = .ok a s') : Q a s' := by
  rwa [Ends, hx] at h

theorem error {x : EStateM ε σ α} {Q : α → σ → Prop} (h : Ends x s Q E) {e : ε} {s' : σ} (hx : x s = .error e s') :
    E e s' := by
  rwa [Ends, hx] at h

theorem bind {x : EStateM ε σ α} {f : α → EStateM ε σ γ} {Q : γ → σ → Prop}
    (h : Ends x s (fun a s' => Ends (f a) s' Q E) E) : Ends (x >>= f) s Q E := by
  unfold Ends at h ⊢
  simp only [Bind.bind, EStateM.bind]
  cases hx : x s <;> simp only [hx] at h ⊢ <;> exact h

theorem pure {a : α} {Q : α → σ → Prop} (h : Q a s) : Ends (Pure.pure a) s Q E := h

theorem throw {e : ε} {Q : α → σ → Prop} (h : E e s) : Ends (MonadExcept.throw e) s Q E := h

theorem get {Q : σ → σ → Prop} (h : Q s s) : Ends (MonadState.get : EStateM ε σ σ) s Q E := h

theorem modify {f : σ → σ} {Q : PUnit → σ → Prop} (h : Q ⟨⟩ (f s)) : Ends (modifyGet fun s => (⟨⟩, f s) : EStateM ε σ PUnit) s Q E := h

theorem mono {x : EStateM ε σ α} {Q Q' : α → σ → Prop} {E' : ε → σ → Prop} (h : Ends x s Q E)
    (hq : ∀ a s', Q a s' → Q' a s') (he : ∀ e s', E e s' → E' e s') : Ends x s Q' E' := by
  unfold Ends at h ⊢
  cases hx : x s with
  | ok a s' =>
    rw [hx] at h
    exact hq a s' h
  | error e s' =>
    rw [hx] at h
    exact he e s' h

theorem both {x : EStateM ε σ α} {Q Q' : α → σ → Prop} {E' : ε → σ → Prop} (h : Ends x s Q E) (h' : Ends x s Q' E') :
    Ends x s (fun a s' => Q a s' ∧ Q' a s') fun e s' => E e s' ∧ E' e s' := by
  unfold Ends at h h' ⊢
  cases hx : x s with
  | ok a s' =>
    rw [hx] at h h'
    exact ⟨h, h'⟩
  | error e s' =>
    rw [hx] at h h'
    exact ⟨h, h'⟩

theorem ran (x : EStateM ε σ α) (s : σ) : Ends x s (fun a s' => x s = .ok a s') fun _ _ => True := by
  unfold Ends
  cases x s with
  | ok a s' => exact rfl
  | error e s' => exact trivial

end Ends

/-- However the computation ends, its state has moved along `R`; a value meets `Q` besides. -/
def Along {ε σ α : Type} (R : σ → σ → Prop) (x : EStateM ε σ α) (s : σ) (Q : α → σ → Prop) : Prop :=
  Ends x s (fun a s' => R s s' ∧ Q a s') fun _ s' => R s s'

namespace Along
variable {ε σ α γ : Type} {R : σ → σ → Prop} {s : σ} {P : α → σ → Prop} {Q : γ → σ → Prop}

theorem bind [IsTrans σ R] {x : EStateM ε σ α} {f : α → EStateM ε σ γ} (h : Along R x s P)
    (hf : ∀ a s', R s s' → P a s' → Along R (f a) s' Q) : Along R (x >>= f) s Q :=
  Ends.bind <| Ends.mono h (fun a s' ⟨hr, hp⟩ => Ends.mono (hf a s' hr hp) (fun _ _ ⟨hr', hq⟩ => ⟨trans_of R hr hr', hq⟩)
    fun _ _ hr' => trans_of R hr hr') fun _ _ hr => hr

/-- The rest of a computation, which need not move along the relation. -/
theorem ends {E : ε → σ → Prop} {x : EStateM ε σ α} {f : α → EStateM ε σ γ} (h : Along R x s P)
    (hf : ∀ a s', R s s' → P a s' → Ends (f a) s' Q E) (he : ∀ e s', R s s' → E e s') : Ends (x >>= f) s Q E :=
  Ends.bind <| Ends.mono h (fun a s' ⟨hr, hp⟩ => hf a s' hr hp) he

/-- The rest of a computation that leaves the relation only when it succeeds. -/
theorem andThen [IsTrans σ R] {x : EStateM ε σ α} {f : α → EStateM ε σ γ} (h : Along R x s P)
    (hf : ∀ a s', R s s' → P a s' → Ends (f a) s' Q fun _ s'' => R s' s'') : Ends (x >>= f) s Q fun _ s' => R s s' :=
  Ends.bind <| Ends.mono h (fun a s' ⟨hr, hp⟩ => Ends.mono (hf a s' hr hp) (fun _ _ hq => hq) fun _ _ hr' => trans_of R hr hr')
    fun _ _ hr => hr

theorem pure [Std.Refl R] {a : α} (h : P a s) : Along R (Pure.pure a : EStateM ε σ α) s P := Ends.pure ⟨refl_of R s, h⟩

theorem throw [Std.Refl R] {e : ε} : Along R (MonadExcept.throw e : EStateM ε σ α) s P := Ends.throw (refl_of R s)

theorem get {f : σ → EStateM ε σ γ} (h : Along R (f s) s Q) : Along R (MonadState.get >>= f) s Q := Ends.bind (Ends.get h)

theorem mono {x : EStateM ε σ α} {P' : α → σ → Prop} (h : Along R x s P) (hp : ∀ a s', P a s' → P' a s') :
    Along R x s P' := Ends.mono h (fun a s' ⟨hr, hpa⟩ => ⟨hr, hp a s' hpa⟩) fun _ _ hr => hr

theorem keep {x : EStateM ε σ α} (h : Along R x s P) : Along R x s fun a s' => R s s' ∧ P a s' :=
  Ends.mono h (fun _ _ ⟨hr, hp⟩ => ⟨hr, hr, hp⟩) fun _ _ hr => hr

theorem widen {R' : σ → σ → Prop} {x : EStateM ε σ α} (h : Along R x s P) (hr : ∀ s', R s s' → R' s s') : Along R' x s P :=
  Ends.mono h (fun _ s' ⟨hrs, hp⟩ => ⟨hr s' hrs, hp⟩) fun _ s' hrs => hr s' hrs

end Along
end Hoglet
