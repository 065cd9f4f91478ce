import Z80Asm.Proofs.Success

/-!
# Computations that fail

The other side of `Success`: what each building block of a computation needs to fail. A step that
fails is the last one, so a failure is that of the first step or that of what follows it.

The state that a failure leaves behind is part of the statements, because a session can go on with
it.
-/
set_option autoImplicit false

namespace Z80Asm.Success

variable {ε ε' σ α β : Type}

theorem bind_eq_error {x : EStateM ε σ α} {f : α → EStateM ε σ β} {s t : σ} {e : ε} :
    (x >>= f) s = .error e t ↔
      x s = .error e t ∨ ∃ a u, x s = .ok a u ∧ f a u = .error e t := by
  show EStateM.bind x f s = _ ↔ _
  unfold EStateM.bind
  cases x s with
  | ok a u => simp [and_assoc]
  | error e u => simp

theorem pure_eq_error {a : α} {s t : σ} {e : ε} :
    (pure a : EStateM ε σ α) s = .error e t ↔ False := by
  show EStateM.Result.ok a s = _ ↔ _
  simp

theorem throw_eq_error {e e' : ε} {s t : σ} :
    (throw e : EStateM ε σ α) s = .error e' t ↔ e = e' ∧ s = t := by
  show EStateM.Result.error e s = _ ↔ _
  simp

theorem adaptExcept_eq_error {f : ε → ε'} {x : EStateM ε σ α} {s t : σ} {e' : ε'} :
    EStateM.adaptExcept f x s = .error e' t ↔ ∃ e, x s = .error e t ∧ f e = e' := by
  unfold EStateM.adaptExcept
  cases x s with
  | ok a u => simp
  | error e u =>
    constructor
    · rintro ⟨⟩
      exact ⟨e, rfl, rfl⟩
    · rintro ⟨_, ⟨⟩, rfl⟩
      rfl

theorem except_bind_eq_error {x : Except ε α} {f : α → Except ε β} {e : ε} :
    (x >>= f) = .error e ↔ x = .error e ∨ ∃ a, x = .ok a ∧ f a = .error e := by
  show Except.bind x f = _ ↔ _
  unfold Except.bind
  cases x with
  | ok a => simp
  | error e => simp

/-! ## Runs of closed computations -/

/-- Whether a run failed in a way that passes a test. -/
def refuses (p : ε → Bool) : EStateM.Result ε σ α → Bool
  | .ok _ _ => false
  | .error e _ => p e

theorem eq_error_of_refuses {p : ε → Bool} {r : EStateM.Result ε σ α} (h : refuses p r = true) :
    ∃ e s, r = .error e s ∧ p e = true := by
  cases r with
  | ok a s => cases h
  | error e s => exact ⟨e, s, rfl, h⟩

end Z80Asm.Success
