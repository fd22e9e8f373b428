import Mathlib.Init

/-! Sequencing rules for state actions that may stop with an error.
An error keeps the state it was raised in, so the rules follow both outcomes. -/
namespace Foundation

section Sequencing
variable {ε σ α β : Type}

theorem run_bind_ok {x : EStateM ε σ α} {s t : σ} {a : α} (f : α → EStateM ε σ β)
    (first : x.run s = .ok a t) : (x >>= f).run s = (f a).run t := by
  rw [EStateM.run_bind,first]

theorem run_bind_error {x : EStateM ε σ α} {s t : σ} {e : ε} (f : α → EStateM ε σ β)
    (first : x.run s = .error e t) : (x >>= f).run s = .error e t := by
  rw [EStateM.run_bind,first]

theorem run_bind_returned {x : EStateM ε σ α} {f : α → EStateM ε σ β} {s u : σ} {b : β}
    (ran : (x >>= f).run s = .ok b u) : ∃ a t, x.run s = .ok a t ∧ (f a).run t = .ok b u := by
  rw [EStateM.run_bind] at ran
  split at ran
  · next a t first => exact ⟨a,t,first,ran⟩
  · contradiction

end Sequencing

end Foundation
