/-! A loop that makes a system call until its body returns, against the results with which the
calls come back. -/
namespace Foundation
variable {ρ σ α : Type}

/-- What the loop returned, its state and the results it left; nothing when the results end
before it returns. -/
def attempts (body : ρ → σ → Option α × σ) : List ρ → σ → Option α × σ × List ρ
  | [], s => (none,s,[])
  | r::results, s =>
    match body r s with
    | (some a,t) => (some a,t,results)
    | (none,t) => attempts body results t

variable {body : ρ → σ → Option α × σ}

theorem attempts_returned {r : ρ} {results : List ρ} {s t : σ} {a : α} (ran : body r s = (some a,t)) :
    attempts body (r::results) s = (some a,t,results) := by
  rw [attempts,ran]

theorem attempts_again {r : ρ} {results : List ρ} {s t : σ} (ran : body r s = (none,t)) :
    attempts body (r::results) s = attempts body results t := by
  rw [attempts,ran]

/-- An invariant of the rounds holds while the loop goes on, and their last one gives what holds
when it returns. -/
theorem attempts_rule {Inv : σ → Prop} {Post : α → σ → Prop}
    (again : ∀ r s t, Inv s → body r s = (none,t) → Inv t)
    (returned : ∀ r s a t, Inv s → body r s = (some a,t) → Post a t)
    (results : List ρ) {s : σ} (inv : Inv s) :
    match attempts body results s with
    | (none,t,_) => Inv t
    | (some a,t,_) => Post a t := by
  induction results generalizing s with
  | nil => exact inv
  | cons r results ih =>
    rcases ran : body r s with ⟨_ | a,t⟩
    · rw [attempts_again ran]
      exact ih (again r s t inv ran)
    · rw [attempts_returned ran]
      exact returned r s a t inv ran

end Foundation
