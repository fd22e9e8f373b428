import Mathlib.Data.List.Flatten

/-! Runs of a partial step function whose labels are allowed where they are taken, and
forward simulation: what a label does is matched by the labels it is observed as, none of
them or several. A queue in order is the specification that transports are compared with. -/
namespace Foundation
variable {σ τ υ α β γ : Type}

inductive Path (step : σ → α → Option σ) (allowed : σ → α → Prop) : σ → List α → σ → Prop
  | nil (s : σ) : Path step allowed s [] s
  | cons {s t u : σ} {a : α} {labels : List α} (may : allowed s a) (ran : step s a = some t)
      (rest : Path step allowed t labels u) : Path step allowed s (a::labels) u

namespace Path
variable {step : σ → α → Option σ} {allowed : σ → α → Prop} {s t u : σ} {a : α} {labels more : List α}

theorem one (may : allowed s a) (ran : step s a = some t) : Path step allowed s [a] t :=
  .cons may ran (.nil t)

theorem append (first : Path step allowed s labels t) (second : Path step allowed t more u) :
    Path step allowed s (labels ++ more) u := by
  induction first with
  | nil => exact second
  | cons may ran rest ih => exact .cons may ran (ih second)

theorem of_run (may : ∀ a ∈ labels, ∀ s, allowed s a) (ran : labels.foldlM step s = some t) :
    Path step allowed s labels t := by
  induction labels generalizing s with
  | nil =>
    cases ran
    exact .nil _
  | cons a labels ih =>
    obtain ⟨u,first,rest⟩ := Option.bind_eq_some_iff.mp ran
    exact .cons (may a List.mem_cons_self s) first
      (ih (fun b member => may b (List.mem_cons_of_mem _ member)) rest)

/-- Where it can be decided what is allowed, a run that checks it is a path. -/
theorem of_checked [∀ s a, Decidable (allowed s a)]
    (ran : labels.foldlM (fun s a => if allowed s a then step s a else none) s = some t) :
    Path step allowed s labels t := by
  induction labels generalizing s with
  | nil =>
    cases ran
    exact .nil _
  | cons a labels ih =>
    obtain ⟨u,first,rest⟩ := Option.bind_eq_some_iff.mp ran
    dsimp only at first
    split at first
    · next may => exact .cons may first (ih rest)
    · contradiction

theorem run (path : Path step allowed s labels t) : labels.foldlM step s = some t := by
  induction path with
  | nil => rfl
  | cons may ran rest ih =>
    rw [List.foldlM_cons,ran]
    exact ih

/-- A view of the state a computation ends in, read off the computation. -/
theorem view_of {o : Option σ} (ran : o = some s) (view : σ → β) {value : β}
    (fact : o.map view = some value) : view s = value := by
  rw [ran] at fact
  exact Option.some.inj fact

theorem invariant {Inv : σ → Prop}
    (keeps : ∀ {s t : σ} {a : α}, Inv s → allowed s a → step s a = some t → Inv t)
    (path : Path step allowed s labels t) (before : Inv s) : Inv t := by
  induction path with
  | nil => exact before
  | cons may ran rest ih => exact ih (keeps before may ran)

/-- An invariant of the state and of the labels that have led to it. -/
theorem history {Inv : List α → σ → Prop}
    (keeps : ∀ {past : List α} {s t : σ} {a : α}, Inv past s → allowed s a → step s a = some t →
      Inv (past ++ [a]) t)
    (path : Path step allowed s labels t) {past : List α} (before : Inv past s) : Inv (past ++ labels) t := by
  induction path generalizing past with
  | nil => rwa [List.append_nil]
  | cons may ran rest ih =>
    have now := ih (keeps before may ran)
    rwa [List.append_assoc] at now

/-- Where every step makes the measure smaller, it bounds how long a run can get. -/
theorem bounded {Inv : σ → Prop} (measure : σ → Nat)
    (shrinks : ∀ {s t : σ} {a : α}, Inv s → allowed s a → step s a = some t → Inv t ∧ measure t < measure s)
    (path : Path step allowed s labels t) (before : Inv s) : Inv t ∧ labels.length + measure t ≤ measure s := by
  induction path with
  | nil => exact ⟨before,by simp⟩
  | cons may ran rest ih =>
    obtain ⟨next,less⟩ := shrinks before may ran
    obtain ⟨last,bound⟩ := ih next
    refine ⟨last,?_⟩
    rw [List.length_cons]
    omega

end Path

/-- The second system can do what the first does, as it is observed, and stays related. -/
structure Simulation (step : σ → α → Option σ) (allowed : σ → α → Prop)
    (step' : τ → β → Option τ) (allowed' : τ → β → Prop) (observe : α → List β)
    (R : σ → τ → Prop) : Prop where
  simulate : ∀ {s t : σ} {x : τ} {a : α}, R s x → allowed s a → step s a = some t →
    ∃ y, Path step' allowed' x (observe a) y ∧ R t y

namespace Simulation
variable {step : σ → α → Option σ} {allowed : σ → α → Prop} {step' : τ → β → Option τ}
  {allowed' : τ → β → Prop} {step'' : υ → γ → Option υ} {allowed'' : υ → γ → Prop}
  {observe : α → List β} {observe' : β → List γ} {R : σ → τ → Prop} {R' : τ → υ → Prop}

theorem path (simulation : Simulation step allowed step' allowed' observe R) {s t : σ} {x : τ}
    {labels : List α} (path : Path step allowed s labels t) (related : R s x) :
    ∃ y, Path step' allowed' x (labels.flatMap observe) y ∧ R t y := by
  induction path generalizing x with
  | nil s => exact ⟨x,.nil x,related⟩
  | cons may ran rest ih =>
    obtain ⟨y,first,related'⟩ := simulation.simulate related may ran
    obtain ⟨z,later,last⟩ := ih related'
    exact ⟨z,first.append later,last⟩

theorem trans (upper : Simulation step allowed step' allowed' observe R)
    (lower : Simulation step' allowed' step'' allowed'' observe' R') :
    Simulation step allowed step'' allowed'' (fun a => (observe a).flatMap observe')
      (fun s z => ∃ x, R s x ∧ R' x z) where
  simulate related may ran := by
    obtain ⟨x,above,below⟩ := related
    obtain ⟨y,path,above'⟩ := upper.simulate above may ran
    obtain ⟨z,path',below'⟩ := lower.path path below
    exact ⟨z,path',y,above',below'⟩

end Simulation

/-- What has been put and not taken, and what has been taken. -/
structure Fifo (α : Type) where
  queue : List α
  taken : List α

namespace Fifo

inductive Label (α : Type)
  | put (a : α)
  | take

def empty : Fifo α := ⟨[],[]⟩

def step (s : Fifo α) : Label α → Option (Fifo α)
  | .put a => some ⟨s.queue ++ [a],s.taken⟩
  | .take =>
    match s.queue with
    | [] => none
    | a::queue => some ⟨queue,s.taken ++ [a]⟩

def all (s : Fifo α) : List α := s.taken ++ s.queue

def map (f : α → β) (s : Fifo α) : Fifo β := ⟨s.queue.map f,s.taken.map f⟩

theorem map_all (f : α → β) (s : Fifo α) : (s.map f).all = s.all.map f := List.map_append.symm

end Fifo

end Foundation
