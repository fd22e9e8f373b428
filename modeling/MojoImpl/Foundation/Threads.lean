import Mathlib.Algebra.BigOperators.Group.List.Basic
import Mathlib.Algebra.Order.Group.Multiset

/-! Threads that take turns on a shared state. One step of a thread is what it does without
an interruption; a thread that waits or has returned has none. -/
namespace Foundation.Threads
variable {σ τ : Type}

inductive Step (step : σ → τ → Option (σ × τ)) (thread : τ) : σ → List τ → σ → List τ → Prop
  | step (s t : σ) (before after : List τ) (next : τ) (ran : step s thread = some (t,next)) :
    Step step thread s (before ++ thread :: after) t (before ++ next :: after)

/-- A thread runs on while all others wait. -/
inductive Alone (step : σ → τ → Option (σ × τ)) : σ → τ → σ → τ → Prop
  | stop (s : σ) (thread : τ) : Alone step s thread s thread
  | step (s t u : σ) (thread next last : τ) (ran : step s thread = some (t,next))
    (rest : Alone step t next u last) : Alone step s thread u last

theorem Alone.one {step : σ → τ → Option (σ × τ)} {s t : σ} {thread next : τ}
    (ran : step s thread = some (t,next)) : Alone step s thread t next := .step _ _ _ _ _ _ ran (.stop _ _)

theorem Alone.trans {step : σ → τ → Option (σ × τ)} {s t u : σ} {thread next last : τ}
    (first : Alone step s thread t next) (rest : Alone step t next u last) : Alone step s thread u last := by
  induction first with
  | stop s thread => exact rest
  | step s t v thread next last' ran more ih => exact .step _ _ _ _ _ _ ran (ih rest)

theorem all_split (P : τ → Prop) (before after : List τ) (thread : τ) :
    (∀ x ∈ before ++ thread :: after, P x) ↔ P thread ∧ ∀ x ∈ before ++ after, P x := by
  simp only [List.forall_mem_append,List.forall_mem_cons]
  exact and_left_comm

/-- The thread with a number takes its step. -/
theorem set_split {threads : List τ} {i : Nat} {thread : τ} (found : threads[i]? = some thread) :
    ∃ before after, threads = before ++ thread :: after ∧ ∀ next, threads.set i next = before ++ next :: after := by
  obtain ⟨inside,here⟩ := List.getElem?_eq_some_iff.mp found
  have all (next : τ) : threads.set i next = threads.take i ++ next :: threads.drop (i+1) := by
    rw [List.set_eq_take_append_cons_drop,if_pos inside]
  refine ⟨threads.take i,threads.drop (i+1),?_,all⟩
  rw [← all,← here,List.set_getElem_self]

section Turns
variable {step : σ → τ → Option (σ × τ)} {s t : σ} {threads threads' : List τ}

/-- The thread with a number takes its step. -/
def turn (step : σ → τ → Option (σ × τ)) (s : σ) (threads : List τ) (i : Nat) : Option (σ × List τ) := do
  let thread ← threads[i]?
  let (t,next) ← step s thread
  return (t,threads.set i next)

theorem turn_ran {i : Nat} (ran : turn step s threads i = some (t,threads')) :
    ∃ thread, Step step thread s threads t threads' := by
  obtain ⟨thread,found,more⟩ := Option.bind_eq_some_iff.mp ran
  obtain ⟨⟨t,next⟩,stepped,same⟩ := Option.bind_eq_some_iff.mp more
  cases same
  obtain ⟨before,after,rfl,set⟩ := set_split found
  rw [set]
  exact ⟨thread,.step _ _ before after next stepped⟩

theorem turn_of_step {thread : τ} (member : thread ∈ threads) (goes : step s thread ≠ none) :
    ∃ i, turn step s threads i ≠ none := by
  obtain ⟨i,found⟩ := List.mem_iff_getElem?.mp member
  obtain ⟨⟨t,next⟩,ran⟩ := Option.ne_none_iff_exists'.mp goes
  refine ⟨i,?_⟩
  rw [turn,found,Option.bind_eq_bind,Option.bind_some,ran]
  exact Option.some_ne_none _

end Turns

section Totals
variable {M : Type} [AddCommMonoid M]

def total (f : τ → M) (threads : List τ) : M := (threads.map f).sum

theorem total_started (f : τ → M) (threads : List τ) (thread : τ) :
    total f (threads ++ [thread]) = total f threads + f thread := by
  rw [total,List.map_append,List.sum_append,List.map_singleton,List.sum_singleton]
  rfl

theorem total_split (f : τ → M) (before after : List τ) (thread : τ) :
    total f (before ++ thread :: after) = f thread + total f (before ++ after) := by
  simp only [total,List.map_append,List.map_cons,List.sum_append,List.sum_cons]
  rw [add_left_comm]

theorem total_add (f g : τ → M) (threads : List τ) :
    total (fun thread => f thread + g thread) threads = total f threads + total g threads := by
  induction threads with
  | nil => exact (add_zero 0).symm
  | cons thread rest ih =>
    have here (h : τ → M) : total h (thread :: rest) = h thread + total h rest := List.sum_cons
    rw [here,here,here,ih,add_add_add_comm]

theorem total_zero {f : τ → M} {threads : List τ} (none : ∀ thread ∈ threads, f thread = 0) :
    total f threads = 0 := by
  induction threads with
  | nil => rfl
  | cons thread rest ih =>
    change (f thread :: rest.map f).sum = 0
    rw [List.sum_cons,none thread List.mem_cons_self,zero_add]
    exact ih fun other member => none other (List.mem_cons_of_mem thread member)

/-- What is collected from the threads, in any order. -/
theorem total_lists {β : Type} (f : τ → List β) (threads : List τ) :
    total (fun thread => (f thread : Multiset β)) threads = (threads.flatMap f : Multiset β) := by
  induction threads with
  | nil => rfl
  | cons thread rest ih =>
    rw [List.flatMap_cons,← Multiset.coe_add,← ih]
    exact List.sum_cons

end Totals

end Foundation.Threads
