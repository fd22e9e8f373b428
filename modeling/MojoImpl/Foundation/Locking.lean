import Mathlib.Logic.Function.Basic
import Mathlib.Logic.Relation
import MojoImpl.Foundation.Simulation

/-! Threads that take locks for blocks of code. Where the locks taken inside of a block rank
above the lock of the block, a thread that waits for a lock waits, perhaps through others, for
a thread that can go on. Where what is shared is used with the lock that guards it, no two
threads use it at a time. -/
namespace Foundation.Locking
variable {ι L A σ : Type}

/-- `pick` goes on with one of the branches, and `many` goes round any number of times. -/
inductive Code (L A : Type)
  | skip
  | act (a : A)
  | locked (l : L) (body : Code L A)
  | seq (first second : Code L A)
  | pick (branch : Nat → Code L A)
  | many (body : Code L A)

/-- What a thread has still to do. A lock that it has is released further on. -/
inductive Instr (L A : Type)
  | code (c : Code L A)
  | enter (l : L) (body : Code L A)
  | leave (l : L)
  | release (l : L)

/-- What a thread does with a lock it has just taken, and before it releases it. -/
structure Bracket (ι L σ : Type) where
  enter : ι → L → σ → σ
  leave : ι → L → σ → σ

/-- Locks are recursive: `owner` has the thread that has the lock, and how often it took it. -/
structure State (ι L A σ : Type) where
  thread : ι → List (Instr L A)
  owner : L → Option (ι × Nat)
  memory : σ

def start (program : ι → Code L A) (memory : σ) : State ι L A σ where
  thread t := [.code (program t)]
  owner _ := none
  memory

section Steps
variable [DecidableEq ι]

def State.goes (s : State ι L A σ) (t : ι) (rest : List (Instr L A)) : State ι L A σ :=
  { s with thread := Function.update s.thread t rest }

/-- Only the thread that takes the step has other code. -/
theorem forall_goes {t : ι} {P : ι → List (Instr L A) → Prop} (s : State ι L A σ) {rest : List (Instr L A)} (here : P t rest)
    (elsewhere : ∀ u, u ≠ t → P u (s.thread u)) (u : ι) : P u ((s.goes t rest).thread u) := by
  unfold State.goes
  dsimp only
  by_cases same : u = t
  · subst same
    rw [Function.update_self]
    exact here
  · rw [Function.update_of_ne same]
    exact elsewhere u same

variable [DecidableEq L]

def acquire (owner : L → Option (ι × Nat)) (t : ι) (l : L) : Option (L → Option (ι × Nat)) :=
  match owner l with
  | none => some (Function.update owner l (some (t,1)))
  | some (u,n) => if u = t then some (Function.update owner l (some (t,n+1))) else none

def release (owner : L → Option (ι × Nat)) (t : ι) (l : L) : Option (L → Option (ι × Nat)) :=
  match owner l with
  | none => none
  | some (u,n) =>
    if u = t then some (Function.update owner l (if n = 1 then none else some (t,n-1))) else none

/-- The number says where `pick` goes on, and whether `many` goes round again. -/
def step (bracket : Bracket ι L σ) (s : State ι L A σ) (label : ι × Nat) : Option (State ι L A σ) :=
  let t := label.1
  match s.thread t with
  | [] => none
  | .code .skip::rest => some (s.goes t rest)
  | .code (.act _)::rest => some (s.goes t rest)
  | .code (.seq first second)::rest => some (s.goes t (.code first::.code second::rest))
  | .code (.pick branch)::rest => some (s.goes t (.code (branch label.2)::rest))
  | .code (.many body)::rest =>
    some (s.goes t (if label.2 = 0 then rest else .code body::.code (.many body)::rest))
  | .code (.locked l body)::rest => do
    let owner ← acquire s.owner t l
    return { s.goes t (.enter l body::.release l::rest) with owner }
  | .enter l body::rest =>
    some { s.goes t (.code body::.leave l::rest) with memory := bracket.enter t l s.memory }
  | .leave l::rest => some { s.goes t rest with memory := bracket.leave t l s.memory }
  | .release l::rest => do
    let owner ← release s.owner t l
    return { s.goes t rest with owner }

end Steps

/-- The order of the locks, and which of them guards what. -/
structure Rule (L A : Type) where
  rank : L → Nat
  guard : A → Option L

section Order
variable {rule : Rule L A} {s : State ι L A σ} {t : ι} {l : L} {rest : List (Instr L A)}

/-- With `locks` taken, the locks taken on rank above them, and what is guarded is used with
the lock that guards it. -/
def Code.Obeys (rule : Rule L A) : List L → Code L A → Prop
  | _,.skip => True
  | locks,.act a => ∀ l ∈ rule.guard a, l ∈ locks
  | locks,.locked l body => (∀ l' ∈ locks, rule.rank l' < rule.rank l) ∧ body.Obeys rule (l::locks)
  | locks,.seq first second => first.Obeys rule locks ∧ second.Obeys rule locks
  | locks,.pick branch => ∀ k, (branch k).Obeys rule locks
  | locks,.many body => body.Obeys rule locks

/-- The locks that are still to be released are those the thread has. -/
def held (rest : List (Instr L A)) : List L :=
  rest.filterMap fun
    | .release l => some l
    | _ => none

def Fits (rule : Rule L A) : List (Instr L A) → Prop
  | [] => True
  | .code c::rest => c.Obeys rule (held rest) ∧ Fits rule rest
  | .enter l body::rest => (∃ outer, rest = .release l::outer) ∧ body.Obeys rule (held rest) ∧ Fits rule rest
  | .leave l::rest => (∃ outer, rest = .release l::outer) ∧ Fits rule rest
  | .release l::rest => (∀ l' ∈ held rest, rule.rank l' < rule.rank l) ∧ Fits rule rest

theorem not_held (higher : ∀ l' ∈ held rest, rule.rank l' < rule.rank l) : l ∉ held rest := by
  intro member
  exact Nat.lt_irrefl _ (higher l member)

/-- What is entered is still locked. -/
theorem Fits.held_of_leave (fits : Fits rule rest) (member : .leave l ∈ rest) : l ∈ held rest := by
  induction rest with
  | nil => exact absurd member List.not_mem_nil
  | cons instr rest ih =>
    obtain here | later := List.mem_cons.mp member
    · subst here
      obtain ⟨outer,rfl⟩ := fits.1
      exact List.mem_cons_self
    · cases instr with
      | code c => exact ih fits.2 later
      | enter l' body => exact ih fits.2.2 later
      | leave l' => exact ih fits.2 later
      | release l' => exact List.mem_cons_of_mem l' (ih fits.2 later)

/-- A lock is owned, once, by the thread that has still to release it. -/
structure Sound (rule : Rule L A) (s : State ι L A σ) : Prop where
  fits : ∀ t, Fits rule (s.thread t)
  once : ∀ l t n, s.owner l = some (t,n) → n = 1
  owned : ∀ l t, s.owner l = some (t,1) ↔ l ∈ held (s.thread t)

theorem sound_start {program : ι → Code L A} (obeys : ∀ t, (program t).Obeys rule []) (memory : σ) :
    Sound rule (start program memory) where
  fits t := ⟨obeys t,trivial⟩
  once l t n owned := by contradiction
  owned l t := by
    constructor
    · intro owned
      contradiction
    · intro member
      exact absurd member List.not_mem_nil

/-- A thread has not finished while it has a lock. -/
theorem Sound.unfinished (sound : Sound rule s) (owned : s.owner l = some (t,1)) : s.thread t ≠ [] := by
  intro finished
  have member := (sound.owned l t).mp owned
  rw [finished] at member
  exact List.not_mem_nil member

/-- What is guarded is used by the thread that has the lock of it. -/
theorem Sound.acts (sound : Sound rule s) {a : A} (now : s.thread t = .code (.act a)::rest)
    (guarded : rule.guard a = some l) : s.owner l = some (t,1) := by
  have fits := sound.fits t
  rw [now] at fits
  apply (sound.owned l t).mpr
  rw [now]
  exact fits.1 l guarded

/-- No other thread has entered the block of a lock that a thread has. -/
theorem Sound.not_entered (sound : Sound rule s) (has : l ∈ held (s.thread t)) {u : ι} (apart : u ≠ t) :
    .leave l ∉ s.thread u := by
  intro entered
  have owned := (sound.owned l u).mpr ((sound.fits u).held_of_leave entered)
  rw [(sound.owned l t).mpr has] at owned
  exact apart (Prod.mk.inj (Option.some.inj owned)).1.symm

variable [DecidableEq ι]

/-- What keeps the owners and the locks that a thread has still to release stays sound. -/
theorem Sound.keeps (sound : Sound rule s) {more : List (Instr L A)} (memory : σ)
    (same : held more = held (s.thread t)) (fits : Fits rule more) :
    Sound rule { s.goes t more with memory } where
  fits := forall_goes (P := fun _ rest => Fits rule rest) s fits fun u _ => sound.fits u
  once := sound.once
  owned l := by
    apply forall_goes (P := fun u rest => s.owner l = some (u,1) ↔ l ∈ held rest) s
    · rw [same]
      exact sound.owned l t
    · exact fun u _ => sound.owned l u

end Order

section Runs
variable [DecidableEq ι] [DecidableEq L] {bracket : Bracket ι L σ} {rule : Rule L A} {s s' : State ι L A σ}
  {t u : ι} {l : L}

/-- What a step does to the thread that takes it, to the locks and to the memory. -/
inductive Moves (bracket : Bracket ι L σ) (s : State ι L A σ) (t : ι) : State ι L A σ → Prop
  | goes (c : Code L A) (rest more : List (Instr L A)) (now : s.thread t = .code c::rest)
    (same : held more = held rest) (leaves : ∀ l, .leave l ∈ more ↔ .leave l ∈ rest)
    (fits : ∀ rule, Fits rule (.code c::rest) → Fits rule more) : Moves bracket s t (s.goes t more)
  | acquires (l : L) (body : Code L A) (rest : List (Instr L A)) (owner : L → Option (ι × Nat))
    (now : s.thread t = .code (.locked l body)::rest) (acquired : acquire s.owner t l = some owner) :
    Moves bracket s t { s.goes t (.enter l body::.release l::rest) with owner }
  | enters (l : L) (body : Code L A) (rest : List (Instr L A)) (now : s.thread t = .enter l body::rest) :
    Moves bracket s t { s.goes t (.code body::.leave l::rest) with memory := bracket.enter t l s.memory }
  | leaves (l : L) (rest : List (Instr L A)) (now : s.thread t = .leave l::rest) :
    Moves bracket s t { s.goes t rest with memory := bracket.leave t l s.memory }
  | releases (l : L) (rest : List (Instr L A)) (owner : L → Option (ι × Nat)) (now : s.thread t = .release l::rest)
    (released : release s.owner t l = some owner) : Moves bracket s t { s.goes t rest with owner }

theorem step_moves {n : Nat} (ran : step bracket s (t,n) = some s') : Moves bracket s t s' := by
  unfold step at ran
  dsimp only at ran
  split at ran
  · contradiction
  · next rest now =>
    cases ran
    exact .goes .skip rest rest now rfl (fun _ => Iff.rfl) fun _ fits => fits.2
  · next a rest now =>
    cases ran
    exact .goes (.act a) rest rest now rfl (fun _ => Iff.rfl) fun _ fits => fits.2
  · next first second rest now =>
    cases ran
    refine .goes _ rest _ now rfl ?_ ?_
    · intro l
      simp
    · intro rule fits
      exact ⟨fits.1.1,fits.1.2,fits.2⟩
  · next branch rest now =>
    cases ran
    refine .goes _ rest _ now rfl ?_ ?_
    · intro l
      simp
    · intro rule fits
      exact ⟨fits.1 n,fits.2⟩
  · next body rest now =>
    cases ran
    split
    · exact .goes _ rest rest now rfl (fun _ => Iff.rfl) fun _ fits => fits.2
    · refine .goes _ rest _ now rfl ?_ ?_
      · intro l
        simp
      · intro rule fits
        exact ⟨fits.1,fits.1,fits.2⟩
  · next l body rest now =>
    obtain ⟨owner,acquired,same⟩ := Option.bind_eq_some_iff.mp ran
    cases same
    exact .acquires l body rest owner now acquired
  · next l body rest now =>
    cases ran
    exact .enters l body rest now
  · next l rest now =>
    cases ran
    exact .leaves l rest now
  · next l rest now =>
    obtain ⟨owner,released,same⟩ := Option.bind_eq_some_iff.mp ran
    cases same
    exact .releases l rest owner now released

theorem acquire_free (once : ∀ l t n, s.owner l = some (t,n) → n = 1) (other : s.owner l ≠ some (t,1))
    {owner : L → Option (ι × Nat)} (acquired : acquire s.owner t l = some owner) :
    s.owner l = none ∧ owner = Function.update s.owner l (some (t,1)) := by
  unfold acquire at acquired
  split at acquired
  · next free => exact ⟨free,(Option.some.inj acquired).symm⟩
  · next u n owned =>
    split at acquired
    · next same =>
      subst same
      rw [once l u n owned] at owned
      exact absurd owned other
    · contradiction

theorem release_owned (owned : s.owner l = some (t,1)) :
    release s.owner t l = some (Function.update s.owner l none) := by
  rw [release,owned]
  simp

theorem Sound.acquires (sound : Sound rule s) {body : Code L A} {rest : List (Instr L A)}
    (now : s.thread t = .code (.locked l body)::rest) {owner : L → Option (ι × Nat)}
    (acquired : acquire s.owner t l = some owner) :
    Sound rule { s.goes t (.enter l body::.release l::rest) with owner } := by
  have fits := sound.fits t
  rw [now] at fits
  obtain ⟨⟨higher,obeys⟩,outer⟩ := fits
  have unheld : l ∉ held rest := not_held higher
  have other : s.owner l ≠ some (t,1) := by
    intro owned
    have member := (sound.owned l t).mp owned
    rw [now] at member
    exact unheld member
  obtain ⟨free,rfl⟩ := acquire_free sound.once other acquired
  refine ⟨?_,?_,?_⟩
  · apply forall_goes (P := fun _ rest => Fits rule rest) s
    · exact ⟨⟨rest,rfl⟩,obeys,higher,outer⟩
    · exact fun u _ => sound.fits u
  · intro l' u n owned
    dsimp only at owned
    by_cases same : l' = l
    · subst same
      rw [Function.update_self] at owned
      exact (Prod.mk.inj (Option.some.inj owned)).2.symm
    · rw [Function.update_of_ne same] at owned
      exact sound.once l' u n owned
  · intro l'
    dsimp only
    apply forall_goes (P := fun u rest => Function.update s.owner l (some (t,1)) l' = some (u,1) ↔ l' ∈ held rest) s
    · change _ ↔ l' ∈ l::held rest
      by_cases same : l' = l
      · subst same
        simp
      · have before := sound.owned l' t
        rw [now] at before
        rw [Function.update_of_ne same,before]
        simp [same,held]
    · intro u apart
      have before := sound.owned l' u
      by_cases same : l' = l
      · subst same
        rw [free] at before
        rw [Function.update_self,← before]
        simp [Ne.symm apart]
      · rwa [Function.update_of_ne same]

theorem Sound.releases (sound : Sound rule s) {rest : List (Instr L A)} (now : s.thread t = .release l::rest)
    {owner : L → Option (ι × Nat)} (released : release s.owner t l = some owner) :
    Sound rule { s.goes t rest with owner } := by
  have fits := sound.fits t
  rw [now] at fits
  obtain ⟨higher,outer⟩ := fits
  have unheld : l ∉ held rest := not_held higher
  have owned : s.owner l = some (t,1) := (sound.owned l t).mpr (by rw [now]; exact List.mem_cons_self)
  rw [release_owned owned] at released
  cases released
  refine ⟨?_,?_,?_⟩
  · exact forall_goes (P := fun _ rest => Fits rule rest) s outer fun u _ => sound.fits u
  · intro l' u n kept
    dsimp only at kept
    by_cases same : l' = l
    · subst same
      rw [Function.update_self] at kept
      contradiction
    · rw [Function.update_of_ne same] at kept
      exact sound.once l' u n kept
  · intro l'
    dsimp only
    apply forall_goes (P := fun u rest => Function.update s.owner l none l' = some (u,1) ↔ l' ∈ held rest) s
    · by_cases same : l' = l
      · subst same
        simp [unheld]
      · have before := sound.owned l' t
        rw [now] at before
        rw [Function.update_of_ne same,before]
        simp [same,held]
    · intro u apart
      have before := sound.owned l' u
      by_cases same : l' = l
      · subst same
        rw [owned] at before
        rw [Function.update_self,← before]
        simp [Ne.symm apart]
      · rwa [Function.update_of_ne same]

theorem Sound.moves (sound : Sound rule s) (moved : Moves bracket s t s') : Sound rule s' := by
  have fits := sound.fits t
  cases moved with
  | goes c rest more now same leaves stays =>
    rw [now] at fits
    exact sound.keeps s.memory (by rw [now]; exact same) (stays rule fits)
  | acquires l body rest owner now acquired => exact sound.acquires now acquired
  | enters l body rest now =>
    rw [now] at fits
    obtain ⟨⟨outer,rfl⟩,obeys,higher⟩ := fits
    exact sound.keeps _ (by rw [now]; rfl) ⟨obeys,⟨outer,rfl⟩,higher⟩
  | leaves l rest now =>
    rw [now] at fits
    exact sound.keeps _ (by rw [now]; rfl) fits.2
  | releases l rest owner now released => exact sound.releases now released

theorem Sound.stepped (sound : Sound rule s) {label : ι × Nat} (ran : step bracket s label = some s') : Sound rule s' :=
  sound.moves (step_moves ran)

/-- A thread waits for the one that has the lock it is to take next. -/
def Waits (s : State ι L A σ) (t u : ι) : Prop :=
  u ≠ t ∧ ∃ l body rest n, s.thread t = .code (.locked l body)::rest ∧ s.owner l = some (u,n)

def CanStep (bracket : Bracket ι L σ) (s : State ι L A σ) (t : ι) : Prop :=
  ∃ n s', step bracket s (t,n) = some s'

/-- A thread that has not finished can go on, but for a lock that another thread has. -/
theorem Sound.goes_or_waits (bracket : Bracket ι L σ) (sound : Sound rule s) (unfinished : s.thread t ≠ []) :
    CanStep bracket s t ∨ ∃ l body rest u, s.thread t = .code (.locked l body)::rest ∧ u ≠ t ∧
      s.owner l = some (u,1) := by
  cases now : s.thread t with
  | nil => exact absurd now unfinished
  | cons instr rest =>
    cases instr with
    | code c =>
      cases c with
      | locked l body =>
        cases owned : s.owner l with
        | none =>
          refine .inl ⟨0,{ s.goes t (.enter l body::.release l::rest) with
            owner := Function.update s.owner l (some (t,1)) },?_⟩
          simp only [step,now,acquire,owned]
          rfl
        | some owner =>
          obtain ⟨u,n⟩ := owner
          cases sound.once l u n owned
          refine .inr ⟨l,body,rest,u,rfl,?_,owned⟩
          -- the locks that the thread has rank below the one it takes
          intro same
          subst same
          have fits := sound.fits u
          rw [now] at fits
          have member := (sound.owned l u).mp owned
          rw [now] at member
          exact not_held fits.1.1 member
      | skip => exact .inl ⟨0,_,by simp only [step,now]; rfl⟩
      | act a => exact .inl ⟨0,_,by simp only [step,now]; rfl⟩
      | seq first second => exact .inl ⟨0,_,by simp only [step,now]; rfl⟩
      | pick branch => exact .inl ⟨0,_,by simp only [step,now]; rfl⟩
      | many body => exact .inl ⟨0,_,by simp only [step,now]; rfl⟩
    | enter l body => exact .inl ⟨0,_,by simp only [step,now]; rfl⟩
    | leave l => exact .inl ⟨0,_,by simp only [step,now]; rfl⟩
    | release l =>
      have owned : s.owner l = some (t,1) := (sound.owned l t).mpr (by rw [now]; exact List.mem_cons_self)
      refine .inl ⟨0,{ s.goes t rest with owner := Function.update s.owner l none },?_⟩
      simp only [step,now,release_owned owned]
      rfl

/-- A thread that has not finished can go on, or waits, perhaps through others, for one that can. -/
theorem Sound.no_deadlock (bracket : Bracket ι L σ) (sound : Sound rule s) {top : Nat} (bounded : ∀ l, rule.rank l < top)
    (unfinished : s.thread t ≠ []) : ∃ u, Relation.ReflTransGen (Waits s) t u ∧ CanStep bracket s u := by
  -- the locks waited for along the way rank higher and higher
  have from_rank (k : Nat) : ∀ u l body rest, top-rule.rank l ≤ k → s.thread u = .code (.locked l body)::rest →
      ∃ v, Relation.ReflTransGen (Waits s) u v ∧ CanStep bracket s v := by
    induction k with
    | zero =>
      intro u l body rest most now
      have below := bounded l
      omega
    | succ k ih =>
      intro u l body rest most now
      obtain goes | ⟨l',body',rest',v,now',apart,owned⟩ :=
        sound.goes_or_waits bracket (by rw [now]; exact List.cons_ne_nil _ _)
      · exact ⟨u,.refl,goes⟩
      · have waits : Waits s u v := ⟨apart,l',body',rest',1,now',owned⟩
        obtain goes | ⟨l'',body'',rest'',w,now'',_,_⟩ :=
          sound.goes_or_waits bracket (sound.unfinished owned)
        · exact ⟨v,.single waits,goes⟩
        · have fits := sound.fits v
          have member := (sound.owned l' v).mp owned
          rw [now''] at fits member
          have higher : rule.rank l' < rule.rank l'' := fits.1.1 l' member
          rw [now] at now'
          cases now'
          have below := bounded l''
          obtain ⟨x,through,goes⟩ := ih v l'' body'' rest'' (by omega) now''
          exact ⟨x,.head waits through,goes⟩
  obtain goes | ⟨l,body,rest,u,now,_,_⟩ := sound.goes_or_waits bracket unfinished
  · exact ⟨t,.refl,goes⟩
  · exact from_rank _ t l body rest (Nat.le_refl _) now

end Runs

end Foundation.Locking
