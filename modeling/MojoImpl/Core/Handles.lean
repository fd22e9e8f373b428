import MojoImpl.Core

/-! The handle table of handle_table.cc over any type of dispatchers, and what its handles
mean in a run of calls that may pass the wrap of the counter. -/
namespace MojoImpl
open Foundation

structure HandleTable (δ : Type) where
  handles : Table MojoHandle δ
  nextAvailableHandle : MojoHandle

namespace HandleTable
variable {δ : Type}

def create : HandleTable δ := ⟨∅,1⟩

def addDispatcher (t : HandleTable δ) (dispatcher : δ) : MojoHandle × HandleTable δ :=
  if t.nextAvailableHandle = MOJO_HANDLE_INVALID then (MOJO_HANDLE_INVALID,t)
  else
    let handle := t.nextAvailableHandle
    let t := { t with nextAvailableHandle := handle+1 }
    match t.handles.lookup handle with
    | some _ => (MOJO_HANDLE_INVALID,t)
    | none => (handle,{ t with handles := t.handles.insert handle dispatcher })

def getDispatcher (t : HandleTable δ) (handle : MojoHandle) : Option δ := t.handles.lookup handle

section Calls

inductive Call (δ : Type)
  | addDispatcher (dispatcher : δ)
  | getDispatcher (handle : MojoHandle)

/-- A call with what it returned. -/
inductive Event (δ : Type)
  | added (dispatcher : δ) (handle : MojoHandle)
  | got (handle : MojoHandle) (dispatcher : Option δ)

def call (t : HandleTable δ) : Call δ → Event δ × HandleTable δ
  | .addDispatcher dispatcher =>
    let (handle,t) := t.addDispatcher dispatcher
    (.added dispatcher handle,t)
  | .getDispatcher handle => (.got handle (t.getDispatcher handle),t)

def run (t : HandleTable δ) : List (Call δ) → List (Event δ) × HandleTable δ
  | [] => ([],t)
  | c::calls =>
    let (event,t) := t.call c
    let (events,t) := t.run calls
    (event::events,t)

/-- The valid handles of `events` with their dispatchers, in the order they were returned. -/
def issued (events : List (Event δ)) : List (MojoHandle × δ) :=
  events.filterMap fun
    | .added dispatcher handle => if handle = MOJO_HANDLE_INVALID then none else some (handle,dispatcher)
    | .got _ _ => none

theorem mem_issued {events : List (Event δ)} {handle : MojoHandle} {dispatcher : δ} :
    (handle,dispatcher) ∈ issued events ↔ handle ≠ MOJO_HANDLE_INVALID ∧ .added dispatcher handle ∈ events := by
  unfold issued
  rw [List.mem_filterMap]
  constructor
  · rintro ⟨event,member,valid⟩
    cases event with
    | got _ _ => cases valid
    | added d h =>
      dsimp only at valid
      split at valid
      · cases valid
      · next real =>
        cases valid
        exact ⟨real,member⟩
  · rintro ⟨real,member⟩
    exact ⟨_,member,if_neg real⟩

theorem run_append (t : HandleTable δ) (earlier later : List (Call δ)) :
    t.run (earlier++later) =
      ((t.run earlier).1 ++ ((t.run earlier).2.run later).1,((t.run earlier).2.run later).2) := by
  induction earlier generalizing t with
  | nil => rfl
  | cons c earlier ih =>
    simp only [List.cons_append,run,ih]

theorem run_split {t : HandleTable δ} {calls : List (Call δ)} {before after : List (Event δ)}
    {event : Event δ} (split : (t.run calls).1 = before ++ event::after) :
    ∃ earlier c later, calls = earlier ++ c::later ∧ (t.run earlier).1 = before ∧
      ((t.run earlier).2.call c).1 = event ∧ ((((t.run earlier).2.call c).2).run later).1 = after := by
  induction calls generalizing t before with
  | nil => simp [run] at split
  | cons c calls ih =>
    cases before with
    | nil =>
      obtain ⟨head,tail⟩ := List.cons.inj split
      exact ⟨[],c,calls,rfl,rfl,head,tail⟩
    | cons first before =>
      obtain ⟨head,tail⟩ := List.cons.inj split
      obtain ⟨earlier,c',later,parts,begun,answered,rest⟩ := ih tail
      exact ⟨c::earlier,c',later,by rw [parts]; rfl,by rw [← head,← begun]; rfl,answered,rest⟩

end Calls

section Invariant

/-- After `events` the handles issued are `1`, `2` and so on in this order, the counter is at
the one after them, and the map holds the dispatcher of each. -/
structure Issued (t : HandleTable δ) (events : List (Event δ)) : Prop where
  counted : (issued events).map (fun entry => entry.1.toNat) = List.range' 1 (issued events).length
  bounded : (issued events).length < 2^64
  next : t.nextAvailableHandle = UInt64.ofNat ((issued events).length+1)
  stored : ∀ handle dispatcher, t.getDispatcher handle = some dispatcher ↔ (handle,dispatcher) ∈ issued events
  spent : ∀ dispatcher, .added dispatcher MOJO_HANDLE_INVALID ∈ events → (issued events).length+1 = 2^64

theorem issued_create : Issued (create (δ := δ)) [] :=
  ⟨rfl,Nat.two_pow_pos 64,rfl,fun handle dispatcher => by simp [getDispatcher,create,issued],by simp⟩

variable {t : HandleTable δ} {events : List (Event δ)}

theorem Issued.next_toNat (inv : t.Issued events) (room : (issued events).length+1 < 2^64) :
    t.nextAvailableHandle.toNat = (issued events).length+1 := by
  rw [inv.next,UInt64.toNat_ofNat',Nat.mod_eq_of_lt room]

theorem Issued.next_invalid (inv : t.Issued events) :
    t.nextAvailableHandle = MOJO_HANDLE_INVALID ↔ (issued events).length+1 = 2^64 := by
  have bounded := inv.bounded
  constructor
  · intro invalid
    by_contra left
    have counter := inv.next_toNat (by omega)
    rw [invalid] at counter
    exact absurd counter (by simp [MOJO_HANDLE_INVALID])
  · intro full
    rw [inv.next,full]
    rfl

theorem Issued.next_valid (inv : t.Issued events) (room : (issued events).length+1 < 2^64) :
    t.nextAvailableHandle ≠ MOJO_HANDLE_INVALID := by
  intro invalid
  have full := inv.next_invalid.mp invalid
  omega

theorem Issued.next_new (inv : t.Issued events) (room : (issued events).length+1 < 2^64) :
    t.handles.lookup t.nextAvailableHandle = none := by
  cases found : t.handles.lookup t.nextAvailableHandle with
  | none => rfl
  | some dispatcher =>
    have member := (inv.stored _ _).mp found
    have counted : t.nextAvailableHandle.toNat ∈ List.range' 1 (issued events).length := by
      rw [← inv.counted]
      exact List.mem_map.mpr ⟨_,member,rfl⟩
    rw [inv.next_toNat room,List.mem_range'_1] at counted
    omega

theorem Issued.exhausted (inv : t.Issued events) (full : (issued events).length+1 = 2^64) (dispatcher : δ) :
    t.addDispatcher dispatcher = (MOJO_HANDLE_INVALID,t) := by
  rw [addDispatcher,if_pos (inv.next_invalid.mpr full)]

theorem Issued.room (inv : t.Issued events) (room : (issued events).length+1 < 2^64) (dispatcher : δ) :
    t.addDispatcher dispatcher = (t.nextAvailableHandle,
      ⟨t.handles.insert t.nextAvailableHandle dispatcher,t.nextAvailableHandle+1⟩) := by
  simp only [addDispatcher,inv.next_valid room,if_false,inv.next_new room]

theorem Issued.issued_exhausted (inv : t.Issued events) (full : (issued events).length+1 = 2^64) (dispatcher : δ) :
    issued (events ++ [.added dispatcher (t.addDispatcher dispatcher).1]) = issued events := by
  rw [inv.exhausted full]
  simp [issued,List.filterMap_append]

theorem Issued.issued_room (inv : t.Issued events) (room : (issued events).length+1 < 2^64) (dispatcher : δ) :
    issued (events ++ [.added dispatcher (t.addDispatcher dispatcher).1]) =
      issued events ++ [(t.nextAvailableHandle,dispatcher)] := by
  rw [inv.room room]
  simp [issued,List.filterMap_append,inv.next_valid room]

theorem Issued.got (inv : t.Issued events) (handle : MojoHandle) (dispatcher : Option δ) :
    t.Issued (events ++ [.got handle dispatcher]) := by
  have same : issued (events ++ [.got handle dispatcher]) = issued events := by
    simp [issued,List.filterMap_append]
  refine ⟨by rw [same]; exact inv.counted,by rw [same]; exact inv.bounded,by rw [same]; exact inv.next,
    by rw [same]; exact inv.stored,fun d member => ?_⟩
  rw [same]
  exact inv.spent d (by simpa using member)

theorem Issued.added (inv : t.Issued events) (dispatcher : δ) :
    (t.addDispatcher dispatcher).2.Issued (events ++ [.added dispatcher (t.addDispatcher dispatcher).1]) := by
  have bounded := inv.bounded
  by_cases full : (issued events).length+1 = 2^64
  · have same := inv.issued_exhausted full dispatcher
    rw [inv.exhausted full dispatcher] at same ⊢
    refine ⟨by rw [same]; exact inv.counted,by rw [same]; exact inv.bounded,by rw [same]; exact inv.next,
      by rw [same]; exact inv.stored,fun d member => ?_⟩
    rw [same]
    exact full
  · have room : (issued events).length+1 < 2^64 := by omega
    have counter := inv.next_toNat room
    have valid := inv.next_valid room
    have more := inv.issued_room room dispatcher
    rw [inv.room room dispatcher] at more ⊢
    constructor
    · rw [more,List.map_append,inv.counted,List.length_append,List.length_singleton,List.range'_concat]
      simp [counter,Nat.add_comm]
    · rw [more,List.length_append]
      exact room
    · rw [more,List.length_append]
      dsimp only
      rw [inv.next]
      exact (UInt64.ofNat_add _ _).symm
    · intro handle d
      rw [more,List.mem_append,List.mem_singleton,← inv.stored handle d]
      dsimp only [getDispatcher]
      rw [Table.lookup_insert]
      split
      · next here =>
        subst here
        rw [inv.next_new room]
        simp [eq_comm]
      · next elsewhere => simp [elsewhere]
    · intro d member
      have earlier : .added d MOJO_HANDLE_INVALID ∈ events := by
        rcases List.mem_append.mp member with old | new
        · exact old
        · simp only [List.mem_singleton,Event.added.injEq] at new
          exact absurd new.2.symm valid
      exact absurd (inv.spent d earlier) full

theorem Issued.call (inv : t.Issued events) (c : Call δ) :
    (t.call c).2.Issued (events ++ [(t.call c).1]) := by
  cases c with
  | addDispatcher dispatcher => exact inv.added dispatcher
  | getDispatcher handle => exact inv.got handle _

theorem Issued.run (inv : t.Issued events) (calls : List (Call δ)) :
    (t.run calls).2.Issued (events ++ (t.run calls).1) := by
  induction calls generalizing t events with
  | nil =>
    rw [HandleTable.run,List.append_nil]
    exact inv
  | cons c calls ih =>
    have rest := ih (inv.call c)
    rw [List.append_assoc] at rest
    exact rest

theorem issued_run (calls : List (Call δ)) : ((create (δ := δ)).run calls).2.Issued (create.run calls).1 :=
  issued_create.run calls

end Invariant

section Stable

theorem Issued.nodup {t : HandleTable δ} {events : List (Event δ)} (inv : t.Issued events) :
    ((issued events).map Prod.fst).Nodup := by
  have counted : (((issued events).map Prod.fst).map UInt64.toNat).Nodup := by
    rw [List.map_map]
    exact inv.counted ▸ List.nodup_range'
  exact counted.of_map _

/-- A call that returns the invalid handle finds the counter spent, and so does every later one. -/
theorem Issued.stuck {t : HandleTable δ} {events : List (Event δ)} (inv : t.Issued events)
    (full : (issued events).length+1 = 2^64) (calls : List (Call δ)) :
    (t.run calls).2 = t ∧ ∀ dispatcher handle, .added dispatcher handle ∈ (t.run calls).1 → handle = MOJO_HANDLE_INVALID := by
  induction calls with
  | nil => exact ⟨rfl,by simp [HandleTable.run]⟩
  | cons c calls ih =>
    cases c with
    | addDispatcher dispatcher =>
      simp only [HandleTable.run,HandleTable.call,inv.exhausted full dispatcher]
      refine ⟨ih.1,fun d handle member => ?_⟩
      rcases List.mem_cons.mp member with here | later
      · cases here
        rfl
      · exact ih.2 d handle later
    | getDispatcher handle =>
      simp only [HandleTable.run,HandleTable.call]
      refine ⟨ih.1,fun d handle' member => ?_⟩
      rcases List.mem_cons.mp member with here | later
      · cases here
      · exact ih.2 d handle' later

def dispatchers (calls : List (Call δ)) : List δ :=
  calls.filterMap fun
    | .addDispatcher dispatcher => some dispatcher
    | .getDispatcher _ => none

theorem Issued.dispatchers {t : HandleTable δ} {events : List (Event δ)} (inv : t.Issued events)
    (calls : List (Call δ)) : (issued (events ++ (t.run calls).1)).map Prod.snd =
      ((issued events).map Prod.snd ++ dispatchers calls).take (2^64-1) := by
  induction calls generalizing t events with
  | nil =>
    have bounded := inv.bounded
    have nothing : HandleTable.dispatchers ([] : List (Call δ)) = [] := rfl
    rw [HandleTable.run,List.append_nil,nothing,List.append_nil,List.take_of_length_le]
    rw [List.length_map]
    omega
  | cons c calls ih =>
    have rest := ih (inv.call c)
    rw [List.append_assoc] at rest
    refine rest.trans ?_
    cases c with
    | getDispatcher handle =>
      have same : issued (events ++ [(t.call (.getDispatcher handle)).1]) = issued events := by
        simp [issued,List.filterMap_append,HandleTable.call]
      rw [same]
      rfl
    | addDispatcher dispatcher =>
      have added : (t.call (.addDispatcher dispatcher)).1 = .added dispatcher (t.addDispatcher dispatcher).1 := rfl
      have first : HandleTable.dispatchers (.addDispatcher dispatcher :: calls) =
          dispatcher :: HandleTable.dispatchers calls := rfl
      rw [added,first]
      by_cases full : (issued events).length+1 = 2^64
      · have length : ((issued events).map Prod.snd).length = 2^64-1 := by
          rw [List.length_map]
          omega
        rw [inv.issued_exhausted full,List.take_left' length,List.take_left' length]
      · have bounded := inv.bounded
        rw [inv.issued_room (by omega),List.map_append,List.append_assoc]
        rfl

/-- The valid handles that a run returns are `1`, `2` and so on, for the dispatchers in the
order they are added, until each of the `2^64-1` has been returned. -/
theorem run_issued (calls : List (Call δ)) :
    (issued (create.run calls).1).map Prod.snd = (dispatchers calls).take (2^64-1) ∧
      (issued (create.run calls).1).map (fun entry => entry.1.toNat) =
        List.range' 1 ((dispatchers calls).take (2^64-1)).length := by
  have added : (issued (create.run calls).1).map Prod.snd = (dispatchers calls).take (2^64-1) :=
    issued_create.dispatchers calls
  refine ⟨added,?_⟩
  rw [← added,List.length_map]
  exact (issued_run calls).counted

/-- In every run the valid handles returned are distinct, a read returns the dispatcher its
handle was returned for before, if any, and once no handle is left the table stays as it is. -/
theorem run_handles (calls : List (Call δ)) :
    ((issued (create.run calls).1).map Prod.fst).Nodup ∧
    (∀ before handle dispatcher after, (create.run calls).1 = before ++ .got handle dispatcher :: after →
      (∀ d, .added d handle ∈ before → handle ≠ MOJO_HANDLE_INVALID → dispatcher = some d) ∧
      ((∀ d, .added d handle ∉ before) → dispatcher = none)) ∧
    (∀ handle, (∀ d, .added d handle ∈ (create.run calls).1 → handle ≠ MOJO_HANDLE_INVALID →
        (create.run calls).2.getDispatcher handle = some d) ∧
      ((∀ d, .added d handle ∉ (create.run calls).1) → (create.run calls).2.getDispatcher handle = none)) ∧
    (∀ earlier dispatcher later, calls = earlier ++ .addDispatcher dispatcher :: later →
      ((create.run earlier).2.addDispatcher dispatcher).1 = MOJO_HANDLE_INVALID →
      (create.run calls).2 = (create.run earlier).2 ∧
        ∀ d handle, .added d handle ∈ (((create.run earlier).2.addDispatcher dispatcher).2.run later).1 →
          handle = MOJO_HANDLE_INVALID) := by
  have answers (t : HandleTable δ) (events : List (Event δ)) (inv : t.Issued events) (handle : MojoHandle) :
      (∀ d, .added d handle ∈ events → handle ≠ MOJO_HANDLE_INVALID → t.getDispatcher handle = some d) ∧
        ((∀ d, .added d handle ∉ events) → t.getDispatcher handle = none) := by
    refine ⟨fun d member valid => (inv.stored handle d).mpr (mem_issued.mpr ⟨valid,member⟩),fun never => ?_⟩
    cases found : t.getDispatcher handle with
    | none => rfl
    | some d => exact absurd (mem_issued.mp ((inv.stored handle d).mp found)).2 (never d)
  refine ⟨(issued_run calls).nodup,?_,answers _ _ (issued_run calls),?_⟩
  · intro before handle dispatcher after split
    obtain ⟨earlier,c,later,rfl,begun,answered,-⟩ := run_split split
    have inv := issued_run (δ := δ) earlier
    rw [begun] at inv
    cases c with
    | addDispatcher d => cases answered
    | getDispatcher h =>
      cases answered
      exact answers _ _ inv handle
  · rintro earlier dispatcher later rfl invalid
    have inv := issued_run (δ := δ) earlier
    have full : (issued (create.run earlier).1).length+1 = 2^64 := by
      by_contra left
      have bounded := inv.bounded
      rw [inv.room (by omega) dispatcher] at invalid
      exact left (inv.next_invalid.mp invalid)
    have same : ((create.run earlier).2.run (.addDispatcher dispatcher :: later)).2 =
        ((create.run earlier).2.run later).2 := by
      simp only [run,call,inv.exhausted full dispatcher]
    rw [run_append,inv.exhausted full dispatcher]
    exact ⟨same.trans (inv.stuck full later).1,(inv.stuck full later).2⟩

end Stable

end HandleTable

namespace Core

/-- The `handles_` of a core. -/
def handleTable (s : Core) : HandleTable Dispatcher := ⟨s.handles,s.nextAvailableHandle⟩

theorem addDispatcher_handleTable (s : Core) (dispatcher : Dispatcher) :
    ((s.addDispatcher dispatcher).1,(s.addDispatcher dispatcher).2.handleTable) =
      s.handleTable.addDispatcher dispatcher := by
  by_cases spent : s.nextAvailableHandle = MOJO_HANDLE_INVALID
  · simp only [addDispatcher,HandleTable.addDispatcher,handleTable,spent,if_true]
  · simp only [addDispatcher,HandleTable.addDispatcher,handleTable,spent,if_false]
    cases s.handles.lookup s.nextAvailableHandle <;> rfl

theorem create_handleTable (name : NodeName) : (create name).handleTable = .create := rfl

end Core

end MojoImpl
