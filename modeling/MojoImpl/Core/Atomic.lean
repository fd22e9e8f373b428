import MojoImpl.Core
import MojoImpl.Ports.Atomic

/-! What the two invitation calls leave behind when they do not return `MOJO_RESULT_OK`. -/
namespace MojoImpl.Core
open Foundation MojoImpl.Ports

/-- The dispatchers behind the handles, attached ports among them, the node and the
requests for the inviter are those of `s`. -/
structure Unchanged (s t : Core) : Prop where
  handles : ∀ handle, t.getDispatcher handle = s.getDispatcher handle
  node : Node.Unchanged s.controller.node t.controller.node
  merges : t.controller.pendingPortMerges = s.controller.pendingPortMerges

theorem Unchanged.refl (s : Core) : Unchanged s s := ⟨fun _ => rfl,.refl _,rfl⟩

section Handles
variable {s : Core}

/-- `AddDispatcher` has no handle to give: the counter is spent, or at a handle in use. -/
def Full (s : Core) : Prop :=
  s.nextAvailableHandle = MOJO_HANDLE_INVALID ∨ s.getDispatcher s.nextAvailableHandle ≠ none

/-- A handle in use is passed over by the call that fails on it. -/
def skipped (s : Core) : Core :=
  if s.nextAvailableHandle = MOJO_HANDLE_INVALID then s
  else { s with nextAvailableHandle := s.nextAvailableHandle+1 }

@[simp] theorem skipped_controller (s : Core) : s.skipped.controller = s.controller := by
  unfold skipped
  split <;> rfl

@[simp] theorem skipped_getDispatcher (s : Core) (handle : MojoHandle) :
    s.skipped.getDispatcher handle = s.getDispatcher handle := by
  unfold skipped
  split <;> rfl

theorem addDispatcher_full (full : s.Full) (d : Dispatcher) :
    s.addDispatcher d = (MOJO_HANDLE_INVALID,s.skipped) := by
  unfold addDispatcher skipped
  split
  · rfl
  · next left =>
    obtain ⟨held,found⟩ := Option.ne_none_iff_exists'.mp (full.resolve_left left)
    simp only [show s.handles.lookup s.nextAvailableHandle = some held from found]

theorem addDispatcher_room (room : ¬s.Full) (d : Dispatcher) :
    ∃ handle t, s.addDispatcher d = (handle,t) ∧ handle ≠ MOJO_HANDLE_INVALID ∧
      s.getDispatcher handle = none ∧ t.getDispatcher handle = some d := by
  obtain ⟨left,free⟩ := not_or.mp room
  have free := not_not.mp free
  refine ⟨s.nextAvailableHandle,
    ⟨s.controller,s.handles.insert s.nextAvailableHandle d,s.nextAvailableHandle+1⟩,?_,left,free,AList.lookup_insert _⟩
  simp only [addDispatcher,left,if_false,show s.handles.lookup s.nextAvailableHandle = none from free]

theorem setAttachedPorts_getDispatcher (s : Core) (handle handle' : MojoHandle) (attachedPorts : PortMap) :
    (s.setAttachedPorts handle attachedPorts).getDispatcher handle' =
      if handle' = handle then some (.invitation attachedPorts) else s.getDispatcher handle' :=
  Table.lookup_insert ..

theorem setAttachedPorts_full {handle : MojoHandle} (there : s.getDispatcher handle ≠ none)
    (attachedPorts : PortMap) : (s.setAttachedPorts handle attachedPorts).Full ↔ s.Full := by
  unfold Full
  rw [setAttachedPorts_getDispatcher]
  refine or_congr_right ?_
  change (if s.nextAvailableHandle = handle then _ else s.getDispatcher s.nextAvailableHandle) ≠ none ↔ _
  split
  · next same => rw [same]; exact ⟨fun _ => there,fun _ => Option.some_ne_none _⟩
  · rfl

theorem setAttachedPorts_skipped (s : Core) (handle : MojoHandle) (attachedPorts : PortMap) :
    (s.setAttachedPorts handle attachedPorts).skipped = s.skipped.setAttachedPorts handle attachedPorts := by
  unfold skipped
  change (if s.nextAvailableHandle = MOJO_HANDLE_INVALID then _ else _) = _
  split <;> rfl

end Handles

section Pairs
variable {s : Core}

/-- Only a first name in use keeps the node as it was. -/
theorem createPortPair_unchanged (n : Node) (name0 name1 : PortName) :
    ∃ r port0 port1 t, n.createPortPair name0 name1 = some (r,port0,port1,t) ∧
      (Node.Unchanged n t ↔ n.ports.lookup name0 ≠ none) := by
  obtain ⟨r,port0,port1,t,ran,cases⟩ := Node.createPortPair_cases n name0 name1
  refine ⟨r,port0,port1,t,ran,?_⟩
  rcases cases with ⟨known,_,same⟩ | ⟨unknown,added,_⟩
  · exact ⟨fun _ => known,fun _ => same⟩
  · exact ⟨fun same => absurd ((same.ports name0).trans unknown) added,fun known => absurd unknown known⟩

theorem createPartialMessagePipe_full (full : s.Full) (name0 name1 : PortName) :
    ∃ peer t, s.createPartialMessagePipe name0 name1 = some (MOJO_HANDLE_INVALID,peer,t) ∧
      (Unchanged s t ↔ s.controller.node.ports.lookup name0 ≠ none) := by
  obtain ⟨r,port0,port1,node,ran,same⟩ := createPortPair_unchanged s.controller.node name0 name1
  have full : (s.withNode node).Full := full
  refine ⟨port1,(s.withNode node).skipped,?_,?_⟩
  · simp only [createPartialMessagePipe,ran,Option.bind_eq_bind,Option.bind_some,addDispatcher_full full,Option.pure_def]
  · rw [← same]
    refine ⟨fun same => ?_,fun same => ⟨fun handle => skipped_getDispatcher _ handle,?_,?_⟩⟩
    · have kept := same.node
      rwa [skipped_controller] at kept
    · rwa [skipped_controller]
    · rw [skipped_controller]
      rfl

theorem createPartialMessagePipe_room (room : ¬s.Full) (name0 name1 : PortName) :
    ∃ handle peer t, s.createPartialMessagePipe name0 name1 = some (handle,peer,t) ∧
      handle ≠ MOJO_HANDLE_INVALID ∧ s.getDispatcher handle = none ∧ t.getDispatcher handle ≠ none := by
  obtain ⟨r,port0,port1,node,ran,_⟩ := createPortPair_unchanged s.controller.node name0 name1
  have room : ¬(s.withNode node).Full := room
  obtain ⟨handle,t,added,valid,free,held⟩ := addDispatcher_room room (.messagePipe port0)
  refine ⟨handle,port1,t,?_,valid,free,?_⟩
  · simp only [createPartialMessagePipe,ran,Option.bind_eq_bind,Option.bind_some,added,Option.pure_def]
  · rw [held]
    exact Option.some_ne_none _

theorem mergePortIntoInviter_merges (c : NodeController) (name : List UInt8) (port : PortRef) :
    (c.mergePortIntoInviter name port).node = c.node ∧
      ((c.mergePortIntoInviter name port).pendingPortMerges = c.pendingPortMerges ↔
        c.getInviterChannel ≠ none) := by
  unfold NodeController.mergePortIntoInviter
  cases c.getInviterChannel with
  | none => exact ⟨rfl,fun same => by simp at same,fun some => absurd rfl some⟩
  | some inviter => exact ⟨rfl,fun _ => Option.some_ne_none _,fun _ => rfl⟩

theorem extractMessagePipeFromInviter_full (full : s.Full) (name : List UInt8) (name0 name1 : PortName) :
    ∃ t, s.extractMessagePipeFromInviter name name0 name1 = some (MOJO_HANDLE_INVALID,t) ∧
      (∀ handle, t.getDispatcher handle = s.getDispatcher handle) ∧
      (Unchanged s t ↔ s.controller.node.ports.lookup name0 ≠ none ∧ s.controller.getInviterChannel ≠ none) := by
  obtain ⟨r,port0,port1,node,ran,same⟩ := createPortPair_unchanged s.controller.node name0 name1
  have full : (s.withNode node).Full := full
  obtain ⟨kept,merges⟩ := mergePortIntoInviter_merges (s.withNode node).controller name port0
  let t : Core := { (s.withNode node).skipped with
    controller := (s.withNode node).controller.mergePortIntoInviter name port0 }
  have handles (handle) : t.getDispatcher handle = s.getDispatcher handle := skipped_getDispatcher _ handle
  refine ⟨t,?_,handles,?_⟩
  · simp only [extractMessagePipeFromInviter,ran,Option.bind_eq_bind,Option.bind_some,addDispatcher_full full,
      Option.pure_def,skipped_controller,t]
  · rw [← same]
    have there : t.controller.node = node := kept
    constructor
    · intro unchanged
      exact ⟨there ▸ unchanged.node,merges.mp unchanged.merges⟩
    · intro unchanged
      exact ⟨handles,there.symm ▸ unchanged.1,merges.mpr unchanged.2⟩

theorem extractMessagePipeFromInviter_room (room : ¬s.Full) (name : List UInt8) (name0 name1 : PortName) :
    ∃ handle t, s.extractMessagePipeFromInviter name name0 name1 = some (handle,t) ∧ handle ≠ MOJO_HANDLE_INVALID := by
  obtain ⟨r,port0,port1,node,ran,_⟩ := createPortPair_unchanged s.controller.node name0 name1
  have room : ¬(s.withNode node).Full := room
  obtain ⟨handle,t,added,valid,_⟩ := addDispatcher_room room (.messagePipe port0)
  refine ⟨handle,{ t with controller := t.controller.mergePortIntoInviter name port0 },?_,valid⟩
  simp only [extractMessagePipeFromInviter,ran,Option.bind_eq_bind,Option.bind_some,added,Option.pure_def]

end Pairs

section Calls

inductive InvitationCall
  | attachMessagePipeToInvitation
  | extractMessagePipeFromInvitation

def invitationCall (s : Core) (invitationHandle : MojoHandle) (name : List UInt8) (name0 name1 : PortName) :
    InvitationCall → Option (MojoResult × Core)
  | .attachMessagePipeToInvitation => do
    let (r,_,s) ← s.attachMessagePipeToInvitation invitationHandle name name0 name1
    return (r,s)
  | .extractMessagePipeFromInvitation => do
    let (r,_,s) ← s.extractMessagePipeFromInvitation invitationHandle name name0 name1
    return (r,s)

/-- The call returns, and with another result than `MOJO_RESULT_OK` it has changed nothing. -/
def AtomicAt (s : Core) (invitationHandle : MojoHandle) (name : List UInt8) (name0 name1 : PortName)
    (call : InvitationCall) : Prop :=
  ∃ r t, s.invitationCall invitationHandle name name0 name1 call = some (r,t) ∧ (r ≠ .ok → Unchanged s t)

/-- The call does not fail after it has made a port or given up an attached one. With no
handle left, the pair is only refused when its first name is in use, and the request only
leaves no trace when there is an inviter to send it to. -/
def Harmless (s : Core) (invitationHandle : MojoHandle) (name : List UInt8) (name0 : PortName) :
    InvitationCall → Prop
  | .attachMessagePipeToInvitation => ∀ attachedPorts,
    s.getDispatcher invitationHandle = some (.invitation attachedPorts) →
      (¬s.Full ∧ attachedPorts.lookup name = none) ∨ (s.Full ∧ s.controller.node.ports.lookup name0 ≠ none)
  | .extractMessagePipeFromInvitation => ∀ attachedPorts,
    s.getDispatcher invitationHandle = some (.invitation attachedPorts) → ¬s.Full ∨
      (attachedPorts.lookup name ≠ none ∧ ¬s.skipped.Full) ∨
      (attachedPorts.lookup name = none ∧ s.controller.node.ports.lookup name0 ≠ none ∧
        s.controller.getInviterChannel ≠ none)

variable {s : Core} {invitationHandle : MojoHandle} {name : List UInt8} {name0 name1 : PortName}

theorem atomicAt_some {call : InvitationCall} {r : MojoResult} {t : Core}
    (ran : s.invitationCall invitationHandle name name0 name1 call = some (r,t)) :
    s.AtomicAt invitationHandle name name0 name1 call ↔ (r ≠ .ok → Unchanged s t) := by
  refine ⟨fun ⟨r',t',ran',unchanged⟩ => ?_,fun unchanged => ⟨r,t,ran,unchanged⟩⟩
  cases ran.symm.trans ran'
  exact unchanged

theorem atomicAt_ok {call : InvitationCall} {t : Core}
    (ran : s.invitationCall invitationHandle name name0 name1 call = some (.ok,t)) :
    s.AtomicAt invitationHandle name name0 name1 call :=
  (atomicAt_some ran).mpr fun error => absurd rfl error

theorem attach_atomic {attachedPorts : PortMap}
    (found : s.getDispatcher invitationHandle = some (.invitation attachedPorts)) :
    s.AtomicAt invitationHandle name name0 name1 .attachMessagePipeToInvitation ↔
      (¬s.Full ∧ attachedPorts.lookup name = none) ∨ (s.Full ∧ s.controller.node.ports.lookup name0 ≠ none) := by
  by_cases full : s.Full
  · obtain ⟨peer,t,made,same⟩ := createPartialMessagePipe_full full name0 name1
    have ran : s.invitationCall invitationHandle name name0 name1 .attachMessagePipeToInvitation =
        some (.resourceExhausted,t) := by
      simp [invitationCall,attachMessagePipeToInvitation,found,made]
    rw [atomicAt_some ran,← same]
    exact ⟨fun atomic => .inr ⟨full,atomic (fun same => nomatch same)⟩,
      fun either _ => (either.resolve_left fun room => room.1 full).2⟩
  · obtain ⟨handle,peer,t,made,valid,free,added⟩ := createPartialMessagePipe_room full name0 name1
    cases known : attachedPorts.lookup name with
    | none =>
      have ran : s.invitationCall invitationHandle name name0 name1 .attachMessagePipeToInvitation =
          some (.ok,t.setAttachedPorts invitationHandle (attachedPorts.insert name peer)) := by
        simp [invitationCall,attachMessagePipeToInvitation,found,made,valid,attachMessagePipe,known]
      exact iff_of_true (atomicAt_ok ran) (.inl ⟨full,rfl⟩)
    | some old =>
      have ran : s.invitationCall invitationHandle name name0 name1 .attachMessagePipeToInvitation =
          some (.alreadyExists,t.setAttachedPorts invitationHandle attachedPorts) := by
        simp [invitationCall,attachMessagePipeToInvitation,found,made,valid,attachMessagePipe,known]
      rw [atomicAt_some ran]
      constructor
      · intro atomic
        -- the handle of the new pipe is not given back
        have kept := (atomic (fun same => nomatch same)).handles handle
        have other : handle ≠ invitationHandle := fun same => nomatch (same ▸ free).symm.trans found
        rw [setAttachedPorts_getDispatcher,if_neg other,free] at kept
        exact absurd kept added
      · intro either
        rcases either with ⟨_,unknown⟩ | ⟨spent,_⟩
        · exact nomatch unknown
        · exact absurd spent full

theorem extract_unattached {attachedPorts : PortMap}
    (found : s.getDispatcher invitationHandle = some (.invitation attachedPorts))
    (unknown : attachedPorts.lookup name = none) :
    s.AtomicAt invitationHandle name name0 name1 .extractMessagePipeFromInvitation ↔
      ¬s.Full ∨ (s.controller.node.ports.lookup name0 ≠ none ∧ s.controller.getInviterChannel ≠ none) := by
  by_cases full : s.Full
  · obtain ⟨t,asked,_,same⟩ := extractMessagePipeFromInviter_full full name name0 name1
    have ran : s.invitationCall invitationHandle name name0 name1 .extractMessagePipeFromInvitation =
        some (.resourceExhausted,t) := by
      simp [invitationCall,extractMessagePipeFromInvitation,found,extractMessagePipe,unknown,asked]
    rw [atomicAt_some ran,← same]
    exact ⟨fun atomic => .inr (atomic (fun same => nomatch same)),fun either _ => either.resolve_left (not_not_intro full)⟩
  · obtain ⟨handle,t,asked,valid⟩ := extractMessagePipeFromInviter_room full name name0 name1
    have ran : s.invitationCall invitationHandle name name0 name1 .extractMessagePipeFromInvitation =
        some (.ok,t) := by
      simp [invitationCall,extractMessagePipeFromInvitation,found,extractMessagePipe,unknown,asked,valid]
    exact iff_of_true (atomicAt_ok ran) (.inl full)

/-- A port that is attached is given up before there is a handle for it, and is not put
back when there is none. -/
theorem extract_attached {attachedPorts : PortMap}
    (found : s.getDispatcher invitationHandle = some (.invitation attachedPorts))
    (known : attachedPorts.lookup name ≠ none) :
    s.AtomicAt invitationHandle name name0 name1 .extractMessagePipeFromInvitation ↔ ¬s.Full ∨ ¬s.skipped.Full := by
  obtain ⟨port,attached⟩ := Option.ne_none_iff_exists'.mp known
  let given := s.setAttachedPorts invitationHandle (attachedPorts.erase name)
  have there : s.getDispatcher invitationHandle ≠ none := by rw [found]; exact Option.some_ne_none _
  have same : given.Full ↔ s.Full := setAttachedPorts_full there _
  by_cases full : s.Full
  · have refused := addDispatcher_full (same.mpr full) (.messagePipe port)
    have again : given.skipped.Full ↔ s.skipped.Full := by
      rw [setAttachedPorts_skipped]
      exact setAttachedPorts_full (by rwa [skipped_getDispatcher]) _
    by_cases spent : s.skipped.Full
    · obtain ⟨t,asked,handles,_⟩ := extractMessagePipeFromInviter_full (again.mpr spent) name name0 name1
      have ran : s.invitationCall invitationHandle name name0 name1 .extractMessagePipeFromInvitation =
          some (.resourceExhausted,t) := by
        simp [invitationCall,extractMessagePipeFromInvitation,found,extractMessagePipe,attached,given,refused,asked]
      rw [atomicAt_some ran]
      constructor
      · intro atomic
        have kept := (atomic (fun same => nomatch same)).handles invitationHandle
        rw [handles,skipped_getDispatcher,setAttachedPorts_getDispatcher,if_pos rfl,found] at kept
        have erased : attachedPorts.erase name = attachedPorts := Dispatcher.invitation.inj (Option.some.inj kept)
        have lost := Table.lookup_erase attachedPorts name name
        rw [erased,if_pos rfl] at lost
        exact absurd lost known
      · intro either _
        exact absurd either (not_or.mpr ⟨not_not_intro full,not_not_intro spent⟩)
    · obtain ⟨handle,t,asked,valid⟩ := extractMessagePipeFromInviter_room (mt again.mp spent) name name0 name1
      have ran : s.invitationCall invitationHandle name name0 name1 .extractMessagePipeFromInvitation =
          some (.ok,t) := by
        simp [invitationCall,extractMessagePipeFromInvitation,found,extractMessagePipe,attached,given,refused,asked,valid]
      exact iff_of_true (atomicAt_ok ran) (.inr spent)
  · obtain ⟨handle,t,added,valid,_⟩ := addDispatcher_room (mt same.mp full) (.messagePipe port)
    have ran : s.invitationCall invitationHandle name name0 name1 .extractMessagePipeFromInvitation =
        some (.ok,t) := by
      simp [invitationCall,extractMessagePipeFromInvitation,found,extractMessagePipe,attached,given,added,valid]
    exact iff_of_true (atomicAt_ok ran) (.inl full)

/-- A handle that is no invitation is found out before anything is done. -/
theorem other_atomic (other : ∀ attachedPorts, s.getDispatcher invitationHandle ≠ some (.invitation attachedPorts))
    (call : InvitationCall) : s.AtomicAt invitationHandle name name0 name1 call := by
  have ran : s.invitationCall invitationHandle name name0 name1 call = some (.invalidArgument,s) := by
    cases call with
    | attachMessagePipeToInvitation =>
      simp only [invitationCall,attachMessagePipeToInvitation]
      rfl
    | extractMessagePipeFromInvitation =>
      simp only [invitationCall,extractMessagePipeFromInvitation]
      rfl
  rw [atomicAt_some ran]
  exact fun _ => .refl s

theorem invitationCall_atomicAt (s : Core) (invitationHandle : MojoHandle) (name : List UInt8)
    (name0 name1 : PortName) (call : InvitationCall) :
    s.AtomicAt invitationHandle name name0 name1 call ↔ s.Harmless invitationHandle name name0 call := by
  by_cases invitation : ∃ attachedPorts, s.getDispatcher invitationHandle = some (.invitation attachedPorts)
  · obtain ⟨attachedPorts,found⟩ := invitation
    have only (P : PortMap → Prop) : (∀ attachedPorts,
        s.getDispatcher invitationHandle = some (.invitation attachedPorts) → P attachedPorts) ↔ P attachedPorts :=
      ⟨fun all => all _ found,fun here other found' => by cases found.symm.trans found'; exact here⟩
    cases call with
    | attachMessagePipeToInvitation =>
      refine .trans ?_ (only _).symm
      exact attach_atomic found
    | extractMessagePipeFromInvitation =>
      refine .trans ?_ (only _).symm
      by_cases known : attachedPorts.lookup name = none
      · rw [extract_unattached found known]
        simp only [known,ne_eq,not_true_eq_false,false_and,true_and,false_or]
      · rw [extract_attached found known]
        simp only [known,ne_eq,not_false_eq_true,false_and,true_and,or_false]
  · have other := not_exists.mp invitation
    refine ⟨fun _ => ?_,fun _ => other_atomic other call⟩
    cases call with
    | attachMessagePipeToInvitation => exact fun _ found => absurd found (other _)
    | extractMessagePipeFromInvitation => exact fun _ found => absurd found (other _)

/-- A name attached for the second time leaves a handle that nobody was told of. -/
theorem not_atomicAt_attachedTwice : ¬∀ (s : Core) (invitationHandle : MojoHandle) (name : List UInt8)
    (name0 name1 : PortName) (call : InvitationCall), s.AtomicAt invitationHandle name name0 name1 call := by
  have attached : ∃ s attachedPorts, (((create ⟨9,9⟩).createInvitation.2.2.attachMessagePipeToInvitation 1 [97]
      ⟨1,1⟩ ⟨2,2⟩).map (·.2.2)) = some s ∧ s.getDispatcher 1 = some (.invitation attachedPorts) ∧
      attachedPorts.lookup [97] ≠ none ∧ s.controller.node.ports.lookup ⟨3,3⟩ = none :=
    ⟨_,_,rfl,rfl,by decide,by decide⟩
  obtain ⟨s,attachedPorts,_,found,known,unknown⟩ := attached
  intro atomic
  rcases (attach_atomic found).mp (atomic s 1 [97] ⟨3,3⟩ ⟨4,4⟩ .attachMessagePipeToInvitation) with unattached | spent
  · exact known unattached.2
  · exact spent.2 unknown

end Calls

end MojoImpl.Core
