import MojoImpl.NodeController

/-! The core of core.cc with its handle table and its two kinds of dispatchers. A handle
owns its dispatcher, so the table holds the dispatchers themselves. As below, a result of
`none` is a null dereference or the end of a channel, and the names of new ports and nodes
are arguments. -/
namespace MojoImpl
open Foundation MojoImpl.Ports

abbrev MojoHandle := UInt64

def MOJO_HANDLE_INVALID : MojoHandle := 0

inductive MojoResult
  | ok
  | invalidArgument
  | notFound
  | alreadyExists
  | resourceExhausted
  deriving DecidableEq, Repr

inductive Dispatcher
  | invitation (attachedPorts : PortMap)
  | messagePipe (port : PortRef)

structure Core where
  controller : NodeController
  handles : Table MojoHandle Dispatcher
  nextAvailableHandle : MojoHandle

namespace Core

def create (name : NodeName) : Core := ⟨.create name,∅,1⟩

def getDispatcher (s : Core) (handle : MojoHandle) : Option Dispatcher := s.handles.lookup handle

/-- The counter has come round when it is the invalid handle. -/
def addDispatcher (s : Core) (dispatcher : Dispatcher) : MojoHandle × Core :=
  if s.nextAvailableHandle = MOJO_HANDLE_INVALID then (MOJO_HANDLE_INVALID,s)
  else
    let handle := s.nextAvailableHandle
    let s := { s with nextAvailableHandle := handle+1 }
    match s.handles.lookup handle with
    | some _ => (MOJO_HANDLE_INVALID,s)
    | none => (handle,{ s with handles := s.handles.insert handle dispatcher })

def withNode (s : Core) (node : Node) : Core := { s with controller := { s.controller with node } }

/-- `attached_ports_` of the invitation behind a handle. -/
def setAttachedPorts (s : Core) (handle : MojoHandle) (attachedPorts : PortMap) : Core :=
  { s with handles := s.handles.insert handle (.invitation attachedPorts) }

section MessagePipes

def createPartialMessagePipe (s : Core) (name0 name1 : PortName) :
    Option (MojoHandle × PortRef × Core) := do
  let (_,localPort,peer,node) ← s.controller.node.createPortPair name0 name1
  let (handle,s) := (s.withNode node).addDispatcher (.messagePipe localPort)
  return (handle,peer,s)

/-- Sending a message has no result: the function it ends in does not return one. -/
def writeMessage (s : Core) (handle : MojoHandle) (data : List UInt8) :
    Option (Option MojoResult × Core) :=
  match s.getDispatcher handle with
  | some (.messagePipe port) => do
    let controller ← s.controller.sendUserMessage port { UserMessage.create with data }
    return (none,{ s with controller })
  | _ => some (some .invalidArgument,s)

/-- The message, when the queue had one. -/
def readMessage (s : Core) (handle : MojoHandle) : Option (MojoResult × Option UserMessage × Core) :=
  match s.getDispatcher handle with
  | some (.messagePipe port) => do
    let (message,controller) ← s.controller.getUserMessage port
    return (.ok,message,{ s with controller })
  | _ => some (.invalidArgument,none,s)

end MessagePipes

section Invitations

def createInvitation (s : Core) : MojoResult × MojoHandle × Core :=
  let (handle,s) := s.addDispatcher (.invitation ∅)
  (if handle = MOJO_HANDLE_INVALID then .resourceExhausted else .ok,handle,s)

/-- `InvitationDispatcher::AttachMessagePipe`. -/
def attachMessagePipe (attachedPorts : PortMap) (name : List UInt8) (remotePeerPort : PortRef) :
    MojoResult × PortMap :=
  match attachedPorts.lookup name with
  | some _ => (.alreadyExists,attachedPorts)
  | none => (.ok,attachedPorts.insert name remotePeerPort)

/-- The handle is what is stored through `message_pipe_handle`, if anything is. -/
def attachMessagePipeToInvitation (s : Core) (invitationHandle : MojoHandle) (name : List UInt8)
    (name0 name1 : PortName) : Option (MojoResult × Option MojoHandle × Core) :=
  match s.getDispatcher invitationHandle with
  | some (.invitation attachedPorts) => do
    let (localHandle,remotePeerPort,s) ← s.createPartialMessagePipe name0 name1
    if localHandle = MOJO_HANDLE_INVALID then return (.resourceExhausted,none,s)
    match attachMessagePipe attachedPorts name remotePeerPort with
    | (.ok,attachedPorts) =>
      return (.ok,some localHandle,s.setAttachedPorts invitationHandle attachedPorts)
    | (r,attachedPorts) => return (r,none,s.setAttachedPorts invitationHandle attachedPorts)
  | _ => some (.invalidArgument,none,s)

/-- `InvitationDispatcher::ExtractMessagePipe`. The reference is out of the map also when
no handle is left for it. -/
def extractMessagePipe (s : Core) (invitationHandle : MojoHandle) (attachedPorts : PortMap)
    (name : List UInt8) : MojoResult × MojoHandle × Core :=
  match attachedPorts.lookup name with
  | none => (.notFound,MOJO_HANDLE_INVALID,s)
  | some remotePeerPort =>
    let s := s.setAttachedPorts invitationHandle (attachedPorts.erase name)
    let (handle,s) := s.addDispatcher (.messagePipe remotePeerPort)
    (if handle = MOJO_HANDLE_INVALID then .resourceExhausted else .ok,handle,s)

/-- The private overload of `ExtractMessagePipeFromInvitation`, which asks the inviter. -/
def extractMessagePipeFromInviter (s : Core) (name : List UInt8) (name0 name1 : PortName) :
    Option (MojoHandle × Core) := do
  let (_,port0,_,node) ← s.controller.node.createPortPair name0 name1
  let (handle,s) := (s.withNode node).addDispatcher (.messagePipe port0)
  return (handle,{ s with controller := s.controller.mergePortIntoInviter name port0 })

def extractMessagePipeFromInvitation (s : Core) (invitationHandle : MojoHandle) (name : List UInt8)
    (name0 name1 : PortName) : Option (MojoResult × MojoHandle × Core) :=
  match s.getDispatcher invitationHandle with
  | some (.invitation attachedPorts) =>
    match s.extractMessagePipe invitationHandle attachedPorts name with
    | (.ok,handle,s) => some (.ok,handle,s)
    | (_,_,s) => do
      let (handle,s) ← s.extractMessagePipeFromInviter name name0 name1
      return (if handle = MOJO_HANDLE_INVALID then .resourceExhausted else .ok,handle,s)
  | _ => some (.invalidArgument,MOJO_HANDLE_INVALID,s)

def sendInvitation (s : Core) (invitationHandle : MojoHandle) (tempNodeName : NodeName) :
    Option (MojoResult × Core) :=
  match s.getDispatcher invitationHandle with
  | some (.invitation attachedPorts) => do
    let s := s.setAttachedPorts invitationHandle ∅
    let controller ← s.controller.sendInvitation tempNodeName
      (attachedPorts.entries.map fun entry => (entry.1,entry.2))
    return (.ok,{ s with controller })
  | _ => some (.invalidArgument,s)

def acceptInvitation (s : Core) : Option (MojoResult × MojoHandle × Core) :=
  let (handle,s) := s.addDispatcher (.invitation ∅)
  if handle = MOJO_HANDLE_INVALID then some (.resourceExhausted,handle,s)
  else do
    let controller ← s.controller.acceptInvitation
    return (.ok,handle,{ s with controller })

theorem sendInvitation_ran {s : Core} {invitationHandle : MojoHandle} {tempNodeName : NodeName}
    {r : MojoResult × Core} (ran : s.sendInvitation invitationHandle tempNodeName = some r) :
    (∃ attachedPorts, s.getDispatcher invitationHandle = some (.invitation attachedPorts) ∧
      r = (.ok,{ s.setAttachedPorts invitationHandle ∅ with
        controller := s.controller.invite tempNodeName
          (attachedPorts.entries.map fun entry => (entry.1,entry.2)) })) ∨ r = (.invalidArgument,s) := by
  unfold sendInvitation at ran
  split at ran
  · next attachedPorts found =>
    obtain ⟨controller,sent,same⟩ := Option.bind_eq_some_iff.mp ran
    cases same
    cases NodeController.sendInvitation_ran sent
    exact .inl ⟨attachedPorts,found,rfl⟩
  · cases ran
    exact .inr rfl

theorem acceptInvitation_ran {s : Core} {r : MojoResult × MojoHandle × Core} (ran : s.acceptInvitation = some r) :
    (s.addDispatcher (.invitation ∅)).1 = r.2.1 ∧
      ((r.2.1 = MOJO_HANDLE_INVALID ∧ r.2.2 = (s.addDispatcher (.invitation ∅)).2) ∨
        (r.2.1 ≠ MOJO_HANDLE_INVALID ∧ r.2.2 = { (s.addDispatcher (.invitation ∅)).2 with
          controller := (s.addDispatcher (.invitation ∅)).2.controller.awaitInviter })) := by
  unfold acceptInvitation at ran
  dsimp only at ran
  split at ran
  · next invalid =>
    cases ran
    exact ⟨rfl,.inl ⟨invalid,rfl⟩⟩
  · next valid =>
    obtain ⟨controller,accepted,same⟩ := Option.bind_eq_some_iff.mp ran
    cases same
    cases NodeController.acceptInvitation_ran accepted
    exact ⟨rfl,.inr ⟨valid,rfl⟩⟩

end Invitations

end Core

end MojoImpl
