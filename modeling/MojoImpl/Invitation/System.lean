import MojoImpl.Core

/-! Two nodes and an invitation between them. Every call of a core and every message
handler is one step; messages travel in order in each direction. Beside its core each party
has the answers its calls have given so far. -/
namespace MojoImpl.Invitation
open Foundation MojoImpl.Ports

inductive Side
  | inviter
  | invitee
  deriving DecidableEq, Repr

def Side.other : Side → Side
  | .inviter => .invitee
  | .invitee => .inviter

structure Request where
  name : List UInt8
  port : PortName
  handle : MojoHandle
  deriving DecidableEq, Repr

/-- `attached` has the handle of the latest attachment under a name, `written` and `read`
the messages of the pipes, the latter with the port they were read from. -/
structure Party where
  core : Core
  attached : MojoHandle → List UInt8 → Option MojoHandle
  requests : List Request
  written : List UserMessage
  read : List (PortName × UserMessage)

inductive Call
  | createInvitation
  | attach (invitation : MojoHandle) (name : List UInt8) (name0 name1 : PortName)
  | extract (invitation : MojoHandle) (name : List UInt8) (name0 name1 : PortName)
  | write (handle : MojoHandle) (data : List UInt8)
  | read (handle : MojoHandle)
  deriving DecidableEq, Repr

/-- The names a call generates if it makes ports. -/
def Call.names : Call → List Name
  | .attach _ _ name0 name1 => [name0,name1]
  | .extract _ _ name0 name1 => [name0,name1]
  | _ => []

namespace Party

def start (name : NodeName) : Party := ⟨.create name,fun _ _ => none,[],[],[]⟩

def node (p : Party) : Node := p.core.controller.node

def portOf (p : Party) (handle : MojoHandle) : Option PortRef :=
  match p.core.getDispatcher handle with
  | some (.messagePipe port) => some port
  | _ => none

/-- An extraction goes to the inviter when the invitation does not answer it. -/
def asks (p : Party) (invitation : MojoHandle) (name : List UInt8) : Bool :=
  match p.core.getDispatcher invitation with
  | some (.invitation attachedPorts) =>
    (p.core.extractMessagePipe invitation attachedPorts name).1 ≠ .ok
  | _ => false

/-- The message a write sends, with the names of both ports, and the node of the peer. -/
def addressed (p : Party) (handle : MojoHandle) (data : List UInt8) : Option (NodeName × UserMessage) := do
  let port ← p.portOf handle
  p.node.sendUserMessage port { UserMessage.create with data }

def record (attached : MojoHandle → List UInt8 → Option MojoHandle) (invitation : MojoHandle)
    (name : List UInt8) : Option MojoHandle → MojoHandle → List UInt8 → Option MojoHandle
  | none => attached
  | some handle =>
    Function.update attached invitation (Function.update (attached invitation) name (some handle))

def call (p : Party) : Call → Option Party
  | .createInvitation => some { p with core := p.core.createInvitation.2.2 }
  | .attach invitation name name0 name1 => do
    let (_,handle,core) ← p.core.attachMessagePipeToInvitation invitation name name0 name1
    return { p with core, attached := record p.attached invitation name handle }
  | .extract invitation name name0 name1 => do
    let (_,handle,core) ← p.core.extractMessagePipeFromInvitation invitation name name0 name1
    return { p with
      core
      requests := if p.asks invitation name then p.requests ++ [⟨name,name0,handle⟩] else p.requests }
  | .write handle data => do
    let (_,core) ← p.core.writeMessage handle data
    return { p with core, written := p.written ++ ((p.addressed handle data).map Prod.snd).toList }
  | .read handle => do
    let (_,message,core) ← p.core.readMessage handle
    let port := ((p.portOf handle).map PortRef.name).getD kInvalidPortName
    return { p with core, read := p.read ++ message.toList.map (port,·) }

def inFlight (p : Party) : List Message := (p.core.controller.channels 0).written

def withInFlight (p : Party) (messages : List Message) : Party :=
  { p with core := { p.core with controller := { p.core.controller with
    channels := Function.update p.core.controller.channels 0
      { p.core.controller.channels 0 with written := messages } } } }

def withController (p : Party) (controller : NodeController) : Party :=
  { p with core := { p.core with controller } }

/-- The party once it has sent an invitation. -/
def invite (p : Party) (invitation : MojoHandle) (attachedPorts : PortMap) (tempNodeName : NodeName) : Party :=
  { p with core := { p.core.setAttachedPorts invitation ∅ with
    controller := p.core.controller.invite tempNodeName
      (attachedPorts.entries.map fun entry => (entry.1,entry.2)) } }

/-- The handler of a message, which comes from the name the channel has. -/
def receive (p : Party) (message : Message) : Option Party := do
  let controller ← p.core.controller.onMessage (p.core.controller.channels 0).remoteNodeName message
  return p.withController controller

end Party

/-- `used` has the names generated so far, `offers` the handles of the names that were
attached when the invitation was sent. -/
structure System where
  party : Side → Party
  used : List Name
  offers : List UInt8 → Option MojoHandle

inductive Action
  | call (side : Side) (call : Call)
  | sendInvitation (invitation : MojoHandle) (tempNodeName : NodeName)
  | acceptInvitation
  | deliver (sender : Side)
  deriving DecidableEq, Repr

def Fresh (used names : List Name) : Prop :=
  names.Nodup ∧ ∀ name ∈ names, name ≠ ⟨0,0⟩ ∧ name ∉ used

instance (used names : List Name) : Decidable (Fresh used names) :=
  inferInstanceAs (Decidable (_ ∧ _))

namespace System

def start (inviter invitee : NodeName) : System where
  party
    | .inviter => .start inviter
    | .invitee => .start invitee
  used := [inviter,invitee]
  offers := fun _ => none

def setParty (s : System) (side : Side) (p : Party) : System :=
  { s with party := Function.update s.party side p }

/-- The names of a call are used up when it has made ports. -/
def stepCall (s : System) (side : Side) (call : Call) : Option System :=
  if Fresh s.used call.names then do
    let p ← (s.party side).call call
    return { s.setParty side p with
      used := if p.node.allocated = (s.party side).node.allocated then s.used
        else call.names ++ s.used }
  else none

def stepSendInvitation (s : System) (invitation : MojoHandle) (tempNodeName : NodeName) :
    Option System :=
  let p := s.party .inviter
  match p.core.getDispatcher invitation with
  | some (.invitation attachedPorts) =>
    if Fresh s.used [tempNodeName] ∧ p.core.controller.created = 0 then do
      let (_,core) ← p.core.sendInvitation invitation tempNodeName
      return { s.setParty .inviter { p with core } with
        used := tempNodeName::s.used
        offers := fun name => (attachedPorts.lookup name).map fun _ =>
          (p.attached invitation name).getD MOJO_HANDLE_INVALID }
    else none
  | _ => none

def stepAcceptInvitation (s : System) : Option System :=
  let p := s.party .invitee
  if p.core.controller.created = 0 then do
    let (_,_,core) ← p.core.acceptInvitation
    return s.setParty .invitee { p with core }
  else none

/-- A party receives on its channel, so once it has made one. -/
def stepDeliver (s : System) (sender : Side) : Option System :=
  match (s.party sender).inFlight with
  | [] => none
  | message::rest =>
    if 0 < (s.party sender.other).core.controller.created then do
      let p ← (s.party sender.other).receive message
      return (s.setParty sender ((s.party sender).withInFlight rest)).setParty sender.other p
    else none

/-- There is no next state when the action is not possible, or ends the process. -/
def step (s : System) : Action → Option System
  | .call side call => s.stepCall side call
  | .sendInvitation invitation tempNodeName => s.stepSendInvitation invitation tempNodeName
  | .acceptInvitation => s.stepAcceptInvitation
  | .deliver sender => s.stepDeliver sender

def run (s : System) (actions : List Action) : Option System := actions.foldlM step s

theorem stepSendInvitation_ran {s t : System} {invitation : MojoHandle} {tempNodeName : NodeName}
    (ran : s.stepSendInvitation invitation tempNodeName = some t) :
    ∃ m, (s.party .inviter).core.getDispatcher invitation = some (.invitation m) ∧
      Fresh s.used [tempNodeName] ∧ (s.party .inviter).core.controller.created = 0 ∧
      t = { s.setParty .inviter ((s.party .inviter).invite invitation m tempNodeName) with
        used := tempNodeName::s.used
        offers := fun name => (m.lookup name).map fun _ =>
          ((s.party .inviter).attached invitation name).getD MOJO_HANDLE_INVALID } := by
  unfold stepSendInvitation at ran
  dsimp only at ran
  split at ran
  · next m found =>
    split at ran
    · next may =>
      obtain ⟨r,sent,same⟩ := Option.bind_eq_some_iff.mp ran
      cases same
      obtain ⟨m',found',rfl⟩ | rfl := Core.sendInvitation_ran sent
      · cases found.symm.trans found'
        exact ⟨m,found,may.1,may.2,rfl⟩
      · unfold Core.sendInvitation at sent
        rw [found] at sent
        obtain ⟨_,_,same⟩ := Option.bind_eq_some_iff.mp sent
        cases same
    · contradiction
  · contradiction

theorem stepAcceptInvitation_ran {s t : System} (ran : s.stepAcceptInvitation = some t) :
    (s.party .invitee).core.controller.created = 0 ∧
      ∃ r, (s.party .invitee).core.acceptInvitation = some r ∧
        t = s.setParty .invitee { s.party .invitee with core := r.2.2 } := by
  unfold stepAcceptInvitation at ran
  dsimp only at ran
  split at ran
  · next new =>
    obtain ⟨r,accepted,same⟩ := Option.bind_eq_some_iff.mp ran
    cases same
    exact ⟨new,r,accepted,rfl⟩
  · contradiction

end System

/-- The states of runs all of whose actions are allowed where they are taken. -/
inductive Reachable (inviter invitee : NodeName) (allowed : System → Action → Prop) : System → Prop
  | start : Reachable inviter invitee allowed (.start inviter invitee)
  | step (s t : System) (action : Action) (before : Reachable inviter invitee allowed s)
      (may : allowed s action) (ran : s.step action = some t) : Reachable inviter invitee allowed t

/-- A view of the state a run ends in, read off the run. -/
theorem run_fact {α : Type} {o : Option System} {s : System} (ran : o = some s) (view : System → α)
    {value : α} (fact : o.map view = some value) : view s = value := by
  rw [ran] at fact
  exact Option.some.inj fact

theorem reachable_run {inviter invitee : NodeName} {allowed : System → Action → Prop}
    {actions : List Action} (may : ∀ action ∈ actions, ∀ s, allowed s action) {s t : System}
    (reached : Reachable inviter invitee allowed s) (ran : s.run actions = some t) :
    Reachable inviter invitee allowed t := by
  induction actions generalizing s with
  | nil =>
    cases ran
    exact reached
  | cons action actions ih =>
    obtain ⟨u,first,rest⟩ := Option.bind_eq_some_iff.mp ran
    apply ih (fun a member => may a (List.mem_cons_of_mem _ member)) _ rest
    exact .step s u action reached (may action List.mem_cons_self s) first

end MojoImpl.Invitation
