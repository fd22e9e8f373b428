import MojoImpl.Ports.Node

/-! The node controller of node_controller.cc: peers, invitations and port merges. A
result of `none` is the dereference of a null pointer, or the end of the process when a
channel goes. A channel is what has been passed to its `Write`, as messages; the node and
token names it generates are arguments. -/
namespace MojoImpl
open Foundation MojoImpl.Ports

abbrev ChannelPtr := Nat

/-- A `NodeChannel` object: the name it reports its messages from, and the messages it
has been given to send. -/
structure ChannelObject where
  remoteNodeName : NodeName
  written : List Message
  deriving DecidableEq, Repr

abbrev PortMap := Table (List UInt8) PortRef

/-- A call of the node, with the port that is passed to it. -/
inductive Handed
  | mergePorts (port : PortRef)
  | closePort (port : PortRef)
  deriving DecidableEq, Repr

def Handed.merged : Handed → Option PortRef
  | .mergePorts port => some port
  | .closePort _ => none

def Handed.closed : Handed → Option PortRef
  | .closePort port => some port
  | .mergePorts _ => none

/-- `channels` holds the channel objects made so far, below `created`. `handed` records the
calls of `MergePorts` and `ClosePort`, and no function reads it. -/
structure NodeController where
  name : NodeName
  node : Node
  inviterName : NodeName
  inviterChannel : Option ChannelPtr
  peers : Table NodeName ChannelPtr
  pendingPeerMessages : Table NodeName (List Message)
  reservedPorts : Table NodeName PortMap
  pendingPortMerges : List (List UInt8 × PortRef)
  pendingInvitations : Table NodeName ChannelPtr
  channels : ChannelPtr → ChannelObject
  created : Nat
  handed : List Handed

namespace NodeController

def create (name : NodeName) : NodeController where
  name := name
  node := .create name
  inviterName := kInvalidNodeName
  inviterChannel := none
  peers := ∅
  pendingPeerMessages := ∅
  reservedPorts := ∅
  pendingPortMerges := []
  pendingInvitations := ∅
  channels := fun _ => ⟨kInvalidNodeName,[]⟩
  created := 0
  handed := []

section Channels

/-- The channels that the fields of the controller point to. -/
def owners (s : NodeController) : List ChannelPtr :=
  s.inviterChannel.toList ++ s.peers.entries.map Sigma.snd ++ s.pendingInvitations.entries.map Sigma.snd

/-- A pointer to a channel goes. If it was the last one so does the channel, which is still
open: then `~Channel` calls the pure virtual `ShutdownImpl`. -/
def release (s : NodeController) : Option ChannelPtr → Option NodeController
  | none => some s
  | some c => if c ∈ s.owners then some s else none

def createChannel (s : NodeController) : ChannelPtr × NodeController :=
  (s.created,{ s with
    channels := Function.update s.channels s.created ⟨kInvalidNodeName,[]⟩
    created := s.created+1 })

def setRemoteNodeName (s : NodeController) (c : ChannelPtr) (name : NodeName) : NodeController :=
  { s with channels := Function.update s.channels c { s.channels c with remoteNodeName := name } }

/-- `SendChannelMessage`, and the calls that wrap one message in a protocol for it. -/
def sendChannelMessage (s : NodeController) (c : ChannelPtr) (message : Message) : NodeController :=
  { s with
    channels := Function.update s.channels c
      { s.channels c with written := (s.channels c).written ++ [message] } }

def getPeerChannel (s : NodeController) (name : NodeName) : Option ChannelPtr := s.peers.lookup name

def getInviterChannel (s : NodeController) : Option ChannelPtr := s.getPeerChannel s.inviterName

end Channels

section Peers

/-- The remote name is set before the name is looked up among the peers. -/
def addPeer (s : NodeController) (name : NodeName) (channel : ChannelPtr) : NodeController :=
  let s := s.setRemoteNodeName channel name
  match s.peers.lookup name with
  | some _ => s
  | none =>
    let s := { s with peers := s.peers.insert name channel }
    match s.pendingPeerMessages.lookup name with
    | none => s
    | some pendingMessages =>
      pendingMessages.foldl (fun s message => s.sendChannelMessage channel message)
        { s with pendingPeerMessages := s.pendingPeerMessages.erase name }

def closePort (s : NodeController) (port : PortRef) : Option NodeController := do
  let node ← s.node.closePort port
  return { s with node, handed := s.handed ++ [.closePort port] }

/-- The end of `DropPeer`: the ports reserved for the peer are closed. -/
def closeReserved (s : NodeController) (name : NodeName) : Option NodeController :=
  match s.reservedPorts.lookup name with
  | none => some s
  | some portMap =>
    (portMap.entries.map Sigma.snd).foldlM closePort { s with reservedPorts := s.reservedPorts.erase name }

def dropPeer (s : NodeController) (name : NodeName) : Option NodeController := do
  let s ← { s with peers := s.peers.erase name }.release (s.peers.lookup name)
  let s ← { s with
    pendingPeerMessages := s.pendingPeerMessages.erase name
    pendingInvitations := s.pendingInvitations.erase name }.release (s.pendingInvitations.lookup name)
  s.closeReserved name

end Peers

section Invitations

def reserve (attachedPorts : List (List UInt8 × PortRef)) (portMap : PortMap) : PortMap :=
  attachedPorts.foldl (fun portMap (name,port) => Table.emplace portMap name port) portMap

/-- `SendInvitation` up to its return. -/
def invite (s : NodeController) (tempNodeName : NodeName) (attachedPorts : List (List UInt8 × PortRef)) :
    NodeController :=
  let s := { s with
    reservedPorts := Table.modify s.reservedPorts tempNodeName ∅ (reserve attachedPorts) }
  let (channel,s) := s.createChannel
  let s := { s with pendingInvitations := Table.emplace s.pendingInvitations tempNodeName channel }
  (s.setRemoteNodeName channel tempNodeName).sendChannelMessage channel
    (.acceptInvitee ⟨tempNodeName,s.name⟩)

/-- On return the pointer in the variable `channel` goes. -/
def sendInvitation (s : NodeController) (tempNodeName : NodeName)
    (attachedPorts : List (List UInt8 × PortRef)) : Option NodeController :=
  (s.invite tempNodeName attachedPorts).release (some s.created)

def awaitInviter (s : NodeController) : NodeController :=
  let (channel,s) := s.createChannel
  { s with inviterName := kInvalidNodeName, inviterChannel := some channel }

/-- The new pointer in `inviter_channel_` replaces the one that was there. -/
def acceptInvitation (s : NodeController) : Option NodeController :=
  s.awaitInviter.release s.inviterChannel

def mergePortIntoInviter (s : NodeController) (name : List UInt8) (port : PortRef) :
    NodeController :=
  match s.getInviterChannel with
  | none => { s with pendingPortMerges := s.pendingPortMerges ++ [(name,port)] }
  | some inviter => s.sendChannelMessage inviter (.requestPortMerge ⟨port.name,name⟩)

def requestPendingMerge (s : NodeController) (request : List UInt8 × PortRef) :
    Option NodeController := do
  let inviter ← s.getInviterChannel
  return s.sendChannelMessage inviter (.requestPortMerge ⟨request.2.name,request.1⟩)

def handlePendingMergePort (s : NodeController) : Option NodeController :=
  s.pendingPortMerges.foldlM requestPendingMerge { s with pendingPortMerges := [] }

end Invitations

section Events

def sendPeerEvent (s : NodeController) (node : NodeName) (message : UserMessage) : NodeController :=
  match s.getPeerChannel node with
  | some channel => s.sendChannelMessage channel (.userMessage message)
  | none =>
    { s with
      pendingPeerMessages := Table.modify s.pendingPeerMessages node [] (· ++ [.userMessage message]) }

/-- An event for the node itself goes nowhere. -/
def forwardEvent (s : NodeController) (node : NodeName) (message : UserMessage) : NodeController :=
  if node = s.name then s else s.sendPeerEvent node message

def sendUserMessage (s : NodeController) (port : PortRef) (message : UserMessage) :
    Option NodeController := do
  let (node,message) ← s.node.sendUserMessage port message
  return s.forwardEvent node message

def getUserMessage (s : NodeController) (port : PortRef) :
    Option (Option UserMessage × NodeController) := do
  let (message,node) ← s.node.getMessage port
  return (message,{ s with node })

end Events

section Handlers

def onAcceptInvitee (s : NodeController) (inviterName token : NodeName) : Option NodeController := do
  let s := { s with inviterName }
  let inviterChannel ← s.inviterChannel
  let s := s.setRemoteNodeName inviterChannel inviterName
  let s := s.sendChannelMessage inviterChannel (.acceptInvitation ⟨token,s.name⟩)
  (s.addPeer inviterName inviterChannel).handlePendingMergePort

/-- The reservations of the temporary name move to the real one, unless that has some. -/
def renameReserved (reserved : Table NodeName PortMap) (fromNode inviteeName : NodeName) :
    Table NodeName PortMap :=
  match reserved.lookup fromNode with
  | none => reserved
  | some portMap => (Table.emplace reserved inviteeName portMap).erase fromNode

/-- The pointer in the variable `channel` goes after `AddPeer`, which may not have kept it. -/
def onAcceptInvitation (s : NodeController) (fromNode token inviteeName : NodeName) :
    Option NodeController :=
  match s.pendingInvitations.lookup fromNode with
  | none => s.dropPeer fromNode
  | some channel =>
    if token ≠ fromNode then s.dropPeer fromNode
    else
      ({ s with
        reservedPorts := renameReserved s.reservedPorts fromNode inviteeName
        pendingInvitations := s.pendingInvitations.erase fromNode }.addPeer inviteeName channel).release
        (some channel)

/-- The port reserved for a node under a name. -/
def reservedFor (reserved : Table NodeName PortMap) (node : NodeName) (name : List UInt8) : Option PortRef := do
  let portMap ← reserved.lookup node
  portMap.lookup name

/-- The reserved port of a request, and the reservations without it. -/
def takeReserved (reserved : Table NodeName PortMap) (fromNode : NodeName) (messagePipeName : List UInt8) :
    Option (PortRef × Table NodeName PortMap) := do
  let portMap ← reserved.lookup fromNode
  let localPort ← portMap.lookup messagePipeName
  let portMap := portMap.erase messagePipeName
  return (localPort,if portMap.entries.isEmpty then reserved.erase fromNode
    else reserved.insert fromNode portMap)

/-- The result is the name that `MergePorts` stores through `local_port_name`. -/
def mergePorts (s : NodeController) (port : PortRef) (destinationNodeName : NodeName)
    (destinationPortName : PortName) : Option (PortName × NodeController) := do
  let (_,localPortName,node) ← s.node.mergePorts port destinationNodeName destinationPortName
  return (localPortName,{ s with node, handed := s.handed ++ [.mergePorts port] })

def onRequestPortMerge (s : NodeController) (fromNode : NodeName) (connectorPortName : PortName)
    (messagePipeName : List UInt8) : Option NodeController :=
  match takeReserved s.reservedPorts fromNode messagePipeName with
  | none => some s
  | some (localPort,reservedPorts) => do
    let (localPortName,s) ← { s with reservedPorts }.mergePorts localPort fromNode connectorPortName
    let channel ← s.getPeerChannel fromNode
    return s.sendChannelMessage channel (.responsePortMerge ⟨connectorPortName,localPortName⟩)

def onResponsePortMerge (s : NodeController) (fromNode : NodeName)
    (connectorPortName portName : PortName) : Option NodeController := do
  let (_,node) ← s.node.mergePortsResponse connectorPortName fromNode portName
  return { s with node }

def onUserMessage (s : NodeController) (message : UserMessage) : Option NodeController := do
  let node ← s.node.onUserMessage message
  return { s with node }

def onMessage (s : NodeController) (fromNode : NodeName) : Message → Option NodeController
  | .acceptInvitee data => s.onAcceptInvitee data.inviterName data.token
  | .acceptInvitation data => s.onAcceptInvitation fromNode data.token data.inviteeName
  | .requestPortMerge data => s.onRequestPortMerge fromNode data.connectorPortName data.messagePipeName
  | .responsePortMerge data => s.onResponsePortMerge fromNode data.connectorPortName data.portName
  | .userMessage data => s.onUserMessage data
  | .acceptPeer _ => some s

end Handlers

section Sending

/-- Messages sent one after another on one channel. -/
def sendAll (s : NodeController) (c : ChannelPtr) (messages : List Message) : NodeController :=
  { s with
    channels := Function.update s.channels c
      { s.channels c with written := (s.channels c).written ++ messages } }

theorem sendAll_nil (s : NodeController) (c : ChannelPtr) : s.sendAll c [] = s := by
  rw [sendAll,List.append_nil,Function.update_eq_self]

theorem sendAll_cons (s : NodeController) (c : ChannelPtr) (message : Message)
    (messages : List Message) :
    (s.sendChannelMessage c message).sendAll c messages = s.sendAll c (message::messages) := by
  simp only [sendAll,sendChannelMessage,Function.update_self,Function.update_idem,List.append_assoc,
    List.singleton_append]

theorem foldl_sendChannelMessage (s : NodeController) (c : ChannelPtr) (messages : List Message) :
    messages.foldl (fun s message => s.sendChannelMessage c message) s = s.sendAll c messages := by
  induction messages generalizing s with
  | nil => exact (sendAll_nil s c).symm
  | cons message messages ih => rw [List.foldl_cons,ih,sendAll_cons]

/-- The request a pending merge turns into. -/
def mergeRequest (request : List UInt8 × PortRef) : Message :=
  .requestPortMerge ⟨request.2.name,request.1⟩

theorem foldlM_requestPendingMerge {s : NodeController} {c : ChannelPtr}
    (inviter : s.getInviterChannel = some c) (requests : List (List UInt8 × PortRef)) :
    requests.foldlM requestPendingMerge s = some (s.sendAll c (requests.map mergeRequest)) := by
  induction requests generalizing s with
  | nil => exact congrArg some (sendAll_nil s c).symm
  | cons request requests ih =>
    have sent : s.requestPendingMerge request = some (s.sendChannelMessage c (mergeRequest request)) := by
      rw [requestPendingMerge,inviter]
      rfl
    have kept : (s.sendChannelMessage c (mergeRequest request)).getInviterChannel = some c := inviter
    rw [List.foldlM_cons,sent,Option.bind_eq_bind,Option.bind_some,ih kept,sendAll_cons]
    rfl

theorem handlePendingMergePort_sends {s : NodeController} {c : ChannelPtr}
    (inviter : s.getInviterChannel = some c) :
    s.handlePendingMergePort =
      some ({ s with pendingPortMerges := [] }.sendAll c (s.pendingPortMerges.map mergeRequest)) :=
  foldlM_requestPendingMerge (s := { s with pendingPortMerges := [] }) inviter _

theorem onAcceptInvitee_some {s : NodeController} {c : ChannelPtr} (set : s.inviterChannel = some c)
    (inviterName token : NodeName) :
    s.onAcceptInvitee inviterName token =
      ((({ s with inviterName := inviterName }.setRemoteNodeName c inviterName).sendChannelMessage c
        (.acceptInvitation ⟨token,s.name⟩)).addPeer inviterName c).handlePendingMergePort := by
  unfold onAcceptInvitee
  simp only [set,Option.bind_eq_bind,Option.bind_some]
  rfl

theorem addPeer_shape (s : NodeController) (name : NodeName) (channel : ChannelPtr) :
    ∃ peers pending channels, s.addPeer name channel =
        { s with peers := peers, pendingPeerMessages := pending, channels := channels } ∧
      peers.lookup name ≠ none := by
  cases known : s.peers.lookup name with
  | some c =>
    refine ⟨s.peers,s.pendingPeerMessages,(s.setRemoteNodeName channel name).channels,?_,by simp [known]⟩
    simp only [addPeer,setRemoteNodeName,known]
  | none =>
    cases pending : s.pendingPeerMessages.lookup name with
    | none =>
      refine ⟨s.peers.insert name channel,s.pendingPeerMessages,
        (s.setRemoteNodeName channel name).channels,?_,by simp⟩
      simp only [addPeer,setRemoteNodeName,known,pending]
    | some messages =>
      refine ⟨s.peers.insert name channel,s.pendingPeerMessages.erase name,
        ((s.setRemoteNodeName channel name).sendAll channel messages).channels,?_,by simp⟩
      simp only [addPeer,setRemoteNodeName,known,pending,foldl_sendChannelMessage]
      rfl

end Sending

section Effects
variable {s t : NodeController}

theorem release_iff {c : Option ChannelPtr} : s.release c = some t ↔ (∀ d ∈ c, d ∈ s.owners) ∧ t = s := by
  cases c with
  | none => simp [release,eq_comm]
  | some c =>
    by_cases owned : c ∈ s.owners
    · simp [release,owned,eq_comm]
    · simp [release,owned]

theorem mem_owners {c : ChannelPtr} : c ∈ s.owners ↔ s.inviterChannel = some c ∨
    (∃ node, s.peers.lookup node = some c) ∨ ∃ token, s.pendingInvitations.lookup token = some c := by
  rw [owners,List.mem_append,List.mem_append,Table.mem_values,Table.mem_values,Option.mem_toList,or_assoc]

theorem sendInvitation_ran {tempNodeName : NodeName} {attachedPorts : List (List UInt8 × PortRef)}
    (ran : s.sendInvitation tempNodeName attachedPorts = some t) : t = s.invite tempNodeName attachedPorts :=
  (release_iff.mp ran).2

theorem acceptInvitation_ran (ran : s.acceptInvitation = some t) : t = s.awaitInviter := (release_iff.mp ran).2

theorem foldlM_closePort (s : NodeController) (refs : List PortRef) :
    refs.foldlM closePort s = (refs.foldlM Node.closePort s.node).map fun node =>
      { s with node, handed := s.handed ++ refs.map .closePort } := by
  induction refs generalizing s with
  | nil => simp
  | cons ref refs ih =>
    rw [List.foldlM_cons,List.foldlM_cons,closePort]
    cases s.node.closePort ref with
    | none => rfl
    | some node =>
      simp only [Option.bind_eq_bind,Option.bind_some,Option.pure_def,ih,List.append_assoc,List.map_cons,
        List.singleton_append]

/-- The ports reserved for a node. -/
def reservedRefs (reserved : Table NodeName PortMap) (node : NodeName) : List PortRef :=
  (reserved.lookup node).elim [] fun portMap => portMap.entries.map Sigma.snd

theorem closeReserved_eq (s : NodeController) (name : NodeName) :
    s.closeReserved name = ((reservedRefs s.reservedPorts name).foldlM Node.closePort s.node).map fun node =>
      { s with
        node
        reservedPorts := s.reservedPorts.erase name
        handed := s.handed ++ (reservedRefs s.reservedPorts name).map .closePort } := by
  unfold closeReserved reservedRefs
  cases found : s.reservedPorts.lookup name with
  | none =>
    have same : s.reservedPorts.erase name = s.reservedPorts := Table.erase_unknown found
    simp [same]
  | some portMap => exact foldlM_closePort { s with reservedPorts := s.reservedPorts.erase name } _

/-- The tables without what they have for a peer. -/
def forget (s : NodeController) (name : NodeName) : NodeController := { s with
  peers := s.peers.erase name
  pendingPeerMessages := s.pendingPeerMessages.erase name
  pendingInvitations := s.pendingInvitations.erase name }

/-- A peer is dropped when each of its channels has another owner at the time. -/
theorem dropPeer_iff_forget {name : NodeName} : s.dropPeer name = some t ↔
    (∀ c ∈ s.peers.lookup name, c ∈ ({ s with peers := s.peers.erase name } : NodeController).owners) ∧
      (∀ c ∈ s.pendingInvitations.lookup name, c ∈ (s.forget name).owners) ∧
      (s.forget name).closeReserved name = some t := by
  unfold dropPeer
  simp only [Option.bind_eq_bind,Option.bind_eq_some_iff,release_iff]
  constructor
  · rintro ⟨u,⟨first,rfl⟩,v,⟨second,rfl⟩,ran⟩
    exact ⟨first,second,ran⟩
  · rintro ⟨first,second,ran⟩
    exact ⟨_,⟨first,rfl⟩,_,⟨second,rfl⟩,ran⟩

/-- What dropping a peer does: its ports are closed and nothing is known of it. -/
theorem dropPeer_ran {name : NodeName} (ran : s.dropPeer name = some t) :
    ∃ node, (reservedRefs s.reservedPorts name).foldlM Node.closePort s.node = some node ∧
      t = { s.forget name with
        node
        reservedPorts := s.reservedPorts.erase name
        handed := s.handed ++ (reservedRefs s.reservedPorts name).map .closePort } := by
  obtain ⟨_,_,closed⟩ := dropPeer_iff_forget.mp ran
  rw [closeReserved_eq] at closed
  obtain ⟨node,folded,same⟩ := Option.map_eq_some_iff.mp closed
  exact ⟨node,folded,same.symm⟩

/-- An expected answer: reservations and channel go to the name it gives. -/
def answered (s : NodeController) (fromNode inviteeName : NodeName) (channel : ChannelPtr) : NodeController :=
  { s with
    reservedPorts := renameReserved s.reservedPorts fromNode inviteeName
    pendingInvitations := s.pendingInvitations.erase fromNode }.addPeer inviteeName channel

theorem onAcceptInvitation_cases {fromNode token inviteeName : NodeName}
    (ran : s.onAcceptInvitation fromNode token inviteeName = some t) :
    ((s.pendingInvitations.lookup fromNode = none ∨ token ≠ fromNode) ∧ s.dropPeer fromNode = some t) ∨
      ∃ channel, s.pendingInvitations.lookup fromNode = some channel ∧ token = fromNode ∧
        t = s.answered fromNode inviteeName channel := by
  unfold onAcceptInvitation at ran
  split at ran
  · next unknown => exact .inl ⟨.inl unknown,ran⟩
  · next channel pending =>
    split at ran
    · next wrong => exact .inl ⟨.inr wrong,ran⟩
    · next matching => exact .inr ⟨channel,pending,Decidable.of_not_not matching,(release_iff.mp ran).2⟩

theorem onRequestPortMerge_cases {fromNode : NodeName} {connectorPortName : PortName}
    {messagePipeName : List UInt8}
    (ran : s.onRequestPortMerge fromNode connectorPortName messagePipeName = some t) :
    (takeReserved s.reservedPorts fromNode messagePipeName = none ∧ t = s) ∨
      ∃ port rest r localPortName node channel,
        takeReserved s.reservedPorts fromNode messagePipeName = some (port,rest) ∧
        s.node.mergePorts port fromNode connectorPortName = some (r,localPortName,node) ∧
        s.peers.lookup fromNode = some channel ∧
        t = { s with
          reservedPorts := rest
          node
          handed := s.handed ++ [Handed.mergePorts port] }.sendChannelMessage channel
            (.responsePortMerge ⟨connectorPortName,localPortName⟩) := by
  unfold onRequestPortMerge at ran
  split at ran
  · next nothing =>
    cases ran
    exact .inl ⟨nothing,rfl⟩
  · next port rest taken =>
    obtain ⟨⟨localPortName,u⟩,merged,more⟩ := Option.bind_eq_some_iff.mp ran
    obtain ⟨⟨r,localPortName',node⟩,called,same⟩ := Option.bind_eq_some_iff.mp merged
    cases same
    obtain ⟨channel,peer,same⟩ := Option.bind_eq_some_iff.mp more
    cases same
    exact .inr ⟨port,rest,r,localPortName,node,channel,taken,called,peer,rfl⟩

end Effects

end NodeController

end MojoImpl
