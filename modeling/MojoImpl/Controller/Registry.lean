import MojoImpl.Controller.Reservations

/-! What a node controller knows by name: its peers, the invitations it waits for, the ports
it reserves, and the names its channels go by. Events act on this part by itself. -/
namespace MojoImpl.NodeController
open Foundation MojoImpl.Ports

structure Registry where
  peers : Table NodeName ChannelPtr
  pendingInvitations : Table NodeName ChannelPtr
  reservedPorts : Table NodeName PortMap
  inviterChannel : Option ChannelPtr
  remoteNames : ChannelPtr → NodeName
  created : Nat

/-- The calls into a controller from the core above it. -/
inductive Call
  | createPortPair (name0 name1 : PortName)
  | sendInvitation (tempNodeName : NodeName) (attachedPorts : List (List UInt8 × PortRef))
  | acceptInvitation
  | mergePortIntoInviter (name : List UInt8) (port : PortRef)
  | sendUserMessage (port : PortRef) (message : UserMessage)
  | getUserMessage (port : PortRef)

def call (s : NodeController) : Call → Option NodeController
  | .createPortPair name0 name1 => do
    let (_,_,_,node) ← s.node.createPortPair name0 name1
    return { s with node }
  | .sendInvitation tempNodeName attachedPorts => s.sendInvitation tempNodeName attachedPorts
  | .acceptInvitation => s.acceptInvitation
  | .mergePortIntoInviter name port => some (s.mergePortIntoInviter name port)
  | .sendUserMessage port message => s.sendUserMessage port message
  | .getUserMessage port => do
    let (_,s) ← s.getUserMessage port
    return s

/-- A call from above, or a message that arrives on a channel. -/
inductive Event
  | call (call : Call)
  | message (channel : ChannelPtr) (message : Message)

/-- A message is from the name its channel has when it arrives. -/
def event (s : NodeController) : Event → Option NodeController
  | .call call => s.call call
  | .message channel message =>
    if channel < s.created then s.onMessage (s.channels channel).remoteNodeName message else none

def remoteNames (s : NodeController) : ChannelPtr → NodeName := ChannelObject.remoteNodeName ∘ s.channels

def registry (s : NodeController) : Registry where
  peers := s.peers
  pendingInvitations := s.pendingInvitations
  reservedPorts := s.reservedPorts
  inviterChannel := s.inviterChannel
  remoteNames := s.remoteNames
  created := s.created

namespace Registry

/-- The channel goes by the name from now on, also where the name has a peer. -/
def enter (r : Registry) (name : NodeName) (channel : ChannelPtr) : Registry := { r with
  remoteNames := Function.update r.remoteNames channel name
  peers := Table.emplace r.peers name channel }

def drop (r : Registry) (name : NodeName) : Registry := { r with
  peers := r.peers.erase name
  pendingInvitations := r.pendingInvitations.erase name
  reservedPorts := r.reservedPorts.erase name }

def reservation (r : Registry) (node : NodeName) (name : List UInt8) : Option PortRef :=
  reservedFor r.reservedPorts node name

def take (r : Registry) (node : NodeName) (name : List UInt8) : Registry :=
  match takeReserved r.reservedPorts node name with
  | none => r
  | some (_,reservedPorts) => { r with reservedPorts }

/-- The answer to a pending invitation, on its channel. -/
def accepted (r : Registry) (fromNode inviteeName : NodeName) (channel : ChannelPtr) : Registry := { r with
  reservedPorts := renameReserved r.reservedPorts fromNode inviteeName
  pendingInvitations := r.pendingInvitations.erase fromNode }.enter inviteeName channel

def accept (r : Registry) (fromNode token inviteeName : NodeName) : Registry :=
  match r.pendingInvitations.lookup fromNode with
  | none => r.drop fromNode
  | some channel =>
    if token ≠ fromNode then r.drop fromNode else r.accepted fromNode inviteeName channel

def message (r : Registry) (fromNode : NodeName) : Message → Registry
  | .acceptInvitee data => match r.inviterChannel with
    | none => r
    | some channel => r.enter data.inviterName channel
  | .acceptInvitation data => r.accept fromNode data.token data.inviteeName
  | .requestPortMerge data => r.take fromNode data.messagePipeName
  | _ => r

def invite (r : Registry) (tempNodeName : NodeName) (attachedPorts : List (List UInt8 × PortRef)) :
    Registry := { r with
  reservedPorts := Table.modify r.reservedPorts tempNodeName ∅ (reserve attachedPorts)
  pendingInvitations := Table.emplace r.pendingInvitations tempNodeName r.created
  remoteNames := Function.update r.remoteNames r.created tempNodeName
  created := r.created+1 }

def awaitInviter (r : Registry) : Registry := { r with
  inviterChannel := some r.created
  remoteNames := Function.update r.remoteNames r.created kInvalidNodeName
  created := r.created+1 }

def event (r : Registry) : Event → Registry
  | .call (.sendInvitation tempNodeName attachedPorts) => r.invite tempNodeName attachedPorts
  | .call .acceptInvitation => r.awaitInviter
  | .call _ => r
  | .message channel message => r.message (r.remoteNames channel) message

/-- What an event does, one case for each way through the handlers. -/
inductive Effect (r : Registry) : Event → Registry → Prop
  | none (e : Event) (silent : ∀ channel data, e ≠ .message channel (.acceptInvitation data))
      (unsent : ∀ name ports, e ≠ .call (.sendInvitation name ports)) : Effect r e r
  | invite (name : NodeName) (ports : List (List UInt8 × PortRef)) :
      Effect r (.call (.sendInvitation name ports)) (r.invite name ports)
  | awaitInviter : Effect r (.call .acceptInvitation) r.awaitInviter
  | enter (channel c : ChannelPtr) (data : AcceptInviteeProtocol) (set : r.inviterChannel = some c) :
      Effect r (.message channel (.acceptInvitee data)) (r.enter data.inviterName c)
  | drop (channel : ChannelPtr) (data : AcceptInvitationProtocol)
      (unexpected : r.pendingInvitations.lookup (r.remoteNames channel) = Option.none ∨
        data.token ≠ r.remoteNames channel) :
      Effect r (.message channel (.acceptInvitation data)) (r.drop (r.remoteNames channel))
  | accepted (channel c : ChannelPtr) (data : AcceptInvitationProtocol)
      (pending : r.pendingInvitations.lookup (r.remoteNames channel) = some c)
      (matching : data.token = r.remoteNames channel) :
      Effect r (.message channel (.acceptInvitation data))
        (r.accepted (r.remoteNames channel) data.inviteeName c)
  | take (channel : ChannelPtr) (data : RequestPortMergeProtocol) (port : PortRef)
      (rest : Table NodeName PortMap)
      (taken : takeReserved r.reservedPorts (r.remoteNames channel) data.messagePipeName = some (port,rest)) :
      Effect r (.message channel (.requestPortMerge data)) { r with reservedPorts := rest }

theorem take_reservation {r : Registry} {node : NodeName} {name : List UInt8} {port : PortRef}
    {rest : Table NodeName PortMap} (taken : takeReserved r.reservedPorts node name = some (port,rest))
    {node' : NodeName} {name' : List UInt8} {port' : PortRef}
    (found : { r with reservedPorts := rest }.reservation node' name' = some port') :
    r.reservation node' name' = some port' := by
  change reservedFor rest node' name' = some port' at found
  rw [(takeReserved_rest taken).1] at found
  split at found
  · contradiction
  · exact found

theorem event_effect (r : Registry) (e : Event) : Effect r e (r.event e) := by
  cases e with
  | call call =>
    cases call with
    | sendInvitation name ports => exact .invite name ports
    | acceptInvitation => exact .awaitInviter
    | _ => exact .none _ (fun _ _ same => nomatch same) (fun _ _ same => nomatch same)
  | message channel message =>
    cases message with
    | acceptInvitee data =>
      rw [event,Registry.message]
      split
      · exact .none _ (fun _ _ same => nomatch same) (fun _ _ same => nomatch same)
      · next c set => exact .enter channel c data set
    | acceptInvitation data =>
      rw [event,Registry.message,accept]
      split
      · next unknown => exact .drop channel data (.inl unknown)
      · next c pending =>
        split
        · next wrong => exact .drop channel data (.inr wrong)
        · next matching => exact .accepted channel c data pending (Decidable.of_not_not matching)
    | requestPortMerge data =>
      rw [event,Registry.message,take]
      split
      · exact .none _ (fun _ _ same => nomatch same) (fun _ _ same => nomatch same)
      · next port rest taken => exact .take channel data port rest taken
    | _ => exact .none _ (fun _ _ same => nomatch same) (fun _ _ same => nomatch same)

end Registry

section Simulation
variable {s t : NodeController}

theorem remoteNames_setRemoteNodeName (s : NodeController) (c : ChannelPtr) (name : NodeName) :
    (s.setRemoteNodeName c name).remoteNames = Function.update s.remoteNames c name :=
  Function.comp_update ..

theorem registry_setRemoteNodeName (s : NodeController) (c : ChannelPtr) (name : NodeName) :
    (s.setRemoteNodeName c name).registry =
      { s.registry with remoteNames := Function.update s.remoteNames c name } := by
  rw [← remoteNames_setRemoteNodeName]
  rfl

theorem remoteNames_createChannel (s : NodeController) :
    s.createChannel.2.remoteNames = Function.update s.remoteNames s.created kInvalidNodeName :=
  Function.comp_update ..

theorem registry_sendAll (s : NodeController) (c : ChannelPtr) (messages : List Message) :
    (s.sendAll c messages).registry = s.registry := by
  have kept : (s.sendAll c messages).remoteNames = s.remoteNames := by
    apply (Function.comp_update ..).trans
    exact Function.update_eq_self ..
  rw [registry,kept]
  rfl

theorem registry_sendChannelMessage (s : NodeController) (c : ChannelPtr) (message : Message) :
    (s.sendChannelMessage c message).registry = s.registry := registry_sendAll s c [message]

theorem registry_addPeer (s : NodeController) (name : NodeName) (c : ChannelPtr) :
    (s.addPeer name c).registry = s.registry.enter name c := by
  have named := remoteNames_setRemoteNodeName s c name
  cases known : s.peers.lookup name with
  | some d =>
    have kept : Table.emplace s.peers name c = s.peers := by
      rw [Table.emplace,known]
    have same : s.addPeer name c = s.setRemoteNodeName c name := by
      simp only [addPeer,setRemoteNodeName,known]
    rw [same,Registry.enter]
    change _ = { s.registry with
      remoteNames := Function.update s.remoteNames c name, peers := Table.emplace s.peers name c }
    rw [kept,← named]
    rfl
  | none =>
    have placed : Table.emplace s.peers name c = s.peers.insert name c := by
      rw [Table.emplace,known]
    rw [Registry.enter]
    change _ = { s.registry with
      remoteNames := Function.update s.remoteNames c name, peers := Table.emplace s.peers name c }
    rw [placed,← named]
    cases pending : s.pendingPeerMessages.lookup name with
    | none =>
      simp only [addPeer,setRemoteNodeName,known,pending]
      rfl
    | some messages =>
      simp only [addPeer,setRemoteNodeName,known,pending,foldl_sendChannelMessage]
      exact registry_sendAll ..

theorem registry_dropPeer {name : NodeName} (ran : s.dropPeer name = some t) :
    t.registry = s.registry.drop name := by
  obtain ⟨node,_,rfl⟩ := dropPeer_ran ran
  rfl

theorem registry_onAcceptInvitee {inviterName token : NodeName}
    (ran : s.onAcceptInvitee inviterName token = some t) :
    ∃ c, s.inviterChannel = some c ∧ t.registry = s.registry.enter inviterName c := by
  obtain ⟨c,set,_⟩ := Option.bind_eq_some_iff.mp ran
  change s.inviterChannel = some c at set
  rw [onAcceptInvitee_some set] at ran
  obtain ⟨u,u_def⟩ : ∃ u, u = ({ s with inviterName := inviterName }.setRemoteNodeName c inviterName).sendChannelMessage
      c (.acceptInvitation ⟨token,s.name⟩) := ⟨_,rfl⟩
  rw [← u_def] at ran
  have before : u.registry = { s.registry with remoteNames := Function.update s.remoteNames c inviterName } := by
    rw [u_def,registry_sendChannelMessage,registry_setRemoteNodeName]
    rfl
  have entered := registry_addPeer u inviterName c
  have known : ∃ d, (u.addPeer inviterName c).getInviterChannel = some d := by
    obtain ⟨peers,pending,channels,same,found⟩ := addPeer_shape u inviterName c
    have named : (u.addPeer inviterName c).inviterName = inviterName := by
      rw [same,u_def]
      rfl
    rw [getInviterChannel,named,same]
    exact Option.ne_none_iff_exists'.mp found
  obtain ⟨d,found⟩ := known
  rw [handlePendingMergePort_sends found] at ran
  cases ran
  refine ⟨c,set,?_⟩
  rw [registry_sendAll]
  change (u.addPeer inviterName c).registry = _
  rw [entered,before,Registry.enter,Function.update_idem]
  rfl

/-- What a message does to the registry depends on the registry alone. -/
theorem registry_onMessage {fromNode : NodeName} {message : Message}
    (ran : s.onMessage fromNode message = some t) : t.registry = s.registry.message fromNode message := by
  cases message with
  | acceptInvitee data =>
    obtain ⟨c,set,same⟩ := registry_onAcceptInvitee ran
    have set' : s.registry.inviterChannel = some c := set
    rw [same,Registry.message,set']
  | acceptInvitation data =>
    change t.registry = s.registry.accept fromNode data.token data.inviteeName
    unfold Registry.accept
    change t.registry = match s.pendingInvitations.lookup fromNode with | none => _ | some channel => _
    obtain ⟨unexpected,dropped⟩ | ⟨channel,pending,matching,rfl⟩ := onAcceptInvitation_cases ran
    · have reduced := registry_dropPeer dropped
      split
      · exact reduced
      · next channel pending =>
        rw [if_pos (unexpected.resolve_left (by simp [pending]))]
        exact reduced
    · simp only [pending,matching,ne_eq,not_true_eq_false,if_false]
      exact registry_addPeer ..
  | requestPortMerge data =>
    change t.registry = s.registry.take fromNode data.messagePipeName
    have same : s.registry.reservedPorts = s.reservedPorts := rfl
    rw [Registry.take,same]
    obtain ⟨nothing,rfl⟩ | ⟨port,rest,r,localPortName,node,channel,taken,_,_,rfl⟩ := onRequestPortMerge_cases ran
    · rw [nothing]
    · rw [taken,registry_sendChannelMessage]
      rfl
  | responsePortMerge data =>
    obtain ⟨⟨r,node⟩,_,same⟩ := Option.bind_eq_some_iff.mp ran
    cases same
    rfl
  | userMessage data =>
    obtain ⟨node,_,same⟩ := Option.bind_eq_some_iff.mp ran
    cases same
    rfl
  | acceptPeer data =>
    cases ran
    rfl

theorem registry_call {call : Call} (ran : s.call call = some t) : t.registry = s.registry.event (.call call) := by
  cases call with
  | createPortPair name0 name1 =>
    obtain ⟨⟨r,port0,port1,node⟩,_,same⟩ := Option.bind_eq_some_iff.mp ran
    cases same
    rfl
  | sendInvitation tempNodeName attachedPorts =>
    cases sendInvitation_ran ran
    have named : Function.update s.createChannel.2.remoteNames s.created tempNodeName =
        Function.update s.remoteNames s.created tempNodeName := by
      rw [remoteNames_createChannel,Function.update_idem]
    rw [invite,registry_sendChannelMessage,registry_setRemoteNodeName]
    change { s.registry.invite tempNodeName attachedPorts with
      remoteNames := Function.update s.createChannel.2.remoteNames s.created tempNodeName } = _
    rw [named]
    rfl
  | acceptInvitation =>
    cases acceptInvitation_ran ran
    change { s.registry.awaitInviter with remoteNames := s.createChannel.2.remoteNames } = _
    rw [remoteNames_createChannel]
    rfl
  | mergePortIntoInviter name port =>
    cases ran
    unfold mergePortIntoInviter
    split
    · rfl
    · exact registry_sendChannelMessage ..
  | sendUserMessage port message =>
    obtain ⟨⟨node,message⟩,_,same⟩ := Option.bind_eq_some_iff.mp ran
    cases same
    unfold forwardEvent sendPeerEvent
    split
    · rfl
    · split
      · exact registry_sendChannelMessage ..
      · rfl
  | getUserMessage port =>
    obtain ⟨⟨taken,u⟩,got,same⟩ := Option.bind_eq_some_iff.mp ran
    obtain ⟨⟨taken',node⟩,_,same'⟩ := Option.bind_eq_some_iff.mp got
    cases same
    cases same'
    rfl

/-- The registry of a controller runs by itself: an event does to it what it does to the
registry of the controller. -/
theorem registry_event {e : Event} (ran : s.event e = some t) : t.registry = s.registry.event e := by
  cases e with
  | call call => exact registry_call ran
  | message channel message =>
    rw [event] at ran
    split at ran
    · exact registry_onMessage ran
    · contradiction

end Simulation

end MojoImpl.NodeController
