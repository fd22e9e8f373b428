import MojoImpl.NodeController

/-! The ports a node controller has reserved, by node and name: what sending an
invitation, renaming the invitee and taking a port do to them. -/
namespace MojoImpl.NodeController
open Foundation MojoImpl.Ports

def reservation (s : NodeController) (node : NodeName) (name : List UInt8) : Option PortRef :=
  reservedFor s.reservedPorts node name

theorem reserve_lookup (attachedPorts : List (Sigma fun _ : List UInt8 => PortRef)) (portMap : PortMap)
    (name : List UInt8) :
    (reserve (attachedPorts.map fun entry => (entry.1,entry.2)) portMap).lookup name =
      (portMap.lookup name).or (attachedPorts.dlookup name) := by
  induction attachedPorts generalizing portMap with
  | nil => simp [reserve]
  | cons entry rest ih =>
    rw [List.map_cons,reserve,List.foldl_cons]
    change (reserve (rest.map fun entry => (entry.1,entry.2)) _).lookup name = _
    rw [ih,Table.lookup_emplace]
    by_cases same : name = entry.1
    · rw [if_pos same,same,List.dlookup_cons_eq]
      cases portMap.lookup entry.1 <;> rfl
    · rw [if_neg same,List.dlookup_cons_ne _ _ same]

theorem invite_reservation {s : NodeController} {tempNodeName : NodeName}
    (new : s.reservedPorts.lookup tempNodeName = none) (attachedPorts : PortMap) (node : NodeName)
    (name : List UInt8) :
    (s.invite tempNodeName (attachedPorts.entries.map fun entry => (entry.1,entry.2))).reservation
        node name =
      if node = tempNodeName then attachedPorts.lookup name else s.reservation node name := by
  unfold reservation reservedFor
  change (do
    let portMap ← (Table.modify s.reservedPorts tempNodeName ∅ _).lookup node
    portMap.lookup name) = _
  rw [Table.lookup_modify,new]
  split
  · simp only [Option.getD_none,Option.bind_eq_bind,Option.bind_some]
    rw [reserve_lookup]
    rfl
  · rfl

theorem invite_channel {s : NodeController} (new : s.created = 0) (tempNodeName : NodeName)
    (attachedPorts : List (List UInt8 × PortRef)) :
    (s.invite tempNodeName attachedPorts).created = 1 ∧
      (s.invite tempNodeName attachedPorts).channels 0 =
        ⟨tempNodeName,[.acceptInvitee ⟨tempNodeName,s.name⟩]⟩ ∧
      (s.invite tempNodeName attachedPorts).pendingInvitations =
        Table.emplace s.pendingInvitations tempNodeName 0 := by
  refine ⟨congrArg (· + 1) new,?_,?_⟩
  · simp only [invite,createChannel,setRemoteNodeName,sendChannelMessage,new,Function.update_self,
      Function.update_idem,List.nil_append]
  · simp only [invite,createChannel,setRemoteNodeName,sendChannelMessage,new]

theorem renameReserved_lookup {reserved : Table NodeName PortMap} {inviteeName : NodeName}
    (fromNode : NodeName) (new : reserved.lookup inviteeName = none) (node : NodeName) :
    (renameReserved reserved fromNode inviteeName).lookup node =
      if node = fromNode then none else if node = inviteeName then reserved.lookup fromNode
      else reserved.lookup node := by
  unfold renameReserved
  split
  · next found =>
    by_cases sender : node = fromNode
    · rw [if_pos sender,sender,found]
    · rw [if_neg sender]
      by_cases target : node = inviteeName
      · rw [if_pos target,target,new,found]
      · rw [if_neg target]
  · next portMap found =>
    rw [Table.lookup_erase,Table.lookup_emplace,new,found]
    rfl

section Taking
variable {reserved : Table NodeName PortMap} {node : NodeName} {name : List UInt8}

theorem takeReserved_none : takeReserved reserved node name = none ↔ reservedFor reserved node name = none := by
  unfold takeReserved reservedFor
  cases reserved.lookup node with
  | none => simp
  | some portMap => cases found : portMap.lookup name <;> simp [found]

theorem takeReserved_some {ref : PortRef} {rest : Table NodeName PortMap}
    (taken : takeReserved reserved node name = some (ref,rest)) : reservedFor reserved node name = some ref := by
  obtain ⟨portMap,found,more⟩ := Option.bind_eq_some_iff.mp taken
  obtain ⟨ref',found',same⟩ := Option.bind_eq_some_iff.mp more
  cases same
  exact Option.bind_eq_some_iff.mpr ⟨portMap,found,found'⟩

theorem takeReserved_rest {ref : PortRef} {rest : Table NodeName PortMap}
    (taken : takeReserved reserved node name = some (ref,rest)) :
    (∀ node' name', reservedFor rest node' name' =
      if node' = node ∧ name' = name then none else reservedFor reserved node' name') ∧
      ∀ node', node' ≠ node → rest.lookup node' = reserved.lookup node' := by
  obtain ⟨portMap,found,more⟩ := Option.bind_eq_some_iff.mp taken
  obtain ⟨ref',_,same⟩ := Option.bind_eq_some_iff.mp more
  have rest_eq : rest = if (portMap.erase name).entries.isEmpty then reserved.erase node
      else reserved.insert node (portMap.erase name) :=
    (congrArg Prod.snd (Option.some.inj same)).symm
  have lookups (node' : NodeName) (other : node' ≠ node) : rest.lookup node' = reserved.lookup node' := by
    rw [rest_eq]
    split
    · rw [Table.lookup_erase,if_neg other]
    · rw [Table.lookup_insert,if_neg other]
  refine ⟨?_,lookups⟩
  intro node' name'
  unfold reservedFor
  by_cases here : node' = node
  · subst here
    simp only [true_and,found,Option.bind_eq_bind,Option.bind_some]
    have erased : (rest.lookup node').bind (AList.lookup name') = (portMap.erase name).lookup name' := by
      rw [rest_eq]
      split
      · next empty =>
        -- an empty map is dropped as a whole
        rw [Table.lookup_erase,if_pos rfl]
        have none_left : (portMap.erase name).entries = [] := List.isEmpty_iff.mp empty
        rw [AList.lookup,none_left]
        rfl
      · rw [Table.lookup_insert,if_pos rfl]
        rfl
    rw [erased,Table.lookup_erase]
  · simp only [here,false_and,if_false]
    rw [lookups node' here]

end Taking

section Handlers

theorem addPeer_new (s : NodeController) {name : NodeName} (unknown : s.peers.lookup name = none)
    (nothing : s.pendingPeerMessages.lookup name = none) (c : ChannelPtr) :
    s.addPeer name c = { s.setRemoteNodeName c name with peers := s.peers.insert name c } := by
  simp only [addPeer,setRemoteNodeName,unknown,nothing]

/-- The first message to an invitee: it answers, knows its inviter and asks for what is pending. -/
theorem onAcceptInvitee_effect {s : NodeController} {c : ChannelPtr} (set : s.inviterChannel = some c)
    {inviterName : NodeName} (unknown : s.peers.lookup inviterName = none)
    (nothing : s.pendingPeerMessages.lookup inviterName = none) (token : NodeName) :
    s.onAcceptInvitee inviterName token = some { s with
      inviterName := inviterName
      peers := s.peers.insert inviterName c
      pendingPortMerges := []
      channels := Function.update s.channels c ⟨inviterName,(s.channels c).written ++
        .acceptInvitation ⟨token,s.name⟩::s.pendingPortMerges.map mergeRequest⟩ } := by
  have added := addPeer_new (({ s with inviterName := inviterName }.setRemoteNodeName c
    inviterName).sendChannelMessage c (.acceptInvitation ⟨token,s.name⟩)) unknown nothing c
  have found : (({ ((({ s with inviterName := inviterName }.setRemoteNodeName c inviterName).sendChannelMessage
      c (.acceptInvitation ⟨token,s.name⟩)).setRemoteNodeName c inviterName) with
        peers := s.peers.insert inviterName c }) : NodeController).getInviterChannel = some c :=
    AList.lookup_insert ..
  rw [onAcceptInvitee_some set,added]
  refine (handlePendingMergePort_sends found).trans ?_
  simp only [sendAll,setRemoteNodeName,sendChannelMessage,Function.update_self,Function.update_idem,
    List.append_assoc,List.singleton_append]

/-- The answer of an invitee: its reservations and its channel get its real name. -/
theorem onAcceptInvitation_effect {s : NodeController} {fromNode : NodeName} {c : ChannelPtr}
    (expected : s.pendingInvitations.lookup fromNode = some c) {inviteeName : NodeName}
    (unknown : s.peers.lookup inviteeName = none)
    (nothing : s.pendingPeerMessages.lookup inviteeName = none) :
    s.onAcceptInvitation fromNode fromNode inviteeName = some { s with
      reservedPorts := renameReserved s.reservedPorts fromNode inviteeName
      pendingInvitations := s.pendingInvitations.erase fromNode
      peers := s.peers.insert inviteeName c
      channels := Function.update s.channels c ⟨inviteeName,(s.channels c).written⟩ } := by
  have added := addPeer_new { s with
    reservedPorts := renameReserved s.reservedPorts fromNode inviteeName
    pendingInvitations := s.pendingInvitations.erase fromNode } unknown nothing c
  unfold onAcceptInvitation
  rw [expected]
  simp only [ne_eq,not_true_eq_false,if_false]
  rw [added]
  -- the new peer owns the channel
  exact release_iff.mpr ⟨by simp [owners,AList.entries_insert],rfl⟩

/-- A request for a reserved port: the port is merged and the response sent. -/
theorem onRequestPortMerge_effect {s : NodeController} {fromNode : NodeName} {c : ChannelPtr}
    {name : List UInt8} {ref : PortRef} {rest : Table NodeName PortMap}
    (taken : takeReserved s.reservedPorts fromNode name = some (ref,rest)) {connectorPortName : PortName} {r : Result}
    {localPortName : PortName} {node : Node}
    (merged : s.node.mergePorts ref fromNode connectorPortName = some (r,localPortName,node))
    (peer : s.peers.lookup fromNode = some c) :
    s.onRequestPortMerge fromNode connectorPortName name =
      some ({ s with
        reservedPorts := rest
        node := node
        handed := s.handed ++ [Handed.mergePorts ref] }.sendChannelMessage c
          (.responsePortMerge ⟨connectorPortName,localPortName⟩)) := by
  unfold onRequestPortMerge mergePorts
  rw [taken]
  simp only [merged,getPeerChannel,peer,Option.bind_eq_bind,Option.bind_some,Option.pure_def]

end Handlers

end MojoImpl.NodeController
