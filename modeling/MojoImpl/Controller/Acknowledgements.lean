import MojoImpl.Controller.Reservations
import MojoImpl.Ports.Atomic

/-! What a `ResponsePortMerge` says about the merge it follows. The name in it is stored by
`MergePorts` before the port of that name is looked for, and the result is not looked at. -/
namespace MojoImpl.NodeController
open Foundation MojoImpl.Ports

/-- The call sends nothing, or one response to the node, and then the port it names is in
`ports_` with the connector as its peer. -/
def Acknowledges (s : NodeController) (fromNode : NodeName) (connectorPortName : PortName)
    (messagePipeName : List UInt8) : Prop :=
  ∀ t, s.onRequestPortMerge fromNode connectorPortName messagePipeName = some t →
    t.channels = s.channels ∨ ∃ c portName, s.getPeerChannel fromNode = some c ∧
      t.channels = (s.sendChannelMessage c (.responsePortMerge ⟨connectorPortName,portName⟩)).channels ∧
      t.node.peerOf portName = some (fromNode,connectorPortName)

/-- The port reserved under the name, if any, has another port still in `ports_` as its peer. -/
def Mergeable (s : NodeController) (fromNode : NodeName) (messagePipeName : List UInt8) : Prop :=
  ∀ localPort ptr, s.reservation fromNode messagePipeName = some localPort → localPort.port = some ptr →
    (s.node.objects ptr).peerPortName ≠ localPort.name ∧
      s.node.ports.lookup (s.node.objects ptr).peerPortName ≠ none

section Responses
variable {s : NodeController} {fromNode : NodeName} {messagePipeName : List UInt8}

theorem takeReserved_of_reservation {localPort : PortRef}
    (reserved : s.reservation fromNode messagePipeName = some localPort) :
    ∃ rest, takeReserved s.reservedPorts fromNode messagePipeName = some (localPort,rest) := by
  cases taken : takeReserved s.reservedPorts fromNode messagePipeName with
  | none =>
    rw [reservation,takeReserved_none.mp taken] at reserved
    contradiction
  | some both => exact ⟨both.2,congrArg some (Prod.ext
      (Option.some.inj ((takeReserved_some taken).symm.trans reserved)) rfl)⟩

theorem sendChannelMessage_channels (s : NodeController) (c : ChannelPtr) (message : Message) :
    (s.sendChannelMessage c message).channels ≠ s.channels := by
  intro same
  have written := congrArg (fun channels => (channels c).written) same
  simp only [sendChannelMessage,Function.update_self,List.append_right_eq_self] at written
  exact List.cons_ne_nil _ _ written

theorem sendChannelMessage_inj {c : ChannelPtr} {message message' : Message}
    (same : (s.sendChannelMessage c message).channels = (s.sendChannelMessage c message').channels) :
    message = message' := by
  have written := congrArg (fun channels => (channels c).written) same
  simp only [sendChannelMessage,Function.update_self,List.append_cancel_left_eq] at written
  exact (List.cons.inj written).1

/-- With a port reserved, the call returns only when the merge does. -/
theorem onRequestPortMerge_merges {t : NodeController} {localPort : PortRef} {connectorPortName : PortName}
    (reserved : s.reservation fromNode messagePipeName = some localPort)
    (ran : s.onRequestPortMerge fromNode connectorPortName messagePipeName = some t) :
    s.node.mergePorts localPort fromNode connectorPortName ≠ none := by
  obtain ⟨rest,taken⟩ := takeReserved_of_reservation reserved
  obtain ⟨nothing,_⟩ | ⟨port,rest',_,_,_,_,taken',merged,_⟩ := onRequestPortMerge_cases ran
  · cases taken.symm.trans nothing
  · cases taken.symm.trans taken'
    rw [merged]
    exact Option.some_ne_none _

/-- The peer is gone: its name is sent all the same. -/
theorem onRequestPortMerge_peerGone {c : ChannelPtr} (connected : s.getPeerChannel fromNode = some c)
    {localPort : PortRef} (reserved : s.reservation fromNode messagePipeName = some localPort) {ptr : PortPtr}
    (real : localPort.port = some ptr)
    (gone : (s.node.erasePort localPort.name).ports.lookup (s.node.objects ptr).peerPortName = none)
    (connectorPortName : PortName) :
    ∃ t, s.onRequestPortMerge fromNode connectorPortName messagePipeName = some t ∧
      t.channels = (s.sendChannelMessage c
        (.responsePortMerge ⟨connectorPortName,(s.node.objects ptr).peerPortName⟩)).channels ∧
      t.node = s.node.erasePort localPort.name := by
  obtain ⟨rest,taken⟩ := takeReserved_of_reservation reserved
  exact ⟨_,onRequestPortMerge_effect taken (Node.mergePorts_peerGone real gone fromNode connectorPortName)
    connected,rfl,rfl⟩

/-- The peer is there: it is given the connector as its peer, and its name is sent. -/
theorem onRequestPortMerge_peerThere {c : ChannelPtr} (connected : s.getPeerChannel fromNode = some c)
    {localPort : PortRef} (reserved : s.reservation fromNode messagePipeName = some localPort) {ptr q : PortPtr}
    (real : localPort.port = some ptr)
    (there : (s.node.erasePort localPort.name).ports.lookup (s.node.objects ptr).peerPortName = some (some q))
    (connectorPortName : PortName) :
    ∃ t, s.onRequestPortMerge fromNode connectorPortName messagePipeName = some t ∧
      t.channels = (s.sendChannelMessage c
        (.responsePortMerge ⟨connectorPortName,(s.node.objects ptr).peerPortName⟩)).channels ∧
      t.node.peerOf (s.node.objects ptr).peerPortName = some (fromNode,connectorPortName) := by
  obtain ⟨rest,taken⟩ := takeReserved_of_reservation reserved
  have merged := Node.mergePorts_peerThere real there fromNode connectorPortName
  refine ⟨_,onRequestPortMerge_effect taken merged connected,rfl,?_⟩
  obtain ⟨_,ports,_,objects⟩ := Node.updatePortPeerAddress_effect
    ((s.node.erasePort localPort.name).erasePeer (s.node.objects q).peerNodeName localPort.name)
    (s.node.objects ptr).peerPortName q fromNode connectorPortName
  refine Node.peerOf_some.mpr ⟨q,?_,?_⟩
  · exact (congrArg (AList.lookup _) ports).trans there
  · simp only [sendChannelMessage,objects,Function.update_self]

/-- A request from a connected node is answered only for a merge that took effect exactly
when nothing is reserved for it, or the peer of the reserved port is there to be merged. -/
theorem acknowledges_iff (s : NodeController) (fromNode : NodeName) (connectorPortName : PortName)
    (messagePipeName : List UInt8) (connected : s.getPeerChannel fromNode ≠ none) :
    s.Acknowledges fromNode connectorPortName messagePipeName ↔ s.Mergeable fromNode messagePipeName := by
  obtain ⟨c,connected⟩ := Option.ne_none_iff_exists'.mp connected
  constructor
  · intro acknowledges localPort ptr reserved real
    by_contra stranded
    have gone := (Node.erasePort_peerGone s.node localPort.name _).mpr stranded
    obtain ⟨t,ran,channels,node⟩ := onRequestPortMerge_peerGone connected reserved real gone connectorPortName
    rcases acknowledges t ran with nothing | ⟨c',portName,peer,sent,merged⟩
    · exact sendChannelMessage_channels _ _ _ (channels.symm.trans nothing)
    · cases connected.symm.trans peer
      cases sendChannelMessage_inj (channels.symm.trans sent)
      obtain ⟨q,live,_⟩ := Node.peerOf_some.mp merged
      rw [node,gone] at live
      contradiction
  · intro mergeable t ran
    cases reserved : s.reservation fromNode messagePipeName with
    | none =>
      unfold onRequestPortMerge at ran
      rw [takeReserved_none.mpr reserved] at ran
      cases ran
      exact .inl rfl
    | some localPort =>
      have merges := onRequestPortMerge_merges reserved ran
      cases real : localPort.port with
      | none => exact absurd (Node.mergePorts_null real ..) merges
      | some ptr =>
        have kept := mergeable localPort ptr reserved real
        cases there : (s.node.erasePort localPort.name).ports.lookup (s.node.objects ptr).peerPortName with
        | none => exact absurd kept ((Node.erasePort_peerGone ..).mp there)
        | some entry =>
          cases entry with
          | none => exact absurd (Node.mergePorts_peerThere real there ..) merges
          | some q =>
            obtain ⟨t',ran',channels,peer⟩ := onRequestPortMerge_peerThere connected reserved real there
              connectorPortName
            cases ran.symm.trans ran'
            exact .inr ⟨c,_,connected,channels,peer⟩

/-- A port reserved for an invitee that has answered, with the other one of its pair open. -/
theorem acknowledges_iff_open :
    ∃ s, (((create ⟨1,1⟩).node.createPortPair ⟨2,2⟩ ⟨3,3⟩).bind fun (_,port0,_,node) =>
        ({ create ⟨1,1⟩ with node }.sendInvitation ⟨5,5⟩ [([7],port0)]).bind fun s =>
          s.onAcceptInvitation ⟨5,5⟩ ⟨5,5⟩ ⟨6,6⟩) = some s ∧
      (s.reservation ⟨6,6⟩ [7]).isSome ∧ s.Acknowledges ⟨6,6⟩ ⟨8,8⟩ [7] := by
  refine ⟨_,rfl,rfl,(acknowledges_iff _ ⟨6,6⟩ ⟨8,8⟩ [7] (by decide +kernel)).mpr ?_⟩
  intro localPort ptr reserved real
  cases reserved
  cases real
  decide +kernel

/-- The other port of the pair was closed before the request: its name is sent. -/
theorem not_acknowledges_closed :
    ¬∀ (s : NodeController) fromNode connectorPortName messagePipeName, s.getPeerChannel fromNode ≠ none →
      s.Acknowledges fromNode connectorPortName messagePipeName := by
  intro acknowledges
  let s := ((((create ⟨1,1⟩).node.createPortPair ⟨2,2⟩ ⟨3,3⟩).bind fun (_,port0,port1,node) =>
    ({ create ⟨1,1⟩ with node }.sendInvitation ⟨5,5⟩ [([7],port0)]).bind fun s =>
      (s.onAcceptInvitation ⟨5,5⟩ ⟨5,5⟩ ⟨6,6⟩).bind fun s => s.closePort port1).get rfl)
  rcases acknowledges s ⟨6,6⟩ ⟨8,8⟩ [7] (by decide +kernel) _ rfl with nothing | ⟨c,portName,peer,sent,merged⟩
  · have written := congrArg (fun channels => (channels 0).written.length) nothing
    exact absurd written (by decide +kernel)
  · cases peer
    have named : Message.responsePortMerge ⟨⟨8,8⟩,⟨3,3⟩⟩ = .responsePortMerge ⟨⟨8,8⟩,portName⟩ :=
      sendChannelMessage_inj (s := s) sent
    cases named
    exact absurd merged (by decide +kernel)

end Responses

end MojoImpl.NodeController
