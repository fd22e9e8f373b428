import MojoImpl.Ports.Node

/-! Null entries in the tables of a node: which operations need there to be none, and
that none is left behind by an operation that returns. -/
namespace MojoImpl.Ports
open Foundation

/-- No entry of `ports_` and no reference in `peer_port_maps_` is null. -/
structure NullFree (n : Node) : Prop where
  ports : ∀ name, n.ports.lookup name ≠ some none
  peers : ∀ node port name ref, n.peerEntry node port name = some ref → ref.port ≠ none

namespace NullFree

theorem create (name : NodeName) : NullFree (Node.create name) where
  ports _ same := nomatch same
  peers _ _ _ _ same := nomatch same

theorem setPort {n : Node} (free : NullFree n) (p : PortPtr) (port : Port) :
    NullFree (n.setPort p port) := ⟨free.ports,free.peers⟩

theorem allocate {n : Node} (free : NullFree n) (count : Nat) :
    NullFree { n with allocated := count } := ⟨free.ports,free.peers⟩

theorem emplacePeer {n : Node} (free : NullFree n) (node : NodeName) (port : PortName)
    {ref : PortRef} (real : ref.port ≠ none) : NullFree (n.emplacePeer node port ref) := by
  refine ⟨free.ports,?_⟩
  intro node' port' name ref' entry
  rw [Node.peerEntry_emplacePeer] at entry
  split at entry
  · cases old : n.peerEntry node port name with
    | none =>
      rw [old] at entry
      exact Option.some.inj entry ▸ real
    | some kept =>
      rw [old] at entry
      exact Option.some.inj entry ▸ free.peers _ _ _ _ old
  · exact free.peers _ _ _ _ entry

theorem erasePeer {n : Node} (free : NullFree n) (node : NodeName) (port : PortName) :
    NullFree (n.erasePeer node port) := by
  refine ⟨free.ports,?_⟩
  intro node' port' name ref entry
  rw [Node.peerEntry_erasePeer] at entry
  split at entry
  · contradiction
  · exact free.peers _ _ _ _ entry

theorem erasePort {n : Node} (free : NullFree n) (portName : PortName) :
    NullFree (n.erasePort portName) := by
  refine ⟨?_,free.peers⟩
  intro name entry
  rw [Node.erasePort,Table.lookup_erase] at entry
  split at entry
  · contradiction
  · exact free.ports _ entry

theorem addPortWithName {n : Node} (free : NullFree n) (portName : PortName) (port : PortPtr) :
    NullFree (n.addPortWithName portName port).2 := by
  have linked (m : Node) (free : NullFree m) :
      NullFree { m with ports := m.ports.insert portName (some port) } := by
    refine ⟨?_,free.peers⟩
    intro name entry
    rw [Table.lookup_insert] at entry
    split at entry
    · cases entry
    · exact free.ports _ entry
  have indexed : NullFree (if (n.objects port).peerPortName ≠ kInvalidPortName then
      n.emplacePeer (n.objects port).peerNodeName (n.objects port).peerPortName ⟨portName,some port⟩
      else n) := by
    split
    · exact free.emplacePeer _ _ (by simp)
    · exact free
  unfold Node.addPortWithName
  dsimp only
  split
  · exact indexed
  · exact linked _ indexed

theorem createUninitializedPort {n : Node} (free : NullFree n) (portName : PortName) :
    NullFree (n.createUninitializedPort portName).2.2 := by
  have added := ((free.setPort n.allocated .create).allocate (n.allocated+1)).addPortWithName
    portName n.allocated
  dsimp only [Node.createUninitializedPort]
  generalize Node.addPortWithName _ portName n.allocated = outcome at added ⊢
  obtain ⟨r,t⟩ := outcome
  cases r <;> exact added

theorem updatePortPeerAddress {n : Node} (free : NullFree n) (localPortName : PortName)
    (localPort : PortPtr) (newPeerNode : NodeName) (newPeerPort : PortName) :
    NullFree (n.updatePortPeerAddress localPortName localPort newPeerNode newPeerPort) := by
  unfold Node.updatePortPeerAddress
  split
  · exact (free.setPort _ _).emplacePeer _ _ (by simp)
  · exact free.setPort _ _

theorem initializePort {n t : Node} (free : NullFree n) {portRef : PortRef} {node : NodeName}
    {port : PortName} {r : Result} (ran : n.initializePort portRef node port = some (r,t)) :
    NullFree t := by
  simp only [Node.initializePort,Option.bind_eq_bind,Option.pure_def] at ran
  obtain ⟨p,_,rest⟩ := Option.bind_eq_some_iff.mp ran
  split at rest
  · cases rest
    exact free
  · cases rest
    exact (free.setPort _ _).updatePortPeerAddress _ _ _ _

theorem createPortPair {n t : Node} (free : NullFree n) {name0 name1 : PortName} {r : Result}
    {port0 port1 : PortRef} (ran : n.createPortPair name0 name1 = some (r,port0,port1,t)) :
    NullFree t := by
  have first := free.createUninitializedPort name0
  unfold Node.createPortPair at ran
  split at ran
  · next made =>
    rw [made] at first
    have second := first.createUninitializedPort name1
    split at ran
    · next made' =>
      rw [made'] at second
      simp only [Option.bind_eq_bind,Option.pure_def] at ran
      obtain ⟨⟨r',u⟩,initialized,rest⟩ := Option.bind_eq_some_iff.mp ran
      have third := second.initializePort initialized
      split at rest
      · cases rest
        exact third
      · obtain ⟨⟨r'',v⟩,initialized',rest⟩ := Option.bind_eq_some_iff.mp rest
        cases rest
        exact third.initializePort initialized'
    · next made' =>
      cases ran
      rw [made'] at second
      exact second
  · next made =>
    cases ran
    rw [made] at first
    exact first

theorem closePort {n t : Node} (free : NullFree n) {portRef : PortRef}
    (ran : n.closePort portRef = some t) : NullFree t := by
  simp only [Node.closePort,Option.bind_eq_bind,Option.pure_def] at ran
  obtain ⟨p,_,rest⟩ := Option.bind_eq_some_iff.mp ran
  cases rest
  exact free.erasePort _

theorem mergePorts {n t : Node} (free : NullFree n) {portRef : PortRef} {node : NodeName}
    {port name : PortName} {r : Result} (ran : n.mergePorts portRef node port = some (r,name,t)) :
    NullFree t := by
  have erased := free.erasePort portRef.name
  obtain ⟨remote,_,_,⟨_,_,rfl⟩ | ⟨ptr,_,_,rfl⟩⟩ := Node.mergePorts_cases ran
  · exact erased
  · exact (erased.erasePeer _ _).updatePortPeerAddress _ _ _ _

theorem mergePorts_returns {n : Node} (free : NullFree n) (portRef : PortRef) (node : NodeName)
    (port : PortName) : (∃ t, n.mergePorts portRef node port = some t) ↔ portRef.port ≠ none := by
  unfold Node.mergePorts
  cases portRef.port with
  | none => simp
  | some remote =>
    simp only [Option.bind_eq_bind,Option.bind_some,ne_eq,reduceCtorEq,not_false_eq_true,iff_true]
    have erased := free.erasePort portRef.name
    split
    · exact ⟨_,rfl⟩
    · next entry found =>
      cases entry with
      | none => exact (erased.ports _ found).elim
      | some localPort => exact ⟨_,rfl⟩

theorem peerSubscript_found {n : Node} (free : NullFree n) {node : NodeName} {port name : PortName}
    {ref : PortRef} (found : n.peerEntry node port name = some ref) :
    NullFree (n.peerSubscript node port name).2 := by
  refine ⟨free.ports,?_⟩
  intro node' port' name' ref' entry
  rw [Node.peerEntry_peerSubscript] at entry
  split at entry
  · rw [found] at entry
    exact Option.some.inj entry ▸ free.peers _ _ _ _ found
  · exact free.peers _ _ _ _ entry

/-- The entry the response looks up is there, when the port it names is. -/
def Answerable (n : Node) (localPeerPortName : PortName) : Prop :=
  ∀ p, n.ports.lookup localPeerPortName = some (some p) →
    n.peerEntry n.name localPeerPortName (n.objects p).peerPortName ≠ none

theorem mergePortsResponse_iff {n : Node} (free : NullFree n) (localPeerPortName : PortName)
    (node : NodeName) (port : PortName) :
    (∃ r t, n.mergePortsResponse localPeerPortName node port = some (r,t) ∧ NullFree t) ↔
      Answerable n localPeerPortName := by
  unfold Node.mergePortsResponse Answerable
  cases found : n.ports.lookup localPeerPortName with
  | none => exact ⟨fun _ _ same => (nomatch same),fun _ => ⟨_,n,rfl,free⟩⟩
  | some entry =>
    cases entry with
    | none => exact (free.ports _ found).elim
    | some p =>
      simp only [Option.bind_eq_bind,Option.bind_some,Option.some.injEq,forall_eq']
      cases looked : n.peerEntry n.name localPeerPortName (n.objects p).peerPortName with
      | none =>
        simp [Node.peerSubscript,looked,Node.mergePorts,PortRef.create]
      | some ref =>
        have kept := free.peerSubscript_found looked
        have real := free.peers _ _ _ _ looked
        have same : (n.peerSubscript n.name localPeerPortName (n.objects p).peerPortName).1 = ref := by
          rw [Node.peerSubscript,looked]
          rfl
        obtain ⟨⟨r,name,t⟩,merged⟩ := (kept.mergePorts_returns ref node port).mpr real
        simp only [ne_eq,reduceCtorEq,not_false_eq_true,iff_true]
        refine ⟨.ok,t,?_,kept.mergePorts merged⟩
        rw [same,merged]
        rfl

theorem mergePortsResponse {n t : Node} (free : NullFree n) {localPeerPortName port : PortName}
    {node : NodeName} {r : Result}
    (ran : n.mergePortsResponse localPeerPortName node port = some (r,t)) : NullFree t := by
  obtain ⟨_,_,rfl⟩ | ⟨p,r',name,_,_,merged⟩ := Node.mergePortsResponse_cases ran
  · exact free
  · cases looked : n.peerEntry n.name localPeerPortName (n.objects p).peerPortName with
    | none =>
      have null : ((n.peerSubscript n.name localPeerPortName (n.objects p).peerPortName).1).port = none := by
        rw [Node.peerSubscript,looked]
        rfl
      exact absurd (merged.symm.trans (Node.mergePorts_null null node port)) (Option.some_ne_none _)
    | some ref => exact (free.peerSubscript_found looked).mergePorts merged

theorem onUserMessage {n t : Node} (free : NullFree n) {message : UserMessage}
    (ran : n.onUserMessage message = some t) : NullFree t := by
  obtain ⟨p,found,rest⟩ := Option.bind_eq_some_iff.mp ran
  cases rest
  apply setPort
  change (n.ports.lookup message.toPortName).getD none = some p at found
  cases known : n.ports.lookup message.toPortName with
  | none => simp [known] at found
  | some entry =>
    have same : Table.emplace n.ports message.toPortName none = n.ports := by
      simp only [Table.emplace,known]
    change NullFree { n with ports := Table.emplace n.ports message.toPortName none }
    rw [same]
    exact free

theorem onUserMessage_iff {n : Node} (free : NullFree n) (message : UserMessage) :
    (∃ t, n.onUserMessage message = some t ∧ NullFree t) ↔
      n.ports.lookup message.toPortName ≠ none := by
  unfold Node.onUserMessage Node.portSubscript
  cases found : n.ports.lookup message.toPortName with
  | none => simp
  | some entry =>
    cases entry with
    | none => exact (free.ports _ found).elim
    | some p =>
      have same : Table.emplace n.ports message.toPortName none = n.ports := by
        simp only [Table.emplace,found]
      simp only [Option.getD_some,Option.bind_eq_bind,Option.bind_some,same,ne_eq,reduceCtorEq,
        not_false_eq_true,iff_true]
      exact ⟨_,rfl,free.setPort _ _⟩

end NullFree

end MojoImpl.Ports
