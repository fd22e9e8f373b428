import MojoImpl.Core
import MojoImpl.Controller.Conservation
import MojoImpl.Controller.Survival
import MojoImpl.Foundation.Total
import MojoImpl.Ports.Wired
import Mathlib.Algebra.BigOperators.Group.Multiset.Basic
import Mathlib.Tactic.Abel

/-! Who holds a port: a handle, an invitation that is not sent, or the reservations of the
controller. A call takes a port from one of them before it puts it into another. -/
namespace MojoImpl.Core
open Foundation MojoImpl.Ports

/-- The calls into the core, and the messages that come in below it. -/
inductive Event
  | createInvitation
  | attachMessagePipeToInvitation (invitationHandle : MojoHandle) (name : List UInt8) (name0 name1 : PortName)
  | extractMessagePipeFromInvitation (invitationHandle : MojoHandle) (name : List UInt8)
      (name0 name1 : PortName)
  | sendInvitation (invitationHandle : MojoHandle) (tempNodeName : NodeName)
  | acceptInvitation
  | message (channel : ChannelPtr) (message : Message)

def event (s : Core) : Event → Option Core
  | .createInvitation => some s.createInvitation.2.2
  | .attachMessagePipeToInvitation invitationHandle name name0 name1 => do
    let (_,_,s) ← s.attachMessagePipeToInvitation invitationHandle name name0 name1
    return s
  | .extractMessagePipeFromInvitation invitationHandle name name0 name1 => do
    let (_,_,s) ← s.extractMessagePipeFromInvitation invitationHandle name name0 name1
    return s
  | .sendInvitation invitationHandle tempNodeName => do
    let (_,s) ← s.sendInvitation invitationHandle tempNodeName
    return s
  | .acceptInvitation => do
    let (_,_,s) ← s.acceptInvitation
    return s
  | .message channel message => do
    let controller ← s.controller.event (.message channel message)
    return { s with controller }

/-- The port names that a call generates. -/
def generates (s : Core) : Event → List PortName
  | .attachMessagePipeToInvitation invitationHandle _ name0 name1 =>
    match s.getDispatcher invitationHandle with
    | some (.invitation _) => [name0,name1]
    | _ => []
  | .extractMessagePipeFromInvitation invitationHandle name name0 name1 =>
    match s.getDispatcher invitationHandle with
    | some (.invitation attachedPorts) =>
      if (s.extractMessagePipe invitationHandle attachedPorts name).1 = .ok then [] else [name0,name1]
    | _ => []
  | _ => []

/-- Runs of a core, in which no port name is generated twice. -/
inductive Run : List PortName → Core → Prop
  | create (name : NodeName) : Run [] (create name)
  | event (used : List PortName) (s t : Core) (e : Event) (before : Run used s)
      (new : (s.generates e).Nodup ∧ ∀ x ∈ s.generates e, x ∉ used) (ran : s.event e = some t) :
      Run (s.generates e ++ used) t

def refs (portMap : PortMap) : Multiset PortRef := Table.total portMap fun port => {port}

def dispatcherRefs : Dispatcher → Multiset PortRef
  | .invitation attachedPorts => refs attachedPorts
  | .messagePipe port => {port}

/-- The references that handles, unsent invitations and reservations hold, one for each
place that holds it. -/
def held (s : Core) : Multiset PortRef :=
  Table.total s.handles dispatcherRefs + Table.total s.controller.reservedPorts refs

/-- No port is in two of these places, whether it is told by its name or as an object. -/
def SingleOwner (s : Core) : Prop := (s.held.map PortRef.name).Nodup ∧ (s.held.map PortRef.port).Nodup

section Reserved

theorem refs_reserve_le (attachedPorts : List (List UInt8 × PortRef)) (portMap : PortMap) :
    refs (NodeController.reserve attachedPorts portMap) ≤ refs portMap + attachedPorts.map Prod.snd := by
  induction attachedPorts generalizing portMap with
  | nil =>
    rw [List.map_nil,Multiset.coe_nil,add_zero]
    exact le_refl _
  | cons port rest ih =>
    rw [NodeController.reserve,List.foldl_cons]
    change refs (NodeController.reserve rest (Table.emplace portMap port.1 port.2)) ≤ _
    have placed : refs (Table.emplace portMap port.1 port.2) ≤ {port.2} + refs portMap :=
      Table.total_emplace_le ..
    have split : ((port :: rest).map Prod.snd : Multiset PortRef) = {port.2} + (rest.map Prod.snd : Multiset PortRef) := rfl
    rw [split,← add_assoc,add_comm (refs portMap)]
    exact (ih _).trans (add_le_add placed (le_refl _))

theorem reserved_invite_le (reserved : Table NodeName PortMap) (tempNodeName : NodeName)
    (attachedPorts : List (List UInt8 × PortRef)) :
    Table.total (Table.modify reserved tempNodeName ∅ (NodeController.reserve attachedPorts)) refs ≤
      attachedPorts.map Prod.snd + Table.total reserved refs := by
  have old : ((reserved.lookup tempNodeName).map refs).getD 0 = refs ((reserved.lookup tempNodeName).getD ∅) := by
    cases reserved.lookup tempNodeName <;> rfl
  have put := refs_reserve_le attachedPorts ((reserved.lookup tempNodeName).getD ∅)
  rw [Table.modify,Table.total_insert,Table.total_split reserved tempNodeName,old,← add_assoc,
    add_comm (attachedPorts.map Prod.snd : Multiset PortRef)]
  exact add_le_add put (le_refl _)

theorem reserved_rename_le (reserved : Table NodeName PortMap) (fromNode inviteeName : NodeName) :
    Table.total (NodeController.renameReserved reserved fromNode inviteeName) refs ≤ Table.total reserved refs := by
  unfold NodeController.renameReserved
  split
  · exact le_refl _
  · next portMap found =>
    cases target : reserved.lookup inviteeName with
    | some other =>
      rw [Table.emplace,target]
      exact Table.total_erase_le ..
    | none =>
      rw [Table.emplace,target]
      exact le_of_eq (Table.total_move found target refs)

theorem reserved_take_le {reserved rest : Table NodeName PortMap} {node : NodeName} {name : List UInt8}
    {port : PortRef} (taken : NodeController.takeReserved reserved node name = some (port,rest)) :
    Table.total rest refs ≤ Table.total reserved refs := by
  obtain ⟨portMap,found,more⟩ := Option.bind_eq_some_iff.mp taken
  obtain ⟨port',_,same⟩ := Option.bind_eq_some_iff.mp more
  cases same
  rw [Table.total_lookup found refs]
  split
  · exact Multiset.le_add_left _ _
  · rw [Table.total_insert]
    exact add_le_add (Table.total_erase_le portMap name _) (le_refl _)

theorem reserved_message_le {s t : NodeController} {channel : ChannelPtr} {message : Message}
    (ran : s.event (.message channel message) = some t) :
    Table.total t.reservedPorts refs ≤ Table.total s.reservedPorts refs := by
  have effect := s.registry.event_effect (.message channel message)
  rw [← NodeController.registry_event ran] at effect
  change Table.total t.registry.reservedPorts refs ≤ Table.total s.registry.reservedPorts refs
  generalize t.registry = r at effect
  cases effect with
  | none => exact le_refl _
  | enter => exact le_refl _
  | drop => exact Table.total_erase_le ..
  | accepted => exact reserved_rename_le ..
  | take channel data port rest taken => exact reserved_take_le taken

end Reserved

section Nodes

/-- `t` knows no name that `n` does not, and makes no object. -/
def Within (n t : Node) : Prop :=
  (∀ x, n.ports.lookup x = none → t.ports.lookup x = none) ∧ t.allocated = n.allocated

theorem Within.refl (n : Node) : Within n n := ⟨fun _ unknown => unknown,rfl⟩

theorem Within.trans {n t u : Node} (first : Within n t) (second : Within t u) : Within n u :=
  ⟨fun x unknown => second.1 x (first.1 x unknown),second.2.trans first.2⟩

theorem erasePort_within (n : Node) (p : PortName) : Within n (n.erasePort p) := by
  refine ⟨?_,rfl⟩
  intro x unknown
  change (n.ports.erase p).lookup x = none
  rw [Table.lookup_erase,unknown]
  exact ite_self _

theorem closePort_within {n t : Node} {ref : PortRef} (ran : n.closePort ref = some t) : Within n t := by
  obtain ⟨_,_,same⟩ := Option.bind_eq_some_iff.mp ran
  cases same
  exact erasePort_within ..

theorem updatePortPeerAddress_within (n : Node) (p : PortName) (ptr : PortPtr) (node : NodeName)
    (port : PortName) : Within n (n.updatePortPeerAddress p ptr node port) := by
  obtain ⟨_,ports,allocated,_⟩ := Node.updatePortPeerAddress_effect n p ptr node port
  exact ⟨fun _ unknown => ports ▸ unknown,allocated⟩

theorem mergePorts_within {n t : Node} {ref : PortRef} {node : NodeName} {port localPortName : PortName}
    {r : Result} (ran : n.mergePorts ref node port = some (r,localPortName,t)) : Within n t := by
  obtain ⟨remotePort,_,_,⟨_,_,rfl⟩ | ⟨localPort,_,_,rfl⟩⟩ := Node.mergePorts_cases ran
  · exact erasePort_within ..
  · refine (erasePort_within n ref.name).trans (Within.trans ?_ (updatePortPeerAddress_within ..))
    exact ⟨fun _ unknown => unknown,rfl⟩

theorem mergePortsResponse_within {n t : Node} {p port : PortName} {node : NodeName} {r : Result}
    (ran : n.mergePortsResponse p node port = some (r,t)) : Within n t := by
  obtain ⟨_,_,rfl⟩ | ⟨ptr,r',localPortName,_,_,merged⟩ := Node.mergePortsResponse_cases ran
  · exact Within.refl t
  · refine Within.trans ?_ (mergePorts_within merged)
    exact ⟨fun _ unknown => unknown,rfl⟩

theorem onUserMessage_within {n t : Node} {message : UserMessage} (ran : n.onUserMessage message = some t) :
    Within n t := by
  obtain ⟨ptr,live,same⟩ := Option.bind_eq_some_iff.mp ran
  cases same
  refine ⟨?_,rfl⟩
  intro x unknown
  change (Table.emplace n.ports message.toPortName none).lookup x = none
  rw [Table.lookup_emplace]
  split
  · next here =>
    -- an unknown port is a null one
    change (n.ports.lookup message.toPortName).getD none = some ptr at live
    rw [← here,unknown] at live
    contradiction
  · exact unknown

/-- Whatever a message does to the node, it is still within the one before. -/
theorem keeps_within (n : Node) : NodeController.Keeps (Within n) where
  closePort within ran := within.trans (closePort_within ran)
  mergePorts within ran := within.trans (mergePorts_within ran)
  mergePortsResponse within ran := within.trans (mergePortsResponse_within ran)
  onUserMessage within ran := within.trans (onUserMessage_within ran)

theorem initializePort_kept (n : Node) (name port : PortName) (ptr : PortPtr) (node : NodeName) :
    ∃ r t, n.initializePort ⟨name,some ptr⟩ node port = some (r,t) ∧ t.name = n.name ∧
      t.ports = n.ports ∧ t.allocated = n.allocated := by
  unfold Node.initializePort Node.updatePortPeerAddress
  simp only [Option.bind_eq_bind,Option.bind_some]
  split
  · exact ⟨_,_,rfl,rfl,rfl,rfl⟩
  · split <;> exact ⟨_,_,rfl,rfl,rfl,rfl⟩

theorem createPortPair_new {n : Node} {p0 p1 : PortName} (unknown0 : n.ports.lookup p0 = none)
    (unknown1 : n.ports.lookup p1 = none) (distinct : p0 ≠ p1) :
    ∃ r t, n.createPortPair p0 p1 = some (r,⟨p0,some n.allocated⟩,⟨p1,some (n.allocated+1)⟩,t) ∧
      (∀ x, x ≠ p0 → x ≠ p1 → n.ports.lookup x = none → t.ports.lookup x = none) ∧
      t.allocated = n.allocated+2 := by
  have unknown : (n.withPort p0).ports.lookup p1 = none := by
    rw [Node.withPort,Table.lookup_insert,if_neg distinct.symm,unknown1]
  have ports (x : PortName) (other0 : x ≠ p0) (other1 : x ≠ p1) :
      ((n.withPort p0).withPort p1).ports.lookup x = n.ports.lookup x := by
    simp only [Node.withPort,Node.setPort,Table.lookup_insert,other0,other1,if_false]
  obtain ⟨r,t,first,sameName,samePorts,sameAllocated⟩ :=
    initializePort_kept ((n.withPort p0).withPort p1) p0 p1 n.allocated n.name
  obtain ⟨r',u,second,_,samePorts',sameAllocated'⟩ := initializePort_kept t p1 p0 (n.allocated+1) t.name
  have made : n.createPortPair p0 p1 = if r ≠ .ok then some (r,⟨p0,some n.allocated⟩,⟨p1,some (n.allocated+1)⟩,t)
      else some (r',⟨p0,some n.allocated⟩,⟨p1,some (n.allocated+1)⟩,u) := by
    unfold Node.createPortPair
    rw [Node.createUninitializedPort_some unknown0]
    simp only
    rw [Node.createUninitializedPort_some unknown]
    simp only
    change Option.bind (((n.withPort p0).withPort p1).initializePort ⟨p0,some n.allocated⟩ n.name p1) _ = _
    rw [first,Option.bind_some]
    dsimp only
    split
    · rfl
    · change Option.bind (t.initializePort ⟨p1,some (n.allocated+1)⟩ t.name p0) _ = _
      rw [second]
      rfl
  rw [made]
  split
  · refine ⟨_,_,rfl,?_,sameAllocated⟩
    intro x other0 other1 free
    rw [samePorts,ports x other0 other1,free]
  · refine ⟨_,_,rfl,?_,sameAllocated'.trans sameAllocated⟩
    intro x other0 other1 free
    rw [samePorts',samePorts,ports x other0 other1,free]

end Nodes

section Handing

theorem addDispatcher_held (s : Core) (d : Dispatcher) : held (s.addDispatcher d).2 ≤ dispatcherRefs d + held s := by
  unfold addDispatcher
  split
  · exact Multiset.le_add_left _ _
  · dsimp only
    split
    · exact Multiset.le_add_left _ _
    · unfold held
      rw [← add_assoc]
      exact add_le_add (Table.total_insert_le ..) (le_refl _)

theorem addDispatcher_controller (s : Core) (d : Dispatcher) :
    (s.addDispatcher d).2.controller = s.controller := by
  unfold addDispatcher
  split
  · rfl
  · dsimp only
    split <;> rfl

theorem addDispatcher_found {s : Core} {handle : MojoHandle} {d : Dispatcher}
    (found : s.getDispatcher handle = some d) (d' : Dispatcher) :
    (s.addDispatcher d').2.getDispatcher handle = some d := by
  unfold addDispatcher
  split
  · exact found
  · dsimp only
    split
    · exact found
    · next free =>
      have other : handle ≠ s.nextAvailableHandle := by
        rintro rfl
        exact nomatch free.symm.trans found
      exact (Table.lookup_insert ..).trans ((if_neg other).trans found)

theorem setAttachedPorts_held {s : Core} {handle : MojoHandle} {old : PortMap}
    (found : s.getDispatcher handle = some (.invitation old)) (attachedPorts : PortMap) :
    held (s.setAttachedPorts handle attachedPorts) + refs old = refs attachedPorts + held s := by
  have here : Table.total s.handles dispatcherRefs =
      refs old + Table.total (s.handles.erase handle) dispatcherRefs := Table.total_lookup found _
  have there : Table.total (s.setAttachedPorts handle attachedPorts).handles dispatcherRefs =
      refs attachedPorts + Table.total (s.handles.erase handle) dispatcherRefs := Table.total_insert ..
  unfold held
  rw [here,there]
  change _ + Table.total s.controller.reservedPorts refs + _ = _
  abel

theorem createInvitation_held (s : Core) : held s.createInvitation.2.2 ≤ held s := by
  have held := addDispatcher_held s (.invitation ∅)
  rwa [show dispatcherRefs (.invitation ∅) = 0 from rfl,zero_add] at held

theorem acceptInvitation_held {s : Core} {r : MojoResult × MojoHandle × Core} (ran : s.acceptInvitation = some r) :
    held r.2.2 ≤ held s := by
  have held := addDispatcher_held s (.invitation ∅)
  rw [show dispatcherRefs (.invitation ∅) = 0 from rfl,zero_add] at held
  obtain ⟨_,⟨_,same⟩ | ⟨_,same⟩⟩ := acceptInvitation_ran ran <;> rw [same] <;> exact held

theorem mergePortIntoInviter_kept (s : NodeController) (name : List UInt8) (port : PortRef) :
    (s.mergePortIntoInviter name port).node = s.node ∧
      (s.mergePortIntoInviter name port).reservedPorts = s.reservedPorts := by
  unfold NodeController.mergePortIntoInviter
  split <;> exact ⟨rfl,rfl⟩

theorem attachMessagePipe_refs (attachedPorts : PortMap) (name : List UInt8) (port : PortRef) :
    refs (attachMessagePipe attachedPorts name port).2 ≤ {port} + refs attachedPorts := by
  unfold attachMessagePipe
  split
  · exact Multiset.le_add_left _ _
  · exact Table.total_insert_le ..

theorem attachMessagePipe_held {s : Core} {handle : MojoHandle} {attachedPorts : PortMap}
    (found : s.getDispatcher handle = some (.invitation attachedPorts)) (name : List UInt8) (port : PortRef) :
    held (s.setAttachedPorts handle (attachMessagePipe attachedPorts name port).2) ≤ port ::ₘ held s := by
  have exchanged := setAttachedPorts_held found (attachMessagePipe attachedPorts name port).2
  apply le_of_add_le_add_right (a := refs attachedPorts)
  calc
    _ = refs (attachMessagePipe attachedPorts name port).2 + held s := exchanged
    _ ≤ ({port} + refs attachedPorts) + held s := add_le_add (attachMessagePipe_refs ..) (le_refl _)
    _ = {port} + held s + refs attachedPorts := by abel

theorem extractMessagePipe_held {s : Core} {handle : MojoHandle} {attachedPorts : PortMap}
    (found : s.getDispatcher handle = some (.invitation attachedPorts)) (name : List UInt8) :
    held (s.extractMessagePipe handle attachedPorts name).2.2 ≤ held s := by
  unfold extractMessagePipe
  split
  · exact le_refl _
  · next port attached =>
    have out : refs attachedPorts = {port} + refs (attachedPorts.erase name) := Table.total_lookup attached _
    have exchanged := setAttachedPorts_held found (attachedPorts.erase name)
    rw [out,← add_assoc,add_comm _ (refs _),add_right_inj,add_comm] at exchanged
    rw [← exchanged]
    exact addDispatcher_held _ (.messagePipe port)

theorem extractMessagePipe_controller (s : Core) (handle : MojoHandle) (attachedPorts : PortMap)
    (name : List UInt8) : (s.extractMessagePipe handle attachedPorts name).2.2.controller = s.controller := by
  unfold extractMessagePipe
  split
  · rfl
  · exact addDispatcher_controller ..

theorem refs_entries (attachedPorts : PortMap) :
    (((attachedPorts.entries.map fun entry => (entry.1,entry.2)).map Prod.snd : List PortRef) : Multiset PortRef) =
      refs attachedPorts := by
  rw [List.map_map,← Multiset.sum_map_singleton (Multiset.ofList _),Multiset.map_coe,Multiset.sum_coe,List.map_map]
  rfl

theorem sendInvitation_held {s : Core} {handle : MojoHandle} {tempNodeName : NodeName}
    {r : MojoResult × Core} (ran : s.sendInvitation handle tempNodeName = some r) : held r.2 ≤ held s := by
  obtain ⟨attachedPorts,found,rfl⟩ | rfl := sendInvitation_ran ran
  · have exchanged := setAttachedPorts_held found ∅
    have reserved := reserved_invite_le s.controller.reservedPorts tempNodeName
      (attachedPorts.entries.map fun entry => (entry.1,entry.2))
    rw [refs_entries] at reserved
    rw [show refs (∅ : PortMap) = 0 from rfl,zero_add] at exchanged
    calc
      _ ≤ Table.total (s.setAttachedPorts handle ∅).handles dispatcherRefs +
          (refs attachedPorts + Table.total s.controller.reservedPorts refs) :=
        add_le_add (le_refl _) reserved
      _ = held (s.setAttachedPorts handle ∅) + refs attachedPorts := by
        unfold held
        change _ = _ + Table.total s.controller.reservedPorts refs + _
        abel
      _ = held s := exchanged
  · exact le_refl _

end Handing

section Runs

/-- What is held has names that were generated and objects that were made, no two of them
the same. -/
structure Single (used : List PortName) (s : Core) : Prop where
  names : (s.held.map PortRef.name).Nodup
  ports : (s.held.map PortRef.port).Nodup
  known : ∀ ref ∈ s.held, ref.name ∈ used ∧ ∃ p, ref.port = some p ∧ p < s.controller.node.allocated
  fresh : ∀ x, x ∉ used → s.controller.node.ports.lookup x = none

namespace Single
variable {used : List PortName} {s t : Core}

theorem create (name : NodeName) : Single [] (Core.create name) where
  names := List.nodup_nil
  ports := List.nodup_nil
  known _ there := nomatch there
  fresh _ _ := rfl

theorem passes (single : Single used s) (less : t.held ≤ s.held)
    (within : Within s.controller.node t.controller.node) : Single used t where
  names := Multiset.nodup_of_le (Multiset.map_le_map less) single.names
  ports := Multiset.nodup_of_le (Multiset.map_le_map less) single.ports
  known ref there := by
    rw [within.2]
    exact single.known ref (Multiset.mem_of_le less there)
  fresh x new := within.1 x (single.fresh x new)

theorem pairs (single : Single used s) {p0 p1 : PortName} (new : [p0,p1].Nodup ∧ ∀ x ∈ [p0,p1], x ∉ used)
    (unknown : ∀ x, x ≠ p0 → x ≠ p1 → s.controller.node.ports.lookup x = none →
      t.controller.node.ports.lookup x = none)
    (allocated : t.controller.node.allocated = s.controller.node.allocated+2)
    (more : t.held ≤ ⟨p0,some s.controller.node.allocated⟩ ::ₘ
      ⟨p1,some (s.controller.node.allocated+1)⟩ ::ₘ s.held) : Single ([p0,p1] ++ used) t := by
  have distinct : p0 ≠ p1 := fun same => (List.nodup_cons.mp new.1).1 (List.mem_singleton.mpr same)
  have new0 := new.2 p0 (by simp)
  have new1 := new.2 p1 (by simp)
  have older (ptr : PortPtr) (there : some ptr ∈ s.held.map PortRef.port) : ptr < s.controller.node.allocated := by
    obtain ⟨ref,holds,same⟩ := Multiset.mem_map.mp there
    obtain ⟨_,p,real,below⟩ := single.known ref holds
    rw [real] at same
    cases same
    exact below
  have named (x : PortName) (there : x ∈ s.held.map PortRef.name) : x ∈ used := by
    obtain ⟨ref,holds,same⟩ := Multiset.mem_map.mp there
    exact same ▸ (single.known ref holds).1
  constructor
  · apply Multiset.nodup_of_le (Multiset.map_le_map more)
    simp only [Multiset.map_cons,Multiset.nodup_cons,Multiset.mem_cons,not_or]
    exact ⟨⟨distinct,fun there => new0 (named p0 there)⟩,fun there => new1 (named p1 there),single.names⟩
  · apply Multiset.nodup_of_le (Multiset.map_le_map more)
    simp only [Multiset.map_cons,Multiset.nodup_cons,Multiset.mem_cons,not_or]
    refine ⟨⟨?_,fun there => absurd (older _ there) (Nat.lt_irrefl _)⟩,fun there => ?_,single.ports⟩
    · exact fun same => Nat.succ_ne_self _ (Option.some.inj same).symm
    · exact absurd (older _ there) (Nat.not_lt.mpr (Nat.le_succ _))
  · intro ref there
    rw [allocated]
    rcases Multiset.mem_cons.mp (Multiset.mem_of_le more there) with rfl | rest
    · exact ⟨by simp,_,rfl,Nat.lt_add_of_pos_right (by decide)⟩
    rcases Multiset.mem_cons.mp rest with rfl | old
    · exact ⟨by simp,_,rfl,Nat.lt_succ_self _⟩
    · obtain ⟨name,p,real,below⟩ := single.known ref old
      exact ⟨List.mem_append_right _ name,p,real,Nat.lt_add_right 2 below⟩
  · intro x other
    simp only [List.mem_append,List.mem_cons,List.not_mem_nil,or_false,not_or] at other
    exact unknown x other.1.1 other.1.2 (single.fresh x other.2)

theorem partialPair (single : Single used s) {p0 p1 : PortName}
    (new : [p0,p1].Nodup ∧ ∀ x ∈ [p0,p1], x ∉ used) :
    ∃ r node, s.controller.node.createPortPair p0 p1 =
        some (r,⟨p0,some s.controller.node.allocated⟩,⟨p1,some (s.controller.node.allocated+1)⟩,node) ∧
      (∀ x, x ≠ p0 → x ≠ p1 → s.controller.node.ports.lookup x = none → node.ports.lookup x = none) ∧
      node.allocated = s.controller.node.allocated+2 := by
  apply createPortPair_new
  · exact single.fresh p0 (new.2 p0 (by simp))
  · exact single.fresh p1 (new.2 p1 (by simp))
  · exact fun same => (List.nodup_cons.mp new.1).1 (List.mem_singleton.mpr same)

/-- The port of a new pair goes to a handle and its peer to the caller, who may put it into
an invitation. -/
theorem attaches (single : Single used s) {handle : MojoHandle} {name : List UInt8} {p0 p1 : PortName}
    {attachedPorts : PortMap} (found : s.getDispatcher handle = some (.invitation attachedPorts))
    (new : [p0,p1].Nodup ∧ ∀ x ∈ [p0,p1], x ∉ used) {r : MojoResult × Option MojoHandle × Core}
    (ran : s.attachMessagePipeToInvitation handle name p0 p1 = some r) : Single ([p0,p1] ++ used) r.2.2 := by
  obtain ⟨r',node,made,unknown,allocated⟩ := single.partialPair new
  unfold Core.attachMessagePipeToInvitation at ran
  rw [found] at ran
  dsimp only at ran
  rw [createPartialMessagePipe,made] at ran
  simp only [Option.bind_eq_bind,Option.bind_some,Option.pure_def] at ran
  generalize ref0_def : (⟨p0,some s.controller.node.allocated⟩ : PortRef) = ref0 at ran
  generalize ref1_def : (⟨p1,some (s.controller.node.allocated+1)⟩ : PortRef) = ref1 at ran
  have kept := addDispatcher_controller (s.withNode node) (.messagePipe ref0)
  have there : ((s.withNode node).addDispatcher (.messagePipe ref0)).2.getDispatcher handle =
      some (.invitation attachedPorts) := addDispatcher_found (s := s.withNode node) found _
  have one : held ((s.withNode node).addDispatcher (.messagePipe ref0)).2 ≤ {ref0} + held s :=
    addDispatcher_held (s.withNode node) (.messagePipe ref0)
  generalize ((s.withNode node).addDispatcher (.messagePipe ref0)).2 = u at ran kept there one
  have controller : r.2.2.controller = (s.withNode node).controller := by
    split at ran
    · cases ran
      exact kept
    · split at ran <;> cases ran <;> exact kept
  have more : held r.2.2 ≤ ref0 ::ₘ ref1 ::ₘ held s := by
    have both : {ref0} + held s ≤ ref0 ::ₘ ref1 ::ₘ held s := Multiset.cons_le_cons _ (Multiset.le_cons_self _ _)
    have attached : held (u.setAttachedPorts handle (attachMessagePipe attachedPorts name ref1).2) ≤
        ref0 ::ₘ ref1 ::ₘ held s := by
      rw [Multiset.cons_swap]
      exact (attachMessagePipe_held there name ref1).trans (Multiset.cons_le_cons ref1 one)
    split at ran
    · cases ran
      exact one.trans both
    · split at ran
      · next result =>
        cases ran
        rw [result] at attached
        exact attached
      · next result =>
        cases ran
        rw [result] at attached
        exact attached
  rw [← ref0_def,← ref1_def] at more
  apply single.pairs new _ _ more
  · rw [controller]
    exact unknown
  · rw [controller]
    exact allocated

theorem extracts (single : Single used s) {handle : MojoHandle} {name : List UInt8} {p0 p1 : PortName}
    {attachedPorts : PortMap} (found : s.getDispatcher handle = some (.invitation attachedPorts))
    {r : MojoResult × MojoHandle × Core}
    (ran : s.extractMessagePipeFromInvitation handle name p0 p1 = some r)
    (here : (s.extractMessagePipe handle attachedPorts name).1 = .ok) : Single used r.2.2 := by
  have less := extractMessagePipe_held found name
  have kept := extractMessagePipe_controller s handle attachedPorts name
  unfold Core.extractMessagePipeFromInvitation at ran
  rw [found] at ran
  dsimp only at ran
  generalize s.extractMessagePipe handle attachedPorts name = extracted at ran here less kept
  obtain ⟨result,taken,u⟩ := extracted
  cases here
  cases ran
  apply single.passes less
  rw [kept]
  exact Within.refl _

theorem asksInviter (single : Single used s) {handle : MojoHandle} {name : List UInt8} {p0 p1 : PortName}
    {attachedPorts : PortMap} (found : s.getDispatcher handle = some (.invitation attachedPorts))
    (new : [p0,p1].Nodup ∧ ∀ x ∈ [p0,p1], x ∉ used) {r : MojoResult × MojoHandle × Core}
    (ran : s.extractMessagePipeFromInvitation handle name p0 p1 = some r)
    (absent : (s.extractMessagePipe handle attachedPorts name).1 ≠ .ok) : Single ([p0,p1] ++ used) r.2.2 := by
  obtain ⟨r',node,made,unknown,allocated⟩ := single.partialPair new
  have less := extractMessagePipe_held found name
  have kept := extractMessagePipe_controller s handle attachedPorts name
  unfold Core.extractMessagePipeFromInvitation at ran
  rw [found] at ran
  dsimp only at ran
  generalize s.extractMessagePipe handle attachedPorts name = extracted at ran absent less kept
  obtain ⟨result,taken,u⟩ := extracted
  dsimp only at absent less kept
  split at ran
  · next same =>
    cases same
    contradiction
  · next same =>
    cases same
    rw [extractMessagePipeFromInviter,kept,made] at ran
    simp only [Option.bind_eq_bind,Option.bind_some,Option.pure_def] at ran
    have one := addDispatcher_held (u.withNode node) (.messagePipe ⟨p0,some s.controller.node.allocated⟩)
    have put := addDispatcher_controller (u.withNode node) (.messagePipe ⟨p0,some s.controller.node.allocated⟩)
    generalize (u.withNode node).addDispatcher (.messagePipe ⟨p0,some s.controller.node.allocated⟩) = opened at ran one put
    obtain ⟨opened,v⟩ := opened
    cases ran
    dsimp only at one put ⊢
    have asked := mergePortIntoInviter_kept v.controller name ⟨p0,some s.controller.node.allocated⟩
    apply single.pairs new
    · change ∀ x, _ → _ → _ → (v.controller.mergePortIntoInviter _ _).node.ports.lookup x = none
      rw [asked.1,put]
      exact unknown
    · change (v.controller.mergePortIntoInviter _ _).node.allocated = _
      rw [asked.1,put]
      exact allocated
    · calc
        _ = held v := congrArg (_ + Table.total · refs) asked.2
        _ ≤ {⟨p0,some s.controller.node.allocated⟩} + held u := one
        _ ≤ ⟨p0,some s.controller.node.allocated⟩ ::ₘ held s := Multiset.cons_le_cons _ less
        _ ≤ _ := Multiset.cons_le_cons _ (Multiset.le_cons_self _ _)

theorem event_attach (single : Single used s) {handle : MojoHandle} {name : List UInt8} {p0 p1 : PortName}
    {r : MojoResult × Option MojoHandle × Core}
    (new : (s.generates (.attachMessagePipeToInvitation handle name p0 p1)).Nodup ∧
      ∀ x ∈ s.generates (.attachMessagePipeToInvitation handle name p0 p1), x ∉ used)
    (ran : s.attachMessagePipeToInvitation handle name p0 p1 = some r) :
    Single (s.generates (.attachMessagePipeToInvitation handle name p0 p1) ++ used) r.2.2 := by
  unfold generates at new ⊢
  dsimp only at new ⊢
  cases found : s.getDispatcher handle with
  | none =>
    rw [Core.attachMessagePipeToInvitation,found] at ran
    cases ran
    exact single
  | some d =>
    rw [found] at new
    cases d with
    | messagePipe port =>
      rw [Core.attachMessagePipeToInvitation,found] at ran
      cases ran
      exact single
    | invitation attachedPorts => exact single.attaches found new ran

theorem event_extract (single : Single used s) {handle : MojoHandle} {name : List UInt8} {p0 p1 : PortName}
    {r : MojoResult × MojoHandle × Core}
    (new : (s.generates (.extractMessagePipeFromInvitation handle name p0 p1)).Nodup ∧
      ∀ x ∈ s.generates (.extractMessagePipeFromInvitation handle name p0 p1), x ∉ used)
    (ran : s.extractMessagePipeFromInvitation handle name p0 p1 = some r) :
    Single (s.generates (.extractMessagePipeFromInvitation handle name p0 p1) ++ used) r.2.2 := by
  unfold generates at new ⊢
  dsimp only at new ⊢
  cases found : s.getDispatcher handle with
  | none =>
    rw [Core.extractMessagePipeFromInvitation,found] at ran
    cases ran
    exact single
  | some d =>
    rw [found] at new
    cases d with
    | messagePipe port =>
      rw [Core.extractMessagePipeFromInvitation,found] at ran
      cases ran
      exact single
    | invitation attachedPorts =>
      dsimp only at new ⊢
      split
      · next here => exact single.extracts found ran here
      · next absent =>
        rw [if_neg absent] at new
        exact single.asksInviter found new ran absent

theorem event (single : Single used s) {e : Event}
    (new : (s.generates e).Nodup ∧ ∀ x ∈ s.generates e, x ∉ used) (ran : s.event e = some t) :
    Single (s.generates e ++ used) t := by
  cases e with
  | createInvitation =>
    cases ran
    apply single.passes (createInvitation_held s)
    rw [createInvitation,addDispatcher_controller]
    exact Within.refl _
  | attachMessagePipeToInvitation handle name p0 p1 =>
    obtain ⟨r,attached,same⟩ := Option.bind_eq_some_iff.mp ran
    cases same
    exact single.event_attach new attached
  | extractMessagePipeFromInvitation handle name p0 p1 =>
    obtain ⟨r,extracted,same⟩ := Option.bind_eq_some_iff.mp ran
    cases same
    exact single.event_extract new extracted
  | sendInvitation handle tempNodeName =>
    obtain ⟨r,sent,same⟩ := Option.bind_eq_some_iff.mp ran
    cases same
    apply single.passes (sendInvitation_held sent)
    obtain ⟨attachedPorts,_,rfl⟩ | rfl := sendInvitation_ran sent <;> exact Within.refl _
  | acceptInvitation =>
    obtain ⟨r,accepted,same⟩ := Option.bind_eq_some_iff.mp ran
    cases same
    apply single.passes (acceptInvitation_held accepted)
    have kept : Within s.controller.node (s.addDispatcher (.invitation ∅)).2.controller.node := by
      rw [addDispatcher_controller]
      exact Within.refl _
    obtain ⟨_,⟨_,same⟩ | ⟨_,same⟩⟩ := acceptInvitation_ran accepted <;> rw [same] <;> exact kept
  | message channel message =>
    obtain ⟨controller,handled,same⟩ := Option.bind_eq_some_iff.mp ran
    cases same
    apply single.passes
    · exact add_le_add (le_refl _) (reserved_message_le handled)
    · change (if channel < s.controller.created then _ else _) = _ at handled
      split at handled
      · exact (keeps_within s.controller.node).onMessage (Within.refl _) handled
      · contradiction

end Single

theorem run_single {used : List PortName} {s : Core} (run : Run used s) : Single used s := by
  induction run with
  | create name => exact Single.create name
  | event used s t e before new ran single => exact single.event new ran

namespace SingleOwner
variable {s : Core}

theorem apart (owner : SingleOwner s) {port port' : PortRef} (both : {port} + {port'} ≤ s.held) :
    port.port ≠ port'.port := by
  have twice := Multiset.nodup_of_le (Multiset.map_le_map (f := PortRef.port) both) owner.2
  rw [Multiset.singleton_add,Multiset.map_cons,Multiset.map_singleton,Multiset.nodup_cons] at twice
  exact fun same => twice.1 (Multiset.mem_singleton.mpr same)

theorem handles_apart (owner : SingleOwner s) {handle handle' : MojoHandle} {port port' : PortRef}
    (one : s.getDispatcher handle = some (.messagePipe port))
    (other : s.getDispatcher handle' = some (.messagePipe port')) (same : port.port = port'.port) :
    handle = handle' := by
  by_contra distinct
  have rest : (s.handles.erase handle).lookup handle' = some (.messagePipe port') := by
    rw [Table.lookup_erase,if_neg (Ne.symm distinct)]
    exact other
  apply owner.apart _ same
  rw [held,Table.total_lookup one dispatcherRefs,Table.total_lookup rest dispatcherRefs,← add_assoc,add_assoc]
  exact Multiset.le_add_right _ _

theorem reserved_apart (owner : SingleOwner s) {handle : MojoHandle} {port port' : PortRef}
    {node : NodeName} {portMap : PortMap} {name : List UInt8}
    (one : s.getDispatcher handle = some (.messagePipe port))
    (reserved : s.controller.reservedPorts.lookup node = some portMap)
    (other : portMap.lookup name = some port') : port.port ≠ port'.port := by
  apply owner.apart
  apply add_le_add
  · rw [Table.total_lookup one dispatcherRefs]
    exact Multiset.le_add_right _ _
  · rw [Table.total_lookup reserved refs,refs,Table.total_lookup other,add_assoc]
    exact Multiset.le_add_right _ _

end SingleOwner

/-- In every run no port is held twice: no two handles are of one port, and a reserved port
has no handle. -/
theorem run_singleOwner {used : List PortName} {s : Core} (run : Run used s) :
    SingleOwner s ∧
      (∀ handle handle' port port', s.getDispatcher handle = some (.messagePipe port) →
        s.getDispatcher handle' = some (.messagePipe port') → port.port = port'.port → handle = handle') ∧
      ∀ handle port node portMap name port', s.getDispatcher handle = some (.messagePipe port) →
        s.controller.reservedPorts.lookup node = some portMap → portMap.lookup name = some port' →
        port.port ≠ port'.port := by
  have single := run_single run
  have owner : SingleOwner s := ⟨single.names,single.ports⟩
  refine ⟨owner,?_,?_⟩
  · intro handle handle' port port' one other same
    exact owner.handles_apart one other same
  · intro handle port node portMap name port' one reserved other
    exact owner.reserved_apart one reserved other

/-- A port attached to an invitation that is then sent: its own end has a handle and its
peer is reserved. -/
theorem run_singleOwner_sent : ∃ s, Run [⟨3,4⟩,⟨5,6⟩] s ∧
    s.getDispatcher 2 = some (.messagePipe ⟨⟨3,4⟩,some 0⟩) ∧
    (s.controller.reservedPorts.lookup ⟨7,8⟩).bind (AList.lookup [9]) = some ⟨⟨5,6⟩,some 1⟩ ∧
    SingleOwner s := by
  have invited := Run.event _ _ _ .createInvitation (.create ⟨1,2⟩) ⟨List.nodup_nil,by simp [generates]⟩ rfl
  have attached := Run.event _ _ _ (.attachMessagePipeToInvitation 1 [9] ⟨3,4⟩ ⟨5,6⟩) invited
    ⟨by decide,by decide⟩ rfl
  have sent := Run.event _ _ _ (.sendInvitation 1 ⟨7,8⟩) attached ⟨by decide,by decide⟩ rfl
  exact ⟨_,sent,rfl,rfl,(run_singleOwner sent).1⟩

end Runs

end MojoImpl.Core
