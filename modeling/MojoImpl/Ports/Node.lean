import MojoImpl.Ports.Port
import Mathlib.Logic.Function.Basic

/-! The node of ports/node.cc. A result of `none` is the dereference of a null
pointer. Names come from the random generators and are arguments here. -/
namespace MojoImpl.Ports
open Foundation

inductive Result
  | ok
  | errorPortUnknown
  | errorPortExists
  | errorPortStateUnexpected
  deriving DecidableEq, Repr

/-- `objects` holds the `Port` objects made so far, at the addresses below `allocated`;
a reference to one keeps it alive. -/
structure Node where
  name : NodeName
  ports : Table PortName (Option PortPtr)
  peerPortMaps : Table NodeName (Table PortName (Table PortName PortRef))
  objects : PortPtr → Port
  allocated : Nat

namespace Node

def create (name : NodeName) : Node := ⟨name,∅,∅,fun _ => .create,0⟩

def setPort (n : Node) (p : PortPtr) (port : Port) : Node :=
  { n with objects := Function.update n.objects p port }

/-- `peer_port_maps_[node][port].emplace(ref.name(), ref)`. -/
def emplacePeer (n : Node) (node : NodeName) (port : PortName) (ref : PortRef) : Node :=
  { n with
    peerPortMaps := Table.modify n.peerPortMaps node ∅ fun ports =>
      Table.modify ports port ∅ fun locals => Table.emplace locals ref.name ref }

/-- `peer_port_maps_[node].erase(port)`. -/
def erasePeer (n : Node) (node : NodeName) (port : PortName) : Node :=
  { n with peerPortMaps := Table.modify n.peerPortMaps node ∅ (AList.erase port) }

/-- The entry at `[node][port][name]`, if there is one. -/
def peerEntry (n : Node) (node : NodeName) (port name : PortName) : Option PortRef := do
  let ports ← n.peerPortMaps.lookup node
  let locals ← ports.lookup port
  locals.lookup name

/-- `peer_port_maps_[node][port][name]`, which adds a null entry where there is none. -/
def peerSubscript (n : Node) (node : NodeName) (port name : PortName) : PortRef × Node :=
  ((n.peerEntry node port name).getD .create,
    { n with
      peerPortMaps := Table.modify n.peerPortMaps node ∅ fun ports =>
        Table.modify ports port ∅ fun locals => Table.emplace locals name .create })

/-- `ports_[name]`, which adds a null entry where there is none. -/
def portSubscript (n : Node) (name : PortName) : Option PortPtr × Node :=
  ((n.ports.lookup name).getD none,{ n with ports := Table.emplace n.ports name none })

section PeerEntries

theorem peerEntry_modify (n : Node) (node node' : NodeName) (port port' name : PortName)
    (f : Table PortName PortRef → Table PortName PortRef) :
    peerEntry { n with
        peerPortMaps := Table.modify n.peerPortMaps node ∅ fun ports =>
          Table.modify ports port ∅ f } node' port' name =
      if node' = node ∧ port' = port then
        (f ((((n.peerPortMaps.lookup node).getD ∅).lookup port).getD ∅)).lookup name
      else n.peerEntry node' port' name := by
  unfold peerEntry
  rw [Table.lookup_modify]
  by_cases same : node' = node
  · subst same
    simp only [if_true,Option.bind_eq_bind,Option.bind_some,Table.lookup_modify,true_and]
    by_cases same : port' = port
    · simp only [same,if_true,Option.bind_some]
    · simp only [same,if_false]
      cases n.peerPortMaps.lookup node' <;> rfl
  · simp only [same,if_false,false_and]

theorem peerEntry_inner (n : Node) (node : NodeName) (port name : PortName) :
    (((n.peerPortMaps.lookup node).getD ∅ |>.lookup port).getD ∅).lookup name =
      n.peerEntry node port name := by
  unfold peerEntry
  cases n.peerPortMaps.lookup node with
  | none => rfl
  | some ports =>
    simp only [Option.getD_some,Option.bind_eq_bind,Option.bind_some]
    cases ports.lookup port <;> rfl

theorem peerEntry_emplacePeer (n : Node) (node node' : NodeName) (port port' name : PortName)
    (ref : PortRef) :
    (n.emplacePeer node port ref).peerEntry node' port' name =
      if node' = node ∧ port' = port ∧ name = ref.name then
        some ((n.peerEntry node port name).getD ref)
      else n.peerEntry node' port' name := by
  rw [emplacePeer,peerEntry_modify]
  by_cases here : node' = node ∧ port' = port
  · obtain ⟨rfl,rfl⟩ := here
    simp only [and_self,if_true,true_and,Table.lookup_emplace,peerEntry_inner]
    split
    · next same => rw [same]
    · rfl
  · rw [if_neg here,if_neg (fun all => here ⟨all.1,all.2.1⟩)]

theorem peerEntry_erasePeer (n : Node) (node node' : NodeName) (port port' name : PortName) :
    (n.erasePeer node port).peerEntry node' port' name =
      if node' = node ∧ port' = port then none else n.peerEntry node' port' name := by
  unfold erasePeer peerEntry
  rw [Table.lookup_modify]
  by_cases same : node' = node
  · subst same
    simp only [if_true,Option.bind_eq_bind,Option.bind_some,Table.lookup_erase,true_and]
    split
    · rfl
    · cases n.peerPortMaps.lookup node' <;> rfl
  · simp only [same,if_false,false_and]

theorem peerEntry_peerSubscript (n : Node) (node node' : NodeName) (port port' name name' : PortName) :
    (n.peerSubscript node port name).2.peerEntry node' port' name' =
      if node' = node ∧ port' = port ∧ name' = name then
        some ((n.peerEntry node port name).getD .create)
      else n.peerEntry node' port' name' := by
  rw [peerSubscript,peerEntry_modify]
  by_cases here : node' = node ∧ port' = port
  · obtain ⟨rfl,rfl⟩ := here
    simp only [and_self,if_true,true_and,Table.lookup_emplace,peerEntry_inner]
  · rw [if_neg here,if_neg (fun all => here ⟨all.1,all.2.1⟩)]

end PeerEntries

def addPortWithName (n : Node) (portName : PortName) (port : PortPtr) : Result × Node :=
  let peer := n.objects port
  let n :=
    if peer.peerPortName ≠ kInvalidPortName then
      n.emplacePeer peer.peerNodeName peer.peerPortName ⟨portName,some port⟩
    else n
  match n.ports.lookup portName with
  | some _ => (.errorPortExists,n)
  | none => (.ok,{ n with ports := n.ports.insert portName (some port) })

/-- The reference is what is stored through `port_ref`, if anything is. -/
def createUninitializedPort (n : Node) (portName : PortName) : Result × Option PortRef × Node :=
  let port := n.allocated
  let n := { n.setPort port .create with allocated := n.allocated+1 }
  match n.addPortWithName portName port with
  | (.ok,n) => (.ok,some ⟨portName,some port⟩,n)
  | (r,n) => (r,none,n)

def updatePortPeerAddress (n : Node) (localPortName : PortName) (localPort : PortPtr)
    (newPeerNode : NodeName) (newPeerPort : PortName) : Node :=
  let n := n.setPort localPort
    { n.objects localPort with peerNodeName := newPeerNode, peerPortName := newPeerPort }
  if newPeerPort ≠ kInvalidPortName then
    n.emplacePeer newPeerNode newPeerPort ⟨localPortName,some localPort⟩
  else n

def initializePort (n : Node) (portRef : PortRef) (peerNodeName : NodeName)
    (peerPortName : PortName) : Option (Result × Node) := do
  let port ← portRef.port
  if (n.objects port).state ≠ .uninitialized then return (.errorPortStateUnexpected,n)
  let n := n.setPort port { n.objects port with state := .receiving }
  return (.ok,n.updatePortPeerAddress portRef.name port peerNodeName peerPortName)

/-- The references are what is stored through `port0_ref` and `port1_ref`, which the
callers pass as fresh ones. -/
def createPortPair (n : Node) (name0 name1 : PortName) :
    Option (Result × PortRef × PortRef × Node) :=
  match n.createUninitializedPort name0 with
  | (.ok,some port0,n) =>
    match n.createUninitializedPort name1 with
    | (.ok,some port1,n) => do
      let (r,n) ← n.initializePort port0 n.name port1.name
      if r ≠ .ok then return (r,port0,port1,n)
      let (r,n) ← n.initializePort port1 n.name port0.name
      return (r,port0,port1,n)
    | (r,_,n) => some (r,port0,.create,n)
  | (r,_,n) => some (r,.create,.create,n)

def erasePort (n : Node) (portName : PortName) : Node :=
  { n with ports := n.ports.erase portName }

/-- `TakePendingMessage` is empty, and the result is declared but never returned. -/
def closePort (n : Node) (portRef : PortRef) : Option Node := do
  let _ ← portRef.port
  return n.erasePort portRef.name

/-- The name is what is stored through `local_port_name`. -/
def mergePorts (n : Node) (portRef : PortRef) (destinationNodeName : NodeName)
    (destinationPortName : PortName) : Option (Result × PortName × Node) := do
  let n := n.erasePort portRef.name
  let remotePort ← portRef.port
  let localPortName := (n.objects remotePort).peerPortName
  match n.ports.lookup localPortName with
  | none => return (.errorPortUnknown,localPortName,n)
  | some localPort => do
    let localPort ← localPort
    let n := n.erasePeer (n.objects localPort).peerNodeName portRef.name
    return (.ok,localPortName,
      n.updatePortPeerAddress localPortName localPort destinationNodeName destinationPortName)

def mergePortsResponse (n : Node) (localPeerPortName : PortName) (destinationNodeName : NodeName)
    (destinationPortName : PortName) : Option (Result × Node) :=
  match n.ports.lookup localPeerPortName with
  | none => some (.errorPortUnknown,n)
  | some localPeerPort => do
    let localPeerPort ← localPeerPort
    let localPortName := (n.objects localPeerPort).peerPortName
    let (localPort,n) := n.peerSubscript n.name localPeerPortName localPortName
    let (_,_,n) ← n.mergePorts localPort destinationNodeName destinationPortName
    return (.ok,n)

/-- What is handed to `ForwardEvent`: the node of the peer, and the message with the
names of both ports filled in. -/
def sendUserMessage (n : Node) (portRef : PortRef) (message : UserMessage) :
    Option (NodeName × UserMessage) := do
  let port ← portRef.port
  return ((n.objects port).peerNodeName,
    { message with fromPortName := portRef.name, toPortName := (n.objects port).peerPortName })

def onUserMessage (n : Node) (message : UserMessage) : Option Node := do
  let (toPort,n) := n.portSubscript message.toPortName
  let toPort ← toPort
  let (queue,_) := (n.objects toPort).messageQueue.acceptMessage message
  return n.setPort toPort { n.objects toPort with messageQueue := queue }

/-- The message is the one taken from the queue; with none the caller keeps its own. -/
def getMessage (n : Node) (portRef : PortRef) : Option (Option UserMessage × Node) := do
  let port ← portRef.port
  if (n.objects port).messageQueue.hasNextMessage then do
    let (message,queue) ← (n.objects port).messageQueue.getNextMessage
    return (some message,n.setPort port { n.objects port with messageQueue := queue })
  else return (none,n)

section Merging
variable {n t : Node} {ref : PortRef} {remotePort : PortPtr}

/-- A new peer is entered in one port object and in the index. -/
theorem updatePortPeerAddress_effect (n : Node) (p : PortName) (ptr : PortPtr) (node : NodeName)
    (port : PortName) :
    (n.updatePortPeerAddress p ptr node port).name = n.name ∧
      (n.updatePortPeerAddress p ptr node port).ports = n.ports ∧
      (n.updatePortPeerAddress p ptr node port).allocated = n.allocated ∧
      (n.updatePortPeerAddress p ptr node port).objects =
        Function.update n.objects ptr { n.objects ptr with peerNodeName := node, peerPortName := port } := by
  unfold updatePortPeerAddress
  split <;> exact ⟨rfl,rfl,rfl,rfl⟩

/-- A port is out of the table before its peer is looked for. -/
theorem erasePort_peerGone (n : Node) (name peer : PortName) :
    (n.erasePort name).ports.lookup peer = none ↔ ¬(peer ≠ name ∧ n.ports.lookup peer ≠ none) := by
  rw [erasePort,Table.lookup_erase]
  split <;> simp [*]

theorem mergePorts_null (null : ref.port = none) (node : NodeName) (port : PortName) :
    n.mergePorts ref node port = none := by
  simp only [mergePorts,null]
  rfl

/-- The name of the peer is stored whether or not there is one. -/
theorem mergePorts_peerGone (real : ref.port = some remotePort)
    (gone : (n.erasePort ref.name).ports.lookup (n.objects remotePort).peerPortName = none)
    (node : NodeName) (port : PortName) :
    n.mergePorts ref node port =
      some (.errorPortUnknown,(n.objects remotePort).peerPortName,n.erasePort ref.name) := by
  simp only [mergePorts,real,Option.bind_eq_bind,Option.bind_some,Option.pure_def]
  rw [show (n.erasePort ref.name).ports.lookup ((n.erasePort ref.name).objects remotePort).peerPortName = none
    from gone]
  rfl

theorem mergePorts_peerThere (real : ref.port = some remotePort) {localPort : Option PortPtr}
    (there : (n.erasePort ref.name).ports.lookup (n.objects remotePort).peerPortName = some localPort)
    (node : NodeName) (port : PortName) :
    n.mergePorts ref node port = localPort.map fun ptr =>
      (.ok,(n.objects remotePort).peerPortName,
        ((n.erasePort ref.name).erasePeer (n.objects ptr).peerNodeName ref.name).updatePortPeerAddress
          (n.objects remotePort).peerPortName ptr node port) := by
  simp only [mergePorts,real,Option.bind_eq_bind,Option.bind_some,Option.pure_def]
  rw [show (n.erasePort ref.name).ports.lookup ((n.erasePort ref.name).objects remotePort).peerPortName =
    some localPort from there]
  cases localPort <;> rfl

/-- What a merge that returns has done. -/
theorem mergePorts_cases {node : NodeName} {port localPortName : PortName} {r : Result}
    (ran : n.mergePorts ref node port = some (r,localPortName,t)) :
    ∃ remotePort, ref.port = some remotePort ∧ localPortName = (n.objects remotePort).peerPortName ∧
      (((n.erasePort ref.name).ports.lookup localPortName = none ∧ r = .errorPortUnknown ∧
          t = n.erasePort ref.name) ∨
        ∃ ptr, (n.erasePort ref.name).ports.lookup localPortName = some (some ptr) ∧ r = .ok ∧
          t = ((n.erasePort ref.name).erasePeer (n.objects ptr).peerNodeName ref.name).updatePortPeerAddress
            localPortName ptr node port) := by
  cases real : ref.port with
  | none => exact absurd (ran.symm.trans (mergePorts_null real node port)) (Option.some_ne_none _)
  | some remotePort =>
    refine ⟨remotePort,rfl,?_⟩
    cases found : (n.erasePort ref.name).ports.lookup (n.objects remotePort).peerPortName with
    | none =>
      cases ran.symm.trans (mergePorts_peerGone real found node port)
      exact ⟨rfl,.inl ⟨found,rfl,rfl⟩⟩
    | some localPort =>
      have merged := ran.symm.trans (mergePorts_peerThere real found node port)
      obtain ⟨ptr,there,same⟩ := Option.map_eq_some_iff.mp merged.symm
      cases same
      exact ⟨rfl,.inr ⟨ptr,found.trans (congrArg some there),rfl,rfl⟩⟩

/-- What a response that returns has done: nothing, or one merge with the reference it read. -/
theorem mergePortsResponse_cases {p port : PortName} {node : NodeName} {r : Result}
    (ran : n.mergePortsResponse p node port = some (r,t)) :
    (n.ports.lookup p = none ∧ r = .errorPortUnknown ∧ t = n) ∨
      ∃ ptr r' localPortName, n.ports.lookup p = some (some ptr) ∧ r = .ok ∧
        (n.peerSubscript n.name p (n.objects ptr).peerPortName).2.mergePorts
          (n.peerSubscript n.name p (n.objects ptr).peerPortName).1 node port = some (r',localPortName,t) := by
  unfold mergePortsResponse at ran
  split at ran
  · next unknown =>
    cases ran
    exact .inl ⟨unknown,rfl,rfl⟩
  · next entry live =>
    obtain ⟨ptr,there,rest⟩ := Option.bind_eq_some_iff.mp ran
    obtain ⟨⟨r',localPortName,u⟩,merged,same⟩ := Option.bind_eq_some_iff.mp rest
    cases there
    cases same
    exact .inr ⟨ptr,r',localPortName,live,rfl,merged⟩

end Merging

end Node

end MojoImpl.Ports
