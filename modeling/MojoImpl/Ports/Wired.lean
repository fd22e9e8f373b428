import MojoImpl.Ports.Queues

/-! Pairs of ports in a node. As long as names are not reused, every port whose peer is on
the node itself has its mate in the table, and merging takes one of the two out and gives
the other a new peer. The rules below say what each operation does to the peers, the
queues and the references. -/
namespace MojoImpl.Ports.Node
open Foundation

/-- The port with a name, when it is in `ports_` and not null. -/
def getPort (n : Node) (p : PortName) : Option Port := do
  let entry ← n.ports.lookup p
  let ptr ← entry
  return n.objects ptr

def peerOf (n : Node) (p : PortName) : Option (NodeName × PortName) :=
  (n.getPort p).map fun port => (port.peerNodeName,port.peerPortName)

def queueOf (n : Node) (p : PortName) : List UserMessage :=
  ((n.getPort p).map fun port => port.messageQueue.heap).getD []

/-- The reference is to the port that `ports_` has under its name. -/
def Holds (n : Node) (ref : PortRef) : Prop := ∃ ptr, ref.port = some ptr ∧ n.ports.lookup ref.name = some (some ptr)

/-- Two ports of the node, each the peer of the other. -/
structure Mates (n : Node) (p0 : PortName) (ptr0 : PortPtr) (p1 : PortName) (ptr1 : PortPtr) : Prop where
  live0 : n.ports.lookup p0 = some (some ptr0)
  live1 : n.ports.lookup p1 = some (some ptr1)
  distinct : p0 ≠ p1
  node0 : (n.objects ptr0).peerNodeName = n.name
  port0 : (n.objects ptr0).peerPortName = p1
  node1 : (n.objects ptr1).peerNodeName = n.name
  port1 : (n.objects ptr1).peerPortName = p0
  entry0 : n.peerEntry n.name p0 p1 = some ⟨p1,some ptr1⟩
  entry1 : n.peerEntry n.name p1 p0 = some ⟨p0,some ptr0⟩

structure Wired (n : Node) : Prop where
  below : ∀ p (ptr : Nat), n.ports.lookup p = some (some ptr) → ptr < n.allocated
  injective : ∀ p p' ptr, n.ports.lookup p = some (some ptr) → n.ports.lookup p' = some (some ptr) → p = p'
  mated : ∀ p ptr, n.ports.lookup p = some (some ptr) → (n.objects ptr).peerNodeName = n.name →
    ∃ p' ptr', Mates n p ptr p' ptr'

/-- Nothing in the node goes by the name. -/
structure Unused (n : Node) (p : PortName) : Prop where
  port : n.ports.lookup p = none
  entry : ∀ name, n.peerEntry n.name p name = none

section Views

theorem getPort_some {n : Node} {p : PortName} {port : Port} :
    n.getPort p = some port ↔ ∃ ptr, n.ports.lookup p = some (some ptr) ∧ n.objects ptr = port := by
  unfold getPort
  cases n.ports.lookup p with
  | none => simp
  | some entry => cases entry <;> simp

theorem peerOf_some {n : Node} {p : PortName} {addr : NodeName × PortName} :
    n.peerOf p = some addr ↔ ∃ ptr, n.ports.lookup p = some (some ptr) ∧
      ((n.objects ptr).peerNodeName,(n.objects ptr).peerPortName) = addr := by
  unfold peerOf
  rw [Option.map_eq_some_iff]
  constructor
  · intro ⟨port,found,same⟩
    obtain ⟨ptr,live,rfl⟩ := getPort_some.mp found
    exact ⟨ptr,live,same⟩
  · intro ⟨ptr,live,same⟩
    exact ⟨n.objects ptr,getPort_some.mpr ⟨ptr,live,rfl⟩,same⟩

theorem peerOf_live {n : Node} {p : PortName} {ptr : PortPtr}
    (live : n.ports.lookup p = some (some ptr)) :
    n.peerOf p = some ((n.objects ptr).peerNodeName,(n.objects ptr).peerPortName) :=
  peerOf_some.mpr ⟨ptr,live,rfl⟩

theorem queueOf_live {n : Node} {p : PortName} {ptr : PortPtr}
    (live : n.ports.lookup p = some (some ptr)) :
    n.queueOf p = (n.objects ptr).messageQueue.heap := by
  rw [queueOf,getPort_some.mpr ⟨ptr,live,rfl⟩]
  rfl

theorem Holds.peer {n : Node} {ref : PortRef} (holds : n.Holds ref) :
    ∃ addr, n.peerOf ref.name = some addr := by
  obtain ⟨ptr,_,live⟩ := holds
  exact ⟨_,peerOf_live live⟩

theorem Mates.symm {n : Node} {p0 p1 : PortName} {ptr0 ptr1 : PortPtr}
    (mates : Mates n p0 ptr0 p1 ptr1) : Mates n p1 ptr1 p0 ptr0 where
  live0 := mates.live1
  live1 := mates.live0
  distinct := mates.distinct.symm
  node0 := mates.node1
  port0 := mates.port1
  node1 := mates.node0
  port1 := mates.port0
  entry0 := mates.entry1
  entry1 := mates.entry0

theorem Mates.peer {n : Node} {p0 p1 : PortName} {ptr0 ptr1 : PortPtr}
    (mates : Mates n p0 ptr0 p1 ptr1) : n.peerOf p0 = some (n.name,p1) := by
  rw [peerOf_live mates.live0,mates.node0,mates.port0]

theorem Wired.create (name : NodeName) : Wired (Node.create name) where
  below _ _ live := nomatch live
  injective _ _ _ live := nomatch live
  mated _ _ live := nomatch live

theorem Wired.mates {n : Node} (wired : Wired n) {p p' : PortName}
    (peer : n.peerOf p = some (n.name,p')) : ∃ ptr ptr', Mates n p ptr p' ptr' := by
  obtain ⟨ptr,live,same⟩ := peerOf_some.mp peer
  cases same' : (Prod.mk.inj same).2
  obtain ⟨p',ptr',mates⟩ := wired.mated p ptr live (Prod.mk.inj same).1
  exact ⟨ptr,ptr',mates.port0.symm ▸ mates⟩

theorem Wired.mutual {n : Node} (wired : Wired n) {p p' : PortName}
    (peer : n.peerOf p = some (n.name,p')) : n.peerOf p' = some (n.name,p) := by
  obtain ⟨ptr,ptr',mates⟩ := wired.mates peer
  exact mates.symm.peer

end Views

section Queues

theorem Wired.setQueue {n : Node} (wired : Wired n) (ptr : PortPtr) (queue : MessageQueue) :
    Wired (n.setQueue ptr queue) where
  below := wired.below
  injective := wired.injective
  mated p ptr' live here := by
    rw [(setQueue_peers n ptr ptr' queue).1] at here
    obtain ⟨p',ptr'',mates⟩ := wired.mated p ptr' live here
    refine ⟨p',ptr'',mates.live0,mates.live1,mates.distinct,?_,?_,?_,?_,mates.entry0,mates.entry1⟩
    · exact (setQueue_peers n ptr ptr' queue).1.trans mates.node0
    · exact (setQueue_peers n ptr ptr' queue).2.trans mates.port0
    · exact (setQueue_peers n ptr ptr'' queue).1.trans mates.node1
    · exact (setQueue_peers n ptr ptr'' queue).2.trans mates.port1

theorem Unused.setQueue {n : Node} {p : PortName} (unused : Unused n p) (ptr : PortPtr)
    (queue : MessageQueue) : Unused (n.setQueue ptr queue) p := ⟨unused.port,unused.entry⟩

theorem peerOf_setQueue (n : Node) (ptr : PortPtr) (queue : MessageQueue) (p : PortName) :
    (n.setQueue ptr queue).peerOf p = n.peerOf p := by
  apply Option.ext
  intro addr
  rw [peerOf_some,peerOf_some]
  apply exists_congr
  intro ptr'
  rw [(setQueue_peers n ptr ptr' queue).1,(setQueue_peers n ptr ptr' queue).2]
  rfl

theorem queueOf_setQueue {n : Node} (wired : Wired n) {p : PortName} {ptr : PortPtr}
    (live : n.ports.lookup p = some (some ptr)) (queue : MessageQueue) (p' : PortName) :
    (n.setQueue ptr queue).queueOf p' = if p' = p then queue.heap else n.queueOf p' := by
  split
  · next same =>
    rw [same,queueOf_live (n := n.setQueue ptr queue) live]
    simp only [setQueue,setPort,Function.update_self]
  · next other =>
    have same : (n.setQueue ptr queue).getPort p' = n.getPort p' := by
      apply Option.ext
      intro port
      rw [getPort_some,getPort_some]
      apply exists_congr
      intro ptr'
      apply and_congr_right
      intro live'
      have differ : ptr' ≠ ptr := by
        intro equal
        exact other (wired.injective p' p ptr (equal ▸ live') live)
      simp only [setQueue,setPort,Function.update_of_ne differ]
    rw [queueOf,same]
    rfl

end Queues

section Merging

/-- One port is gone and its mate has a new peer; entries for other nodes are not looked at. -/
structure Rejoins (n t : Node) (p0 : PortName) (ptr0 : PortPtr) (p1 : PortName) (node : NodeName)
    (port : PortName) : Prop where
  name : t.name = n.name
  allocated : t.allocated = n.allocated
  ports : ∀ p, t.ports.lookup p = if p = p1 then none else n.ports.lookup p
  objects : t.objects = Function.update n.objects ptr0
    { n.objects ptr0 with peerNodeName := node, peerPortName := port }
  entries : ∀ p name, t.peerEntry n.name p name = if p = p1 then none else n.peerEntry n.name p name

theorem mergePorts_rejoins {n : Node} {p0 p1 : PortName} {ptr0 ptr1 : PortPtr}
    (mates : Mates n p0 ptr0 p1 ptr1) {node : NodeName} (remote : node ≠ n.name) (port : PortName) :
    ∃ t, n.mergePorts ⟨p1,some ptr1⟩ node port = some (.ok,p0,t) ∧ Rejoins n t p0 ptr0 p1 node port := by
  have found : (n.erasePort p1).ports.lookup p0 = some (some ptr0) := by
    rw [erasePort,Table.lookup_erase,if_neg mates.distinct,mates.live0]
  have merged := mergePorts_peerThere (show (PortRef.mk p1 (some ptr1)).port = some ptr1 from rfl)
    (mates.port1 ▸ found) node port
  rw [Option.map_some,mates.port1,mates.node0] at merged
  obtain ⟨name,ports,allocated,objects⟩ := updatePortPeerAddress_effect
    ((n.erasePort p1).erasePeer n.name p1) p0 ptr0 node port
  refine ⟨_,merged,name,allocated,?_,objects,?_⟩
  · intro p
    rw [ports]
    exact Table.lookup_erase n.ports p1 p
  · have entries (m : Node) (p name : PortName) :
        (m.updatePortPeerAddress p0 ptr0 node port).peerEntry n.name p name =
          m.peerEntry n.name p name := by
      unfold updatePortPeerAddress
      split
      · rw [peerEntry_emplacePeer,if_neg (fun all => remote all.1.symm)]
        rfl
      · rfl
    intro p name
    rw [entries,peerEntry_erasePeer]
    simp only [true_and]
    rfl

theorem mergePortsResponse_rejoins {n : Node} {p0 p1 : PortName} {ptr0 ptr1 : PortPtr}
    (mates : Mates n p0 ptr0 p1 ptr1) {node : NodeName} (remote : node ≠ n.name) (port : PortName) :
    ∃ t, n.mergePortsResponse p0 node port = some (.ok,t) ∧ Rejoins n t p0 ptr0 p1 node port := by
  have entry (p name : PortName) :
      (n.peerSubscript n.name p0 p1).2.peerEntry n.name p name = n.peerEntry n.name p name := by
    rw [peerEntry_peerSubscript]
    split
    · next same => rw [same.2.1,same.2.2,mates.entry0,Option.getD_some]
    · rfl
  have kept : Mates (n.peerSubscript n.name p0 p1).2 p0 ptr0 p1 ptr1 := {
    live0 := mates.live0
    live1 := mates.live1
    distinct := mates.distinct
    node0 := mates.node0
    port0 := mates.port0
    node1 := mates.node1
    port1 := mates.port1
    entry0 := (entry p0 p1).trans mates.entry0
    entry1 := (entry p1 p0).trans mates.entry1 }
  obtain ⟨t,merged,effect⟩ := mergePorts_rejoins kept remote port
  refine ⟨t,?_,effect.name,effect.allocated,effect.ports,effect.objects,?_⟩
  · have subscript : (n.peerSubscript n.name p0 p1).1 = ⟨p1,some ptr1⟩ := by
      rw [peerSubscript,mates.entry0]
      rfl
    unfold mergePortsResponse
    rw [mates.live0]
    simp only [Option.bind_eq_bind,Option.bind_some,mates.port0,Option.pure_def]
    rw [subscript,merged]
    rfl
  · intro p name
    have same : t.peerEntry n.name p name = if p = p1 then none else
      (n.peerSubscript n.name p0 p1).2.peerEntry n.name p name := effect.entries p name
    rw [same,entry]

namespace Rejoins
variable {n t : Node} {p0 p1 port : PortName} {ptr0 ptr1 : PortPtr} {node : NodeName}

theorem live (effect : Rejoins n t p0 ptr0 p1 node port) {p : PortName} {ptr : PortPtr}
    (found : t.ports.lookup p = some (some ptr)) : p ≠ p1 ∧ n.ports.lookup p = some (some ptr) := by
  rw [effect.ports] at found
  split at found
  · contradiction
  · next other => exact ⟨other,found⟩

theorem object_other (effect : Rejoins n t p0 ptr0 p1 node port) {ptr : PortPtr} (other : ptr ≠ ptr0) :
    t.objects ptr = n.objects ptr := by
  rw [effect.objects,Function.update_of_ne other]

theorem wired (effect : Rejoins n t p0 ptr0 p1 node port) (wired : Wired n)
    (mates : Mates n p0 ptr0 p1 ptr1) (remote : node ≠ n.name) : Wired t where
  below p ptr found := effect.allocated ▸ wired.below p ptr (effect.live found).2
  injective p p' ptr found found' := wired.injective p p' ptr (effect.live found).2 (effect.live found').2
  mated p ptr found here := by
    rw [effect.name] at here
    obtain ⟨other,found'⟩ := effect.live found
    have notFirst : ptr ≠ ptr0 := by
      intro same
      rw [same,effect.objects,Function.update_self] at here
      exact remote here
    rw [effect.object_other notFirst] at here
    obtain ⟨p',ptr',pair⟩ := wired.mated p ptr found' here
    -- the mate is neither of the two ports, since these are each other's only mates
    have notFirst' : ptr' ≠ ptr0 := by
      intro same
      have first : p' = p0 := wired.injective p' p0 ptr0 (same ▸ pair.live1) mates.live0
      apply other
      rw [← pair.port1,same,mates.port0]
    have notSecond : p' ≠ p1 := by
      intro same
      have second : ptr' = ptr1 := by
        have live := pair.live1
        rw [same,mates.live1] at live
        exact (Option.some.inj (Option.some.inj live)).symm
      apply notFirst
      have first : p = p0 := by rw [← pair.port1,second,mates.port1]
      have live := pair.live0
      rw [first,mates.live0] at live
      exact (Option.some.inj (Option.some.inj live)).symm
    refine ⟨p',ptr',found,?_,pair.distinct,?_,?_,?_,?_,?_,?_⟩
    · rw [effect.ports,if_neg notSecond,pair.live1]
    · rw [effect.object_other notFirst,effect.name,pair.node0]
    · rw [effect.object_other notFirst,pair.port0]
    · rw [effect.object_other notFirst',effect.name,pair.node1]
    · rw [effect.object_other notFirst',pair.port1]
    · rw [effect.name,effect.entries,if_neg other,pair.entry0]
    · rw [effect.name,effect.entries,if_neg notSecond,pair.entry1]

theorem peerOf (effect : Rejoins n t p0 ptr0 p1 node port) (wired : Wired n)
    (mates : Mates n p0 ptr0 p1 ptr1) (p : PortName) :
    t.peerOf p = if p = p1 then none else if p = p0 then some (node,port) else n.peerOf p := by
  split
  · next gone =>
    rw [Node.peerOf,getPort,effect.ports,if_pos gone]
    rfl
  · next other =>
    split
    · next first =>
      have live : t.ports.lookup p = some (some ptr0) := by
        rw [effect.ports,if_neg other,first,mates.live0]
      rw [peerOf_live live,effect.objects,Function.update_self]
    · next notFirst =>
      apply Option.ext
      intro addr
      rw [peerOf_some,peerOf_some]
      apply exists_congr
      intro ptr
      rw [effect.ports,if_neg other]
      apply and_congr_right
      intro live
      have differ : ptr ≠ ptr0 := by
        intro same
        exact notFirst (wired.injective p p0 ptr0 (same ▸ live) mates.live0)
      rw [effect.object_other differ]

theorem queueOf (effect : Rejoins n t p0 ptr0 p1 node port) (p : PortName) :
    t.queueOf p = if p = p1 then [] else n.queueOf p := by
  split
  · next gone =>
    rw [Node.queueOf,getPort,effect.ports,if_pos gone]
    rfl
  · next other =>
    unfold Node.queueOf getPort
    rw [effect.ports,if_neg other,effect.objects]
    cases n.ports.lookup p with
    | none => rfl
    | some entry =>
      cases entry with
      | none => rfl
      | some ptr =>
        by_cases same : ptr = ptr0
        · subst same
          simp only [Option.bind_eq_bind,Option.bind_some,Option.pure_def,Option.map_some,
            Function.update_self]
        · simp only [Option.bind_eq_bind,Option.bind_some,Option.pure_def,Option.map_some,
            Function.update_of_ne same]

theorem holds (effect : Rejoins n t p0 ptr0 p1 node port) {ref : PortRef} (held : n.Holds ref)
    (other : ref.name ≠ p1) : t.Holds ref := by
  obtain ⟨ptr,real,live⟩ := held
  exact ⟨ptr,real,by rw [effect.ports,if_neg other,live]⟩

theorem unused (effect : Rejoins n t p0 ptr0 p1 node port) {p : PortName} (unused : Unused n p) :
    Unused t p := by
  constructor
  · rw [effect.ports,unused.port,ite_self]
  · intro name
    rw [effect.name,effect.entries,unused.entry,ite_self]

end Rejoins

end Merging

section Creating

structure Paired (n t : Node) (p0 p1 : PortName) : Prop where
  name : t.name = n.name
  allocated : t.allocated = n.allocated+2
  ports : ∀ p, t.ports.lookup p =
    if p = p1 then some (some (n.allocated+1)) else if p = p0 then some (some n.allocated)
    else n.ports.lookup p
  older : ∀ ptr : Nat, ptr < n.allocated → t.objects ptr = n.objects ptr
  object0 : t.objects n.allocated = ⟨.receiving,p1,n.name,.create⟩
  object1 : t.objects (n.allocated+1) = ⟨.receiving,p0,n.name,.create⟩
  entries : ∀ p name, t.peerEntry n.name p name =
    if p = p1 ∧ name = p0 then some ⟨p0,some n.allocated⟩
    else if p = p0 ∧ name = p1 then some ⟨p1,some (n.allocated+1)⟩ else n.peerEntry n.name p name

theorem addPortWithName_some {n : Node} {p : PortName} (ptr : PortPtr)
    (unset : (n.objects ptr).peerPortName = kInvalidPortName) (unknown : n.ports.lookup p = none) :
    n.addPortWithName p ptr = (.ok,{ n with ports := n.ports.insert p (some ptr) }) := by
  simp only [addPortWithName,unset,ne_eq,not_true_eq_false,if_false,unknown]

def withPort (n : Node) (p : PortName) : Node :=
  { n.setPort n.allocated .create with
    allocated := n.allocated+1
    ports := n.ports.insert p (some n.allocated) }

theorem createUninitializedPort_some {n : Node} {p : PortName} (unknown : n.ports.lookup p = none) :
    n.createUninitializedPort p = (.ok,some ⟨p,some n.allocated⟩,n.withPort p) := by
  have added := addPortWithName_some
    (n := { n.setPort n.allocated .create with allocated := n.allocated+1 }) (p := p)
    n.allocated (by simp only [setPort,Function.update_self]; rfl) unknown
  unfold createUninitializedPort
  dsimp only at added ⊢
  rw [added]
  rfl

def withPeer (n : Node) (p : PortName) (ptr : PortPtr) (node : NodeName) (port : PortName) : Node :=
  (n.setPort ptr ⟨.receiving,port,node,(n.objects ptr).messageQueue⟩).emplacePeer node port ⟨p,some ptr⟩

theorem initializePort_some {n : Node} {p port : PortName} {ptr : PortPtr}
    (new : (n.objects ptr).state = .uninitialized) (valid : port ≠ kInvalidPortName) (node : NodeName) :
    n.initializePort ⟨p,some ptr⟩ node port = some (.ok,n.withPeer p ptr node port) := by
  simp only [initializePort,Option.bind_eq_bind,Option.bind_some,new,ne_eq,not_true_eq_false,if_false,
    updatePortPeerAddress,valid,not_false_eq_true,if_true,setPort,Function.update_self,
    Function.update_idem,Option.pure_def,withPeer]

def withPair (n : Node) (p0 p1 : PortName) : Node :=
  (((n.withPort p0).withPort p1).withPeer p0 n.allocated n.name p1).withPeer p1 (n.allocated+1) n.name p0

theorem createPortPair_some {n : Node} {p0 p1 : PortName} (unknown0 : n.ports.lookup p0 = none)
    (unknown1 : n.ports.lookup p1 = none) (distinct : p0 ≠ p1) (valid0 : p0 ≠ kInvalidPortName)
    (valid1 : p1 ≠ kInvalidPortName) :
    n.createPortPair p0 p1 =
      some (.ok,⟨p0,some n.allocated⟩,⟨p1,some (n.allocated+1)⟩,n.withPair p0 p1) := by
  have unknown : (n.withPort p0).ports.lookup p1 = none := by
    rw [withPort,Table.lookup_insert,if_neg distinct.symm,unknown1]
  have next : n.allocated ≠ n.allocated+1 := by omega
  have new0 : (((n.withPort p0).withPort p1).objects n.allocated).state = .uninitialized := by
    simp only [withPort,setPort,Function.update_of_ne next,Function.update_self]
    rfl
  have new1 : ((((n.withPort p0).withPort p1).withPeer p0 n.allocated n.name p1).objects
      (n.allocated+1)).state = .uninitialized := by
    simp only [withPort,withPeer,emplacePeer,setPort,Function.update_of_ne next.symm,
      Function.update_self]
    rfl
  unfold createPortPair
  rw [createUninitializedPort_some unknown0]
  simp only [createUninitializedPort_some unknown]
  have first := initializePort_some (p := p0) new0 valid1 n.name
  have second := initializePort_some (p := p1) new1 valid0 n.name
  simp only [Option.bind_eq_bind,Option.pure_def]
  change (((n.withPort p0).withPort p1).initializePort ⟨p0,some n.allocated⟩ n.name p1).bind _ = _
  rw [first]
  simp only [Option.bind_some,ne_eq,not_true_eq_false,if_false]
  change ((((n.withPort p0).withPort p1).withPeer p0 n.allocated n.name p1).initializePort
    ⟨p1,some (n.allocated+1)⟩ n.name p0).bind _ = _
  rw [second]
  rfl

theorem peerEntry_withPair (n : Node) (p0 p1 : PortName) {node : NodeName} (other : node ≠ n.name)
    (p name : PortName) : (n.withPair p0 p1).peerEntry node p name = n.peerEntry node p name := by
  unfold withPair withPeer
  rw [peerEntry_emplacePeer,if_neg (fun all => other all.1)]
  change (emplacePeer _ _ _ _).peerEntry node p name = _
  rw [peerEntry_emplacePeer,if_neg (fun all => other all.1)]
  rfl

theorem withPair_paired {n : Node} {p0 p1 : PortName} (unused0 : Unused n p0) (unused1 : Unused n p1)
    (distinct : p0 ≠ p1) : Paired n (n.withPair p0 p1) p0 p1 := by
  have next : n.allocated ≠ n.allocated+1 := by omega
  refine ⟨rfl,rfl,?_,?_,?_,?_,?_⟩
  · intro p
    change ((n.withPort p0).withPort p1).ports.lookup p = _
    rw [withPort,Table.lookup_insert,withPort,Table.lookup_insert]
  · intro ptr older
    have other0 : ptr ≠ n.allocated := by omega
    have other1 : ptr ≠ n.allocated+1 := by omega
    simp only [withPair,withPort,withPeer,emplacePeer,setPort,Function.update_of_ne other0,
      Function.update_of_ne other1]
  · simp only [withPair,withPort,withPeer,emplacePeer,setPort,Function.update_of_ne next,Function.update_self]
    rfl
  · simp only [withPair,withPort,withPeer,emplacePeer,setPort,Function.update_of_ne next.symm,
      Function.update_self]
    rfl
  · intro p name
    have entry (m : Node) (p' : PortName) (ptr : PortPtr) (port p name : PortName) :
        (m.withPeer p' ptr n.name port).peerEntry n.name p name =
          if p = port ∧ name = p' then some ((m.peerEntry n.name port name).getD ⟨p',some ptr⟩)
          else m.peerEntry n.name p name := by
      rw [withPeer,peerEntry_emplacePeer]
      simp only [true_and]
      rfl
    have start (p name : PortName) : ((n.withPort p0).withPort p1).peerEntry n.name p name =
      n.peerEntry n.name p name := rfl
    rw [withPair,entry,entry,entry,start,start,start]
    by_cases first : p = p0 ∧ name = p1
    · obtain ⟨rfl,rfl⟩ := first
      simp only [distinct,unused0.entry,unused1.entry,distinct.symm,and_self,if_true,if_false,
        Option.getD_none]
    · by_cases second : p = p1 ∧ name = p0
      · obtain ⟨rfl,rfl⟩ := second
        simp only [distinct,unused0.entry,unused1.entry,distinct.symm,and_self,if_true,if_false,
          false_and,Option.getD_none]
      · simp only [if_neg first,if_neg second]

theorem createPortPair_paired {n : Node} {p0 p1 : PortName} (unused0 : Unused n p0)
    (unused1 : Unused n p1) (distinct : p0 ≠ p1) (valid0 : p0 ≠ kInvalidPortName)
    (valid1 : p1 ≠ kInvalidPortName) :
    ∃ t, n.createPortPair p0 p1 =
        some (.ok,⟨p0,some n.allocated⟩,⟨p1,some (n.allocated+1)⟩,t) ∧ Paired n t p0 p1 :=
  ⟨_,createPortPair_some unused0.port unused1.port distinct valid0 valid1,
    withPair_paired unused0 unused1 distinct⟩

namespace Paired
variable {n t : Node} {p0 p1 : PortName}

theorem lookup_other (effect : Paired n t p0 p1) {p : PortName} (not0 : p ≠ p0) (not1 : p ≠ p1) :
    t.ports.lookup p = n.ports.lookup p := by
  rw [effect.ports,if_neg not1,if_neg not0]

theorem mates (effect : Paired n t p0 p1) (distinct : p0 ≠ p1) :
    Mates t p0 n.allocated p1 (n.allocated+1) where
  live0 := by rw [effect.ports,if_neg distinct,if_pos rfl]
  live1 := by rw [effect.ports,if_pos rfl]
  distinct := distinct
  node0 := by rw [effect.object0,effect.name]
  port0 := by rw [effect.object0]
  node1 := by rw [effect.object1,effect.name]
  port1 := by rw [effect.object1]
  entry0 := by
    rw [effect.name,effect.entries,if_neg (fun all => distinct all.1),if_pos ⟨rfl,rfl⟩]
  entry1 := by rw [effect.name,effect.entries,if_pos ⟨rfl,rfl⟩]

theorem older_live (effect : Paired n t p0 p1) (wired : Wired n) (unused0 : Unused n p0)
    (unused1 : Unused n p1) {p : PortName} {ptr : PortPtr} (live : n.ports.lookup p = some (some ptr)) :
    p ≠ p0 ∧ p ≠ p1 ∧ t.ports.lookup p = some (some ptr) ∧ t.objects ptr = n.objects ptr := by
  have not0 : p ≠ p0 := by
    intro same
    rw [same,unused0.port] at live
    contradiction
  have not1 : p ≠ p1 := by
    intro same
    rw [same,unused1.port] at live
    contradiction
  exact ⟨not0,not1,by rw [effect.lookup_other not0 not1,live],effect.older ptr (wired.below p ptr live)⟩

theorem wired (effect : Paired n t p0 p1) (wired : Wired n) (unused0 : Unused n p0)
    (unused1 : Unused n p1) (distinct : p0 ≠ p1) : Wired t := by
  have pair := effect.mates distinct
  -- a live port is one of the two new ones, or an older one
  have cases_live (p : PortName) (ptr : Nat) (live : t.ports.lookup p = some (some ptr)) :
      (p = p0 ∧ ptr = n.allocated) ∨ (p = p1 ∧ ptr = n.allocated+1) ∨
        n.ports.lookup p = some (some ptr) := by
    rw [effect.ports] at live
    split at live
    · next second => exact .inr (.inl ⟨second,by simpa using live.symm⟩)
    · split at live
      · next first => exact .inl ⟨first,by simpa using live.symm⟩
      · exact .inr (.inr live)
  refine ⟨?_,?_,?_⟩
  · intro p ptr live
    rw [effect.allocated]
    obtain ⟨_,rfl⟩ | ⟨_,rfl⟩ | older := cases_live p ptr live
    · omega
    · omega
    · have bound := wired.below p ptr older
      omega
  · intro p p' ptr live live'
    obtain ⟨rfl,same⟩ | ⟨rfl,same⟩ | older := cases_live p ptr live
    · obtain ⟨rfl,_⟩ | ⟨_,other⟩ | older' := cases_live p' ptr live'
      · rfl
      · omega
      · have bound := wired.below p' ptr older'
        omega
    · obtain ⟨_,other⟩ | ⟨rfl,_⟩ | older' := cases_live p' ptr live'
      · omega
      · rfl
      · have bound := wired.below p' ptr older'
        omega
    · have bound := wired.below p ptr older
      obtain ⟨_,other⟩ | ⟨_,other⟩ | older' := cases_live p' ptr live'
      · omega
      · omega
      · exact wired.injective p p' ptr older older'
  · intro p ptr live here
    obtain ⟨rfl,rfl⟩ | ⟨rfl,rfl⟩ | older := cases_live p ptr live
    · exact ⟨p1,_,pair⟩
    · exact ⟨p0,_,pair.symm⟩
    · obtain ⟨not0,not1,_,object⟩ := effect.older_live wired unused0 unused1 older
      rw [object,effect.name] at here
      obtain ⟨p',ptr',old⟩ := wired.mated p ptr older here
      obtain ⟨not0',not1',live',object'⟩ := effect.older_live wired unused0 unused1 old.live1
      refine ⟨p',ptr',live,live',old.distinct,?_,?_,?_,?_,?_,?_⟩
      · rw [object,effect.name,old.node0]
      · rw [object,old.port0]
      · rw [object',effect.name,old.node1]
      · rw [object',old.port1]
      · rw [effect.name,effect.entries,if_neg (fun all => not1 all.1),if_neg (fun all => not0 all.1),
          old.entry0]
      · rw [effect.name,effect.entries,if_neg (fun all => not1' all.1),if_neg (fun all => not0' all.1),
          old.entry1]

theorem getPort_other (effect : Paired n t p0 p1) (wired : Wired n) {p : PortName} (not0 : p ≠ p0)
    (not1 : p ≠ p1) : t.getPort p = n.getPort p := by
  apply Option.ext
  intro port
  rw [getPort_some,getPort_some]
  apply exists_congr
  intro ptr
  rw [effect.lookup_other not0 not1]
  apply and_congr_right
  intro live
  rw [effect.older ptr (wired.below p ptr live)]

theorem peerOf (effect : Paired n t p0 p1) (wired : Wired n) (distinct : p0 ≠ p1) (p : PortName) :
    t.peerOf p = if p = p0 then some (n.name,p1) else if p = p1 then some (n.name,p0)
      else n.peerOf p := by
  have pair := effect.mates distinct
  split
  · next first => rw [first,pair.peer,effect.name]
  · next not0 =>
    split
    · next second => rw [second,pair.symm.peer,effect.name]
    · next not1 =>
      rw [Node.peerOf,effect.getPort_other wired not0 not1]
      rfl

theorem queueOf (effect : Paired n t p0 p1) (wired : Wired n) (unused0 : Unused n p0)
    (unused1 : Unused n p1) (distinct : p0 ≠ p1) (p : PortName) : t.queueOf p = n.queueOf p := by
  have pair := effect.mates distinct
  have empty {p : PortName} (unused : Unused n p) : n.queueOf p = [] := by
    rw [Node.queueOf,getPort,unused.port]
    rfl
  by_cases first : p = p0
  · rw [first,queueOf_live pair.live0,effect.object0,empty unused0]
    rfl
  · by_cases second : p = p1
    · rw [second,queueOf_live pair.live1,effect.object1,empty unused1]
      rfl
    · rw [Node.queueOf,effect.getPort_other wired first second]
      rfl

theorem holds (effect : Paired n t p0 p1) (wired : Wired n) (unused0 : Unused n p0)
    (unused1 : Unused n p1) {ref : PortRef} (held : n.Holds ref) : t.Holds ref := by
  obtain ⟨ptr,real,live⟩ := held
  exact ⟨ptr,real,(effect.older_live wired unused0 unused1 live).2.2.1⟩

theorem unused (effect : Paired n t p0 p1) {p : PortName} (unused : Unused n p) (not0 : p ≠ p0)
    (not1 : p ≠ p1) : Unused t p := by
  constructor
  · rw [effect.lookup_other not0 not1,unused.port]
  · intro name
    rw [effect.name,effect.entries,if_neg (fun all => not1 all.1),if_neg (fun all => not0 all.1),
      unused.entry]

end Paired

end Creating

end MojoImpl.Ports.Node
