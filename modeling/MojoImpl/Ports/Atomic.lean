import MojoImpl.Ports.Wired

/-! What the operations of a node leave behind when they return an error. -/
namespace MojoImpl.Ports.Node
open Foundation

/-- `peer_port_maps_` as the maps in it, apart from how they are stored. -/
def peerMaps (n : Node) : NodeName → Option (PortName → Option (PortName → Option PortRef)) := fun node =>
  (n.peerPortMaps.lookup node).map fun ports port =>
    (ports.lookup port).map fun locals name => locals.lookup name

/-- The tables of `t` and the ports made before are those of `n`. -/
structure Unchanged (n t : Node) : Prop where
  ports : ∀ name, t.ports.lookup name = n.ports.lookup name
  peerMaps : t.peerMaps = n.peerMaps
  objects : ∀ p, p < n.allocated → t.objects p = n.objects p

theorem Unchanged.refl (n : Node) : Unchanged n n := ⟨fun _ => rfl,rfl,fun _ _ => rfl⟩

section Tables

theorem peerEntry_peerMaps (n : Node) (node : NodeName) (port name : PortName) :
    n.peerEntry node port name = (n.peerMaps node).bind fun ports => (ports port).bind fun locals => locals name := by
  unfold peerEntry peerMaps
  cases n.peerPortMaps.lookup node with
  | none => rfl
  | some ports =>
    simp only [Option.bind_eq_bind,Option.bind_some,Option.map_some]
    cases ports.lookup port <;> rfl

theorem Unchanged.peerEntry {n t : Node} (same : Unchanged n t) (node : NodeName) (port name : PortName) :
    t.peerEntry node port name = n.peerEntry node port name := by
  rw [peerEntry_peerMaps,peerEntry_peerMaps,same.peerMaps]

/-- An entry that is there stays, and so does everything around it. -/
theorem peerMaps_emplacePeer {n : Node} {node : NodeName} {port : PortName} {ref : PortRef}
    (there : n.peerEntry node port ref.name ≠ none) : (n.emplacePeer node port ref).peerMaps = n.peerMaps := by
  obtain ⟨old,found⟩ := Option.ne_none_iff_exists'.mp there
  obtain ⟨ports,outer,found⟩ := Option.bind_eq_some_iff.mp found
  obtain ⟨locals,inner,found⟩ := Option.bind_eq_some_iff.mp found
  have kept : Table.emplace locals ref.name ref = locals := by rw [Table.emplace,found]
  funext node'
  unfold peerMaps emplacePeer
  rw [Table.lookup_modify]
  by_cases here : node' = node
  · rw [if_pos here,here,outer]
    simp only [Option.getD_some,Option.map_some,Option.some.injEq]
    funext port'
    rw [Table.lookup_modify]
    by_cases there : port' = port
    · rw [if_pos there,there,inner,Option.getD_some,kept]
    · rw [if_neg there]
  · rw [if_neg here]

end Tables

section Creating
variable {n : Node}

theorem addPortWithName_known {p : PortName} (ptr : PortPtr) (unset : (n.objects ptr).peerPortName = kInvalidPortName)
    (known : n.ports.lookup p ≠ none) : n.addPortWithName p ptr = (.errorPortExists,n) := by
  obtain ⟨held,found⟩ := Option.ne_none_iff_exists'.mp known
  simp only [addPortWithName,unset,ne_eq,not_true_eq_false,if_false,found]

theorem addPortWithName_unknown {p : PortName} (ptr : PortPtr) (unknown : n.ports.lookup p = none) :
    (n.addPortWithName p ptr).1 = .ok := by
  by_cases unset : (n.objects ptr).peerPortName = kInvalidPortName <;>
    simp only [addPortWithName,unset,ne_eq,not_true_eq_false,not_false_eq_true,if_false,if_true,emplacePeer,unknown]

/-- A port was made that nothing refers to. -/
def spent (n : Node) : Node := { n.setPort n.allocated .create with allocated := n.allocated+1 }

theorem createUninitializedPort_known {p : PortName} (known : n.ports.lookup p ≠ none) :
    n.createUninitializedPort p = (.errorPortExists,none,n.spent) := by
  have refused := addPortWithName_known (n := n.spent) n.allocated
    (by simp only [spent,setPort,Function.update_self]; rfl) known
  unfold createUninitializedPort
  dsimp only [spent] at refused ⊢
  rw [refused]

/-- A new port is initialized whatever its peer is, and no other port is touched. -/
theorem initializePort_new (ref : PortRef) {ptr : PortPtr} (real : ref.port = some ptr)
    (new : (n.objects ptr).state = .uninitialized) (node : NodeName) (port : PortName) :
    ∃ t, n.initializePort ref node port = some (.ok,t) ∧ t.ports = n.ports ∧
      ∀ q, q ≠ ptr → t.objects q = n.objects q := by
  obtain ⟨_,ports,_,objects⟩ := updatePortPeerAddress_effect
    (n.setPort ptr { n.objects ptr with state := .receiving }) ref.name ptr node port
  refine ⟨_,?_,ports,fun q other => ?_⟩
  · simp only [initializePort,real,Option.bind_eq_bind,Option.bind_some,new,ne_eq,not_true_eq_false,if_false,
      Option.pure_def]
  · rw [objects,Function.update_of_ne other]
    exact Function.update_of_ne other _ _

/-- A name in use is found out before anything is changed when it is the first, and after
the first port is in the table when it is the second. -/
theorem createPortPair_cases (n : Node) (p0 p1 : PortName) :
    ∃ r port0 port1 t, n.createPortPair p0 p1 = some (r,port0,port1,t) ∧
      ((n.ports.lookup p0 ≠ none ∧ r = .errorPortExists ∧ Unchanged n t) ∨
        (n.ports.lookup p0 = none ∧ t.ports.lookup p0 ≠ none ∧
          (r = .ok ↔ p0 ≠ p1 ∧ n.ports.lookup p1 = none))) := by
  by_cases known0 : n.ports.lookup p0 = none
  · have added : (n.withPort p0).ports.lookup p0 ≠ none := by
      rw [withPort,Table.lookup_insert,if_pos rfl]
      exact Option.some_ne_none _
    have second : (n.withPort p0).ports.lookup p1 = none ↔ p0 ≠ p1 ∧ n.ports.lookup p1 = none := by
      rw [withPort,Table.lookup_insert]
      by_cases same : p1 = p0
      · simp [same]
      · simp [same,Ne.symm same]
    by_cases known1 : (n.withPort p0).ports.lookup p1 = none
    · -- both ports are in the table and new, so neither initialization can fail
      have next : n.allocated ≠ n.allocated+1 := Nat.ne_of_lt (Nat.lt_succ_self _)
      have new0 : (((n.withPort p0).withPort p1).objects n.allocated).state = .uninitialized := by
        simp only [withPort,setPort,Function.update_of_ne next,Function.update_self]
        rfl
      have new1 : (((n.withPort p0).withPort p1).objects (n.allocated+1)).state = .uninitialized := by
        simp only [withPort,setPort,Function.update_self]
        rfl
      obtain ⟨t,first,ports,objects⟩ := initializePort_new ⟨p0,some n.allocated⟩ rfl new0 n.name p1
      obtain ⟨u,last,ports',_⟩ := initializePort_new (n := t) ⟨p1,some (n.allocated+1)⟩ rfl
        (by rw [objects _ next.symm]; exact new1) t.name p0
      refine ⟨.ok,⟨p0,some n.allocated⟩,⟨p1,some (n.allocated+1)⟩,u,?_,.inr ⟨known0,?_,?_⟩⟩
      · unfold createPortPair
        rw [createUninitializedPort_some known0]
        simp only [createUninitializedPort_some known1,Option.bind_eq_bind,Option.pure_def]
        change (((n.withPort p0).withPort p1).initializePort ⟨p0,some n.allocated⟩ n.name p1).bind _ = _
        rw [first]
        simp only [Option.bind_some,ne_eq,not_true_eq_false,if_false]
        change (t.initializePort ⟨p1,some (n.allocated+1)⟩ t.name p0).bind _ = _
        rw [last]
        rfl
      · have distinct := (second.mp known1).1
        rw [ports',ports,withPort,Table.lookup_insert,if_neg distinct]
        exact added
      · exact ⟨fun _ => second.mp known1,fun _ => rfl⟩
    · have ran := createUninitializedPort_known known1
      refine ⟨.errorPortExists,⟨p0,some n.allocated⟩,.create,(n.withPort p0).spent,?_,.inr ⟨known0,?_,?_⟩⟩
      · unfold createPortPair
        rw [createUninitializedPort_some known0]
        dsimp only
        rw [ran]
      · exact added
      · rw [← second]
        exact ⟨fun same => Result.noConfusion same,fun unknown => absurd unknown known1⟩
  · refine ⟨.errorPortExists,.create,.create,n.spent,?_,.inl ⟨known0,rfl,?_⟩⟩
    · unfold createPortPair
      rw [createUninitializedPort_known known0]
    · exact ⟨fun _ => rfl,rfl,fun p old => Function.update_of_ne (Nat.ne_of_lt old) _ _⟩

end Creating

section Operations

inductive Operation
  | addPortWithName (portName : PortName) (port : PortPtr)
  | initializePort (portRef : PortRef) (peerNodeName : NodeName) (peerPortName : PortName)
  | createPortPair (name0 name1 : PortName)
  | mergePorts (portRef : PortRef) (destinationNodeName : NodeName) (destinationPortName : PortName)

def operate (n : Node) : Operation → Option (Result × Node)
  | .addPortWithName portName port => some (n.addPortWithName portName port)
  | .initializePort portRef peerNodeName peerPortName => n.initializePort portRef peerNodeName peerPortName
  | .createPortPair name0 name1 => do
    let (r,_,_,n) ← n.createPortPair name0 name1
    return (r,n)
  | .mergePorts portRef destinationNodeName destinationPortName => do
    let (r,_,n) ← n.mergePorts portRef destinationNodeName destinationPortName
    return (r,n)

/-- An operation that returns an error has changed nothing. -/
def AtomicAt (n : Node) (o : Operation) : Prop := ∀ r t, n.operate o = some (r,t) → r ≠ .ok → Unchanged n t

/-- The operation succeeds, or has nothing to change before the check that fails: the port
has no peer yet or is entered under it, the first name of a pair is in use, the port to be
merged is not in the table. -/
def Harmless (n : Node) : Operation → Prop
  | .addPortWithName portName port =>
    n.ports.lookup portName = none ∨ (n.objects port).peerPortName = kInvalidPortName ∨
      n.peerEntry (n.objects port).peerNodeName (n.objects port).peerPortName portName ≠ none
  | .initializePort _ _ _ => True
  | .createPortPair name0 name1 => n.ports.lookup name0 ≠ none ∨ (name0 ≠ name1 ∧ n.ports.lookup name1 = none)
  | .mergePorts portRef _ _ =>
    n.ports.lookup portRef.name = none ∨ ∀ remotePort, portRef.port = some remotePort →
      (n.objects remotePort).peerPortName ≠ portRef.name ∧
        n.ports.lookup (n.objects remotePort).peerPortName ≠ none

variable {n : Node}

/-- With the outcome of an operation known, atomicity is about that outcome. -/
theorem atomicAt_some {o : Operation} {r : Result} {t : Node} (ran : n.operate o = some (r,t)) :
    n.AtomicAt o ↔ (r ≠ .ok → Unchanged n t) := by
  refine ⟨fun atomic => atomic r t ran,fun unchanged r' t' ran' => ?_⟩
  cases ran.symm.trans ran'
  exact unchanged

theorem addPortWithName_atomic (portName : PortName) (port : PortPtr) :
    n.AtomicAt (.addPortWithName portName port) ↔ n.Harmless (.addPortWithName portName port) := by
  change _ ↔ n.ports.lookup portName = none ∨ (n.objects port).peerPortName = kInvalidPortName ∨
    n.peerEntry (n.objects port).peerNodeName (n.objects port).peerPortName portName ≠ none
  by_cases known : n.ports.lookup portName = none
  · have ok : (n.addPortWithName portName port).1 = .ok := addPortWithName_unknown port known
    rw [atomicAt_some (r := (n.addPortWithName portName port).1) rfl]
    exact ⟨fun _ => .inl known,fun _ error => absurd ok error⟩
  · by_cases unset : (n.objects port).peerPortName = kInvalidPortName
    · have ran : n.operate (.addPortWithName portName port) = some (.errorPortExists,n) :=
        congrArg some (addPortWithName_known port unset known)
      rw [atomicAt_some ran]
      exact ⟨fun _ => .inr (.inl unset),fun _ _ => .refl n⟩
    · obtain ⟨held,found⟩ := Option.ne_none_iff_exists'.mp known
      have ran : n.operate (.addPortWithName portName port) = some (.errorPortExists,
          n.emplacePeer (n.objects port).peerNodeName (n.objects port).peerPortName ⟨portName,some port⟩) := by
        simp only [operate,addPortWithName,unset,ne_eq,not_false_eq_true,if_true,emplacePeer,found]
      rw [atomicAt_some ran]
      constructor
      · intro atomic
        have same := atomic (fun same => Result.noConfusion same)
        have entry := same.peerEntry (n.objects port).peerNodeName (n.objects port).peerPortName portName
        rw [peerEntry_emplacePeer,if_pos ⟨rfl,rfl,rfl⟩] at entry
        refine .inr (.inr ?_)
        rw [← entry]
        exact Option.some_ne_none _
      · intro harmless _
        have there := (harmless.resolve_left known).resolve_left unset
        exact ⟨fun _ => rfl,peerMaps_emplacePeer there,fun _ _ => rfl⟩

theorem initializePort_atomic (portRef : PortRef) (node : NodeName) (port : PortName) :
    n.AtomicAt (.initializePort portRef node port) := by
  intro r t ran error
  simp only [operate,initializePort,Option.bind_eq_bind,Option.pure_def] at ran
  obtain ⟨ptr,_,rest⟩ := Option.bind_eq_some_iff.mp ran
  split at rest
  · cases rest
    exact .refl n
  · cases rest
    exact absurd rfl error

theorem createPortPair_atomic (name0 name1 : PortName) :
    n.AtomicAt (.createPortPair name0 name1) ↔ n.Harmless (.createPortPair name0 name1) := by
  obtain ⟨r,port0,port1,t,ran,cases⟩ := createPortPair_cases n name0 name1
  have ran' : n.operate (.createPortPair name0 name1) = some (r,t) := by
    rw [operate,ran]
    rfl
  rw [atomicAt_some ran']
  rcases cases with ⟨known,_,same⟩ | ⟨unknown,added,succeeds⟩
  · exact ⟨fun _ => .inl known,fun _ _ => same⟩
  · constructor
    · intro atomic
      by_contra neither
      have error : r ≠ .ok := fun ok => neither (.inr (succeeds.mp ok))
      exact added (((atomic error).ports name0).trans unknown)
    · intro either error
      exact absurd (succeeds.mpr (either.resolve_left (not_not_intro unknown))) error

theorem mergePorts_atomic (portRef : PortRef) (node : NodeName) (port : PortName) :
    n.AtomicAt (.mergePorts portRef node port) ↔ n.Harmless (.mergePorts portRef node port) := by
  obtain ⟨name,object⟩ := portRef
  cases object with
  | none => exact ⟨fun _ => .inr fun _ same => absurd same.symm (Option.some_ne_none _),
      fun _ _ _ ran => absurd ran.symm (Option.some_ne_none _)⟩
  | some remotePort =>
    have merged : n.Harmless (.mergePorts ⟨name,some remotePort⟩ node port) ↔
        n.ports.lookup name = none ∨ (n.erasePort name).ports.lookup (n.objects remotePort).peerPortName ≠ none := by
      rw [ne_eq,erasePort_peerGone,not_not]
      exact or_congr_right ⟨fun peer => peer remotePort rfl,fun peer _ same => Option.some.inj same ▸ peer⟩
    rw [merged]
    cases found : (n.erasePort name).ports.lookup (n.objects remotePort).peerPortName with
    | none =>
      have ran : n.operate (.mergePorts ⟨name,some remotePort⟩ node port) =
          some (.errorPortUnknown,n.erasePort name) := by
        rw [operate,mergePorts_peerGone rfl found]
        rfl
      rw [atomicAt_some ran]
      constructor
      · intro atomic
        have same := (atomic (fun same => Result.noConfusion same)).ports name
        rw [erasePort,Table.lookup_erase,if_pos rfl] at same
        exact .inl same.symm
      · intro harmless _
        have absent := harmless.resolve_right (not_not_intro rfl)
        rw [erasePort,Table.erase_unknown absent]
        exact .refl n
    | some localPort =>
      refine ⟨fun _ => .inr (Option.some_ne_none _),fun _ r t ran error => ?_⟩
      rw [operate,mergePorts_peerThere rfl found] at ran
      cases localPort with
      | none => exact absurd ran.symm (Option.some_ne_none _)
      | some localPort =>
        cases ran
        exact absurd rfl error

/-- Each operation is atomic exactly where it succeeds or has changed nothing before the
check that fails. -/
theorem atomicAt_iff (n : Node) (o : Operation) : n.AtomicAt o ↔ n.Harmless o := by
  cases o with
  | addPortWithName portName port => exact addPortWithName_atomic portName port
  | initializePort portRef node port => exact ⟨fun _ => trivial,fun _ => initializePort_atomic portRef node port⟩
  | createPortPair name0 name1 => exact createPortPair_atomic name0 name1
  | mergePorts portRef node port => exact mergePorts_atomic portRef node port

/-- A port whose peer was closed is gone after a merge that is ignored. -/
theorem not_atomicAt_closedPeer : ¬∀ (n : Node) (o : Operation), n.AtomicAt o := by
  let paired := ((create ⟨9,9⟩).createPortPair ⟨1,1⟩ ⟨2,2⟩).bind fun (_,_,port1,n) => n.closePort port1
  intro atomic
  have there : paired.map (fun n => (n.ports.lookup ⟨1,1⟩,(n.objects 0).peerPortName,n.ports.lookup ⟨2,2⟩)) =
      some (some (some 0),⟨2,2⟩,none) := by decide +kernel
  obtain ⟨n,_,there⟩ := Option.map_eq_some_iff.mp there
  simp only [Prod.mk.injEq] at there
  obtain ⟨known,peer,closed⟩ := there
  rcases mergePorts_atomic ⟨⟨1,1⟩,some 0⟩ ⟨7,7⟩ ⟨8,8⟩ |>.mp (atomic n _) with absent | kept
  · exact absurd (known.symm.trans absent) (Option.some_ne_none _)
  · refine (kept 0 rfl).2 ?_
    rw [peer]
    exact closed

end Operations

end MojoImpl.Ports.Node
