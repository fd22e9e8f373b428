import MojoImpl.Invitation.System
import MojoImpl.Ports.Wired

/-! What the calls of one party keep. Every port has one use at a time: it may be behind a
handle, attached to an invitation, reserved for the invitee, or be the mate of a port that
the inviter was asked to merge. -/
namespace MojoImpl.Invitation
open Foundation MojoImpl.Ports

inductive Use
  | front
  | attached (invitation : MojoHandle) (name : List UInt8)
  | reserved (name : List UInt8)
  | asked

/-- Handles are below the counter until it has come round. -/
def Counted (s : Core) : Prop :=
  ∀ h d, s.handles.lookup h = some d → s.nextAvailableHandle = 0 ∨ h < s.nextAvailableHandle

section Handles

theorem lt_succ_of_lt {h n : UInt64} (below : h < n ∨ h = n) : n+1 = 0 ∨ h < n+1 := by
  by_cases round : n+1 = 0
  · exact .inl round
  · refine .inr (UInt64.lt_iff_toNat_lt.mpr ?_)
    have bound := n.toNat_lt
    have small : n.toNat+1 < 2^64 := by
      by_contra large
      apply round
      apply UInt64.toNat_inj.mp
      rw [UInt64.toNat_add]
      have full : n.toNat+1 = 2^64 := by omega
      simp [full]
    rw [UInt64.toNat_add]
    simp only [UInt64.toNat_one,Nat.mod_eq_of_lt small]
    obtain lower | rfl := below
    · exact Nat.lt_succ_of_lt (UInt64.lt_iff_toNat_lt.mp lower)
    · exact Nat.lt_succ_self _

theorem addDispatcher_cases {s : Core} (counted : Counted s) (d : Dispatcher) :
    s.addDispatcher d = (MOJO_HANDLE_INVALID,s) ∨
      (s.nextAvailableHandle ≠ MOJO_HANDLE_INVALID ∧ s.handles.lookup s.nextAvailableHandle = none ∧
        s.addDispatcher d = (s.nextAvailableHandle,{ s with
          nextAvailableHandle := s.nextAvailableHandle+1
          handles := s.handles.insert s.nextAvailableHandle d })) := by
  by_cases round : s.nextAvailableHandle = MOJO_HANDLE_INVALID
  · exact .inl (if_pos round)
  · have absent : s.handles.lookup s.nextAvailableHandle = none := by
      apply Option.eq_none_iff_forall_not_mem.mpr
      intro d found
      obtain zero | below := counted _ d found
      · exact round zero
      · exact absurd below (UInt64.lt_irrefl _)
    refine .inr ⟨round,absent,?_⟩
    unfold Core.addDispatcher
    simp only [if_neg round,absent]

theorem counted_insert {s : Core} (counted : Counted s)
    (left : s.nextAvailableHandle ≠ MOJO_HANDLE_INVALID) (d : Dispatcher) :
    Counted { s with
      nextAvailableHandle := s.nextAvailableHandle+1
      handles := s.handles.insert s.nextAvailableHandle d } := by
  intro h d' found
  rw [Table.lookup_insert] at found
  apply lt_succ_of_lt
  split at found
  · next same => exact .inr same
  · obtain zero | below := counted h d' found
    · exact absurd zero left
    · exact .inl below

theorem portOf_some {p : Party} {h : MojoHandle} {ref : PortRef} :
    p.portOf h = some ref ↔ p.core.handles.lookup h = some (.messagePipe ref) := by
  unfold Party.portOf Core.getDispatcher
  split
  · next port found => rw [found]; simp
  · next other =>
    constructor
    · intro none
      contradiction
    · intro found
      exact absurd found (other ref)

end Handles

/-- What holds of a party after any calls, given the uses of its ports. -/
structure Kept (p : Party) (use : PortName → Use) : Prop where
  wired : p.node.Wired
  counted : Counted p.core
  pipes : ∀ h ref, p.portOf h = some ref → p.node.Holds ref ∧ use ref.name = .front
  attachments : ∀ h m name ref, p.core.handles.lookup h = some (.invitation m) →
    m.lookup name = some ref → p.node.Holds ref ∧ use ref.name = .attached h name ∧
      ∃ h' front, p.attached h name = some h' ∧ p.portOf h' = some front ∧
        p.node.peerOf ref.name = some (p.node.name,front.name)
  requests : ∀ r ∈ p.requests, use r.port = .front ∧
    (r.handle = MOJO_HANDLE_INVALID ∨ ∃ ref, p.portOf r.handle = some ref ∧ ref.name = r.port) ∧
    (∃ addr, p.node.peerOf r.port = some addr) ∧
    ∀ mate, p.node.peerOf r.port = some (p.node.name,mate) → use mate = .asked

/-- The party has what it had, and perhaps more handles and new pairs of ports. -/
structure Grows (p t : Party) (use use' : PortName → Use) : Prop where
  controller : t.core.controller = { p.core.controller with node := t.node }
  name : t.node.name = p.node.name
  peers : ∀ x addr, p.node.peerOf x = some addr → t.node.peerOf x = some addr
  added : ∀ x addr, t.node.peerOf x = some addr → p.node.peerOf x = some addr ∨ addr.1 = p.node.name
  holds : ∀ ref, p.node.Holds ref → t.node.Holds ref
  ports : ∀ h ref, p.portOf h = some ref → t.portOf h = some ref
  reserved : ∀ x name, p.node.peerOf x ≠ none → use x = .reserved name → use' x = .reserved name
  requests : t.requests = p.requests

structure Extends (p t : Party) (use use' : PortName → Use) : Prop extends Grows p t use use' where
  queues : ∀ x, t.node.queueOf x = p.node.queueOf x
  written : t.written = p.written
  read : t.read = p.read

theorem Grows.trans {p q t : Party} {use use' use'' : PortName → Use} (first : Grows p q use use')
    (second : Grows q t use' use'') : Grows p t use use'' where
  controller := by rw [second.controller,first.controller]
  name := second.name.trans first.name
  peers x addr found := second.peers x addr (first.peers x addr found)
  added x addr found := by
    obtain old | new := second.added x addr found
    · exact first.added x addr old
    · exact .inr (new.trans first.name)
  holds ref held := second.holds ref (first.holds ref held)
  ports h ref found := second.ports h ref (first.ports h ref found)
  reserved x name live same := by
    obtain ⟨addr,found⟩ := Option.ne_none_iff_exists'.mp live
    exact second.reserved x name (by simp [first.peers x addr found]) (first.reserved x name live same)
  requests := second.requests.trans first.requests

namespace Extends

theorem refl (p : Party) (use : PortName → Use) : Extends p p use use :=
  ⟨⟨rfl,rfl,fun _ _ found => found,fun _ _ found => .inl found,fun _ held => held,
    fun _ _ found => found,fun _ _ _ same => same,rfl⟩,fun _ => rfl,rfl,rfl⟩

theorem trans {p q t : Party} {use use' use'' : PortName → Use} (first : Extends p q use use')
    (second : Extends q t use' use'') : Extends p t use use'' where
  toGrows := first.toGrows.trans second.toGrows
  queues x := (second.queues x).trans (first.queues x)
  written := second.written.trans first.written
  read := second.read.trans first.read

end Extends

section Pieces
variable {p : Party} {use : PortName → Use}

theorem Kept.congr (kept : Kept p use) {t : Party} (node : t.node = p.node)
    (handles : t.core.handles = p.core.handles)
    (next : t.core.nextAvailableHandle = p.core.nextAvailableHandle) (attached : t.attached = p.attached)
    (requests : t.requests = p.requests) : Kept t use := by
  have ports (h : MojoHandle) : t.portOf h = p.portOf h := by
    unfold Party.portOf Core.getDispatcher
    rw [handles]
  refine ⟨?_,?_,?_,?_,?_⟩
  · exact node ▸ kept.wired
  · intro h d found
    rw [handles] at found
    rw [next]
    exact kept.counted h d found
  · intro h ref behind
    rw [ports] at behind
    exact node ▸ kept.pipes h ref behind
  · intro h m name ref found entry
    rw [handles] at found
    rw [node,attached]
    obtain ⟨held,used,h',front,answer,behind,peer⟩ := kept.attachments h m name ref found entry
    exact ⟨held,used,h',front,answer,(ports h').trans behind,peer⟩
  · intro r member
    rw [requests] at member
    rw [node,ports]
    exact kept.requests r member

theorem Kept.setQueue (kept : Kept p use) (ptr : PortPtr) (queue : MessageQueue) :
    Kept (p.withController { p.core.controller with node := p.node.setQueue ptr queue }) use ∧
      Grows p (p.withController { p.core.controller with node := p.node.setQueue ptr queue }) use use := by
  have peers := Node.peerOf_setQueue p.node ptr queue
  refine ⟨⟨kept.wired.setQueue ptr queue,kept.counted,kept.pipes,?_,?_⟩,rfl,rfl,?_,?_,
    fun _ held => held,fun _ _ behind => behind,fun _ _ _ same => same,rfl⟩
  · intro h m name ref found entry
    obtain ⟨held,used,h',front,answer,behind,peer⟩ := kept.attachments h m name ref found entry
    exact ⟨held,used,h',front,answer,behind,(peers _).trans peer⟩
  · intro r member
    obtain ⟨used,handle,⟨addr,live⟩,mates⟩ := kept.requests r member
    exact ⟨used,handle,⟨addr,(peers _).trans live⟩,fun mate peer => mates mate ((peers _).symm.trans peer)⟩
  · intro x addr found
    exact (peers x).trans found
  · intro x addr found
    exact .inl ((peers x).symm.trans found)

theorem Kept.live {ref : PortRef} {h : MojoHandle} (kept : Kept p use) (found : p.portOf h = some ref) :
    p.node.peerOf ref.name ≠ none := by
  obtain ⟨addr,peer⟩ := (kept.pipes h ref found).1.peer
  simp [peer]

/-- A dispatcher that is added is behind its handle, if there is one, and changes no other. -/
def Party.addDispatcher (p : Party) (d : Dispatcher) : Party :=
  { p with core := (p.core.addDispatcher d).2 }

theorem addDispatcher_lookup (counted : Counted p.core) (d : Dispatcher) :
    Counted (p.addDispatcher d).core ∧ (p.addDispatcher d).core.controller = p.core.controller ∧
      ∀ h d', (p.addDispatcher d).core.handles.lookup h = some d' ↔
        p.core.handles.lookup h = some d' ∨ (h = (p.core.addDispatcher d).1 ∧ d' = d ∧
          h ≠ MOJO_HANDLE_INVALID) := by
  unfold Party.addDispatcher
  obtain full | ⟨left,absent,added⟩ := addDispatcher_cases counted d
  · rw [full]
    refine ⟨counted,rfl,fun h d' => ⟨.inl,?_⟩⟩
    rintro (old | ⟨zero,_,valid⟩)
    · exact old
    · exact absurd zero valid
  · rw [added]
    refine ⟨counted_insert counted left d,rfl,fun h d' => ?_⟩
    dsimp only
    rw [Table.lookup_insert]
    split
    · next same =>
      subst same
      rw [absent]
      simp [left,eq_comm]
    · next other => simp [other]

theorem Kept.addDispatcher (kept : Kept p use) {d : Dispatcher}
    (pipe : ∀ ref, d = .messagePipe ref → p.node.Holds ref ∧ use ref.name = .front)
    (empty : ∀ m, d = .invitation m → ∀ name, m.lookup name = none) :
    Kept (p.addDispatcher d) use ∧ Extends p (p.addDispatcher d) use use ∧
      ∀ ref, d = .messagePipe ref → (p.core.addDispatcher d).1 ≠ MOJO_HANDLE_INVALID →
        (p.addDispatcher d).portOf (p.core.addDispatcher d).1 = some ref := by
  obtain ⟨counted,controller,handles⟩ := addDispatcher_lookup kept.counted d
  have node : (p.addDispatcher d).node = p.node := congrArg NodeController.node controller
  have ports (h : MojoHandle) (ref : PortRef) (found : p.portOf h = some ref) :
      (p.addDispatcher d).portOf h = some ref :=
    portOf_some.mpr ((handles h _).mpr (.inl (portOf_some.mp found)))
  refine ⟨⟨?_,counted,?_,?_,?_⟩,⟨⟨?_,?_,?_,?_,?_,ports,fun _ _ _ same => same,rfl⟩,?_,rfl,rfl⟩,?_⟩
  · exact node ▸ kept.wired
  · intro h ref found
    rw [node]
    obtain old | ⟨_,same,_⟩ := (handles h _).mp (portOf_some.mp found)
    · exact kept.pipes h ref (portOf_some.mpr old)
    · exact pipe ref same.symm
  · intro h m name ref found entry
    rw [node]
    obtain old | ⟨_,same,_⟩ := (handles h _).mp found
    · obtain ⟨held,used,h',front,answer,behind,peer⟩ := kept.attachments h m name ref old entry
      exact ⟨held,used,h',front,answer,ports h' front behind,peer⟩
    · rw [empty m same.symm name] at entry
      contradiction
  · intro r member
    obtain ⟨used,handle,live,mates⟩ := kept.requests r member
    rw [node]
    refine ⟨used,?_,live,mates⟩
    obtain zero | ⟨ref,behind,same⟩ := handle
    · exact .inl zero
    · exact .inr ⟨ref,ports _ ref behind,same⟩
  · rw [controller]
    exact congrArg (fun node => { p.core.controller with node := node }) node.symm
  · rw [node]
  · intro x addr found
    rw [node,found]
  · intro x addr found
    rw [node] at found
    exact .inl found
  · intro ref held
    rw [node]
    exact held
  · intro x
    rw [node]
  · intro ref same valid
    exact portOf_some.mpr ((handles _ _).mpr (.inr ⟨rfl,same.symm,valid⟩))

/-- Merging takes out a port that no handle has, and turns its mate to another node. -/
theorem Kept.rejoin (kept : Kept p use) {p0 p1 port : PortName} {ptr0 ptr1 : PortPtr} {node : NodeName}
    {t : Node} (mates : Node.Mates p.node p0 ptr0 p1 ptr1)
    (effect : Node.Rejoins p.node t p0 ptr0 p1 node port) (remote : node ≠ p.node.name)
    (hidden : use p1 ≠ .front) (loose : ∀ h name, use p1 ≠ .attached h name) :
    Kept (p.withController { p.core.controller with node := t }) use := by
  have peers := effect.peerOf kept.wired mates
  have shown (ref : PortRef) (h : MojoHandle) (behind : p.portOf h = some ref) : ref.name ≠ p1 := by
    intro same
    exact hidden (same ▸ (kept.pipes h ref behind).2)
  refine ⟨effect.wired kept.wired mates remote,kept.counted,?_,?_,?_⟩
  · intro h ref behind
    obtain ⟨held,front⟩ := kept.pipes h ref behind
    exact ⟨effect.holds held (shown ref h behind),front⟩
  · intro h m name ref found entry
    obtain ⟨held,used,h',front,answer,behind,peer⟩ := kept.attachments h m name ref found entry
    have other : ref.name ≠ p1 := fun same => loose h name (same ▸ used)
    have other' : ref.name ≠ p0 := by
      intro same
      rw [same,mates.peer] at peer
      exact shown front h' behind (congrArg Prod.snd (Option.some.inj peer)).symm
    refine ⟨effect.holds held other,used,h',front,answer,behind,?_⟩
    change t.peerOf ref.name = some (t.name,front.name)
    rw [peers,if_neg other,if_neg other',peer,effect.name]
  · intro r member
    obtain ⟨used,handle,⟨addr,live⟩,asked⟩ := kept.requests r member
    have other : r.port ≠ p1 := fun same => hidden (same ▸ used)
    refine ⟨used,handle,?_,?_⟩
    · change ∃ addr, t.peerOf r.port = some addr
      rw [peers,if_neg other]
      split
      · exact ⟨_,rfl⟩
      · exact ⟨addr,live⟩
    · intro mate peer
      change t.peerOf r.port = some (t.name,mate) at peer
      rw [peers,if_neg other,effect.name] at peer
      split at peer
      · exact absurd (congrArg Prod.fst (Option.some.inj peer)) remote
      · exact asked mate peer

def Party.setAttached (p : Party) (invitation : MojoHandle) (attachedPorts : PortMap)
    (attached : MojoHandle → List UInt8 → Option MojoHandle) : Party :=
  { p with core := p.core.setAttachedPorts invitation attachedPorts, attached := attached }

theorem portOf_setAttached {invitation : MojoHandle} {m : PortMap}
    (found : p.core.handles.lookup invitation = some (.invitation m)) (m' : PortMap)
    (attached : MojoHandle → List UInt8 → Option MojoHandle) (h : MojoHandle) (ref : PortRef) :
    (p.setAttached invitation m' attached).portOf h = some ref ↔ p.portOf h = some ref := by
  rw [portOf_some,portOf_some]
  unfold Party.setAttached Core.setAttachedPorts
  dsimp only
  rw [Table.lookup_insert]
  split
  · next same =>
    rw [same,found]
    simp
  · rfl

theorem Kept.setAttached (kept : Kept p use) {invitation : MojoHandle} {m m' : PortMap}
    (found : p.core.handles.lookup invitation = some (.invitation m)) {use' : PortName → Use}
    {attached : MojoHandle → List UInt8 → Option MojoHandle}
    (fronts : ∀ x, use x = .front → use' x = .front)
    (askeds : ∀ x, use x = .asked → use' x = .asked)
    (others : ∀ x h name, h ≠ invitation → use x = .attached h name → use' x = .attached h name)
    (answers : ∀ h, h ≠ invitation → attached h = p.attached h)
    (own : ∀ name ref, m'.lookup name = some ref → p.node.Holds ref ∧
      use' ref.name = .attached invitation name ∧
      ∃ h' front, attached invitation name = some h' ∧ p.portOf h' = some front ∧
        p.node.peerOf ref.name = some (p.node.name,front.name)) :
    Kept (p.setAttached invitation m' attached) use' := by
  have ports := portOf_setAttached found m' attached
  have handles (h : MojoHandle) (d : Dispatcher) (inserted :
      (p.setAttached invitation m' attached).core.handles.lookup h = some d) :
      (h = invitation ∧ d = .invitation m') ∨ (h ≠ invitation ∧ p.core.handles.lookup h = some d) := by
    unfold Party.setAttached Core.setAttachedPorts at inserted
    dsimp only at inserted
    rw [Table.lookup_insert] at inserted
    split at inserted
    · next same => exact .inl ⟨same,(Option.some.inj inserted).symm⟩
    · next other => exact .inr ⟨other,inserted⟩
  refine ⟨kept.wired,?_,?_,?_,?_⟩
  · intro h d inserted
    obtain ⟨same,_⟩ | ⟨_,old⟩ := handles h d inserted
    · exact kept.counted h _ (same ▸ found)
    · exact kept.counted h d old
  · intro h ref behind
    obtain ⟨held,front⟩ := kept.pipes h ref ((ports h ref).mp behind)
    exact ⟨held,fronts _ front⟩
  · intro h m'' name ref inserted entry
    obtain ⟨rfl,same⟩ | ⟨other,old⟩ := handles h _ inserted
    · cases same
      obtain ⟨held,used,h',front,answer,behind,peer⟩ := own name ref entry
      exact ⟨held,used,h',front,answer,(ports h' front).mpr behind,peer⟩
    · obtain ⟨held,used,h',front,answer,behind,peer⟩ := kept.attachments h m'' name ref old entry
      refine ⟨held,others _ _ _ other used,h',front,?_,(ports h' front).mpr behind,peer⟩
      exact (congrFun (answers h other) name).trans answer
  · intro r member
    obtain ⟨used,handle,live,mates⟩ := kept.requests r member
    refine ⟨fronts _ used,?_,live,fun mate peer => askeds _ (mates mate peer)⟩
    obtain zero | ⟨ref,behind,same⟩ := handle
    · exact .inl zero
    · exact .inr ⟨ref,(ports _ ref).mpr behind,same⟩

theorem extends_setAttached {invitation : MojoHandle} {m : PortMap}
    (found : p.core.handles.lookup invitation = some (.invitation m)) (m' : PortMap)
    (attached : MojoHandle → List UInt8 → Option MojoHandle) {use' : PortName → Use}
    (reserved : ∀ x name, use x = .reserved name → use' x = .reserved name) :
    Extends p (p.setAttached invitation m' attached) use use' where
  controller := rfl
  name := rfl
  peers _ _ found := found
  added _ _ found := .inl found
  holds _ held := held
  queues _ := rfl
  ports h ref behind := (portOf_setAttached found m' attached h ref).mpr behind
  reserved x name _ same := reserved x name same
  requests := rfl
  written := rfl
  read := rfl

def Party.withNode (p : Party) (node : Node) : Party := { p with core := p.core.withNode node }

/-- The uses once a pair of ports has been made. -/
def pairUse (use : PortName → Use) (name0 name1 : PortName) (back : Use) : PortName → Use :=
  Function.update (Function.update use name0 .front) name1 back

theorem pairUse_other {name0 name1 : PortName} {back : Use} {x : PortName} (not0 : x ≠ name0)
    (not1 : x ≠ name1) : pairUse use name0 name1 back x = use x := by
  rw [pairUse,Function.update_of_ne not1,Function.update_of_ne not0]

theorem Kept.withNode (kept : Kept p use) {t : Node} {name0 name1 : PortName}
    (effect : Node.Paired p.node t name0 name1) (unused0 : p.node.Unused name0)
    (unused1 : p.node.Unused name1) (distinct : name0 ≠ name1) (back : Use) :
    Kept (p.withNode t) (pairUse use name0 name1 back) ∧
      Extends p (p.withNode t) use (pairUse use name0 name1 back) := by
  have peers := effect.peerOf kept.wired distinct
  -- a port that has a peer is not one of the new ones
  have older (x : PortName) (live : p.node.peerOf x ≠ none) : x ≠ name0 ∧ x ≠ name1 := by
    obtain ⟨addr,peer⟩ := Option.ne_none_iff_exists'.mp live
    obtain ⟨ptr,found,_⟩ := Node.peerOf_some.mp peer
    obtain ⟨not0,not1,_⟩ := effect.older_live kept.wired unused0 unused1 found
    exact ⟨not0,not1⟩
  have same (x : PortName) (live : p.node.peerOf x ≠ none) : t.peerOf x = p.node.peerOf x := by
    obtain ⟨not0,not1⟩ := older x live
    rw [peers,if_neg not0,if_neg not1]
  have uses (x : PortName) (live : p.node.peerOf x ≠ none) :
      pairUse use name0 name1 back x = use x := by
    obtain ⟨not0,not1⟩ := older x live
    exact pairUse_other not0 not1
  have holds (ref : PortRef) (held : p.node.Holds ref) : t.Holds ref ∧ p.node.peerOf ref.name ≠ none := by
    obtain ⟨addr,peer⟩ := held.peer
    exact ⟨effect.holds kept.wired unused0 unused1 held,by simp [peer]⟩
  constructor
  · refine ⟨effect.wired kept.wired unused0 unused1 distinct,kept.counted,?_,?_,?_⟩
    · intro h ref behind
      obtain ⟨held,front⟩ := kept.pipes h ref behind
      obtain ⟨held',live⟩ := holds ref held
      exact ⟨held',(uses _ live).trans front⟩
    · intro h m name ref found entry
      obtain ⟨held,used,h',front,answer,behind,peer⟩ := kept.attachments h m name ref found entry
      obtain ⟨held',live⟩ := holds ref held
      refine ⟨held',(uses _ live).trans used,h',front,answer,behind,?_⟩
      exact (same _ live).trans (by rw [peer]; exact congrArg (fun n => some (n,front.name)) effect.name.symm)
    · intro r member
      obtain ⟨used,handle,⟨addr,live⟩,mates⟩ := kept.requests r member
      have some_peer : p.node.peerOf r.port ≠ none := by simp [live]
      refine ⟨(uses _ some_peer).trans used,handle,⟨addr,(same _ some_peer).trans live⟩,?_⟩
      intro mate peer
      have peer' : p.node.peerOf r.port = some (p.node.name,mate) := by
        rw [← same _ some_peer]
        exact peer.trans (congrArg (fun n => some (n,mate)) effect.name)
      have back : p.node.peerOf mate ≠ none := by simp [kept.wired.mutual peer']
      exact (uses _ back).trans (mates mate peer')
  · refine ⟨⟨rfl,effect.name,?_,?_,fun ref held => (holds ref held).1,fun _ _ behind => behind,?_,rfl⟩,
      effect.queueOf kept.wired unused0 unused1 distinct,rfl,rfl⟩
    · intro x addr peer
      exact (same x (by simp [peer])).trans peer
    · intro x addr peer
      change t.peerOf x = some addr at peer
      rw [peers] at peer
      split at peer
      · exact .inr (congrArg Prod.fst (Option.some.inj peer)).symm
      · split at peer
        · exact .inr (congrArg Prod.fst (Option.some.inj peer)).symm
        · exact .inl peer
    · intro x name live used
      exact (uses x live).trans used

end Pieces

section Calls
variable {p : Party} {use : PortName → Use}

/-- What is left unused by a call that makes ports of these names, or none. -/
def Spares (p t : Party) (names : List Name) : Prop :=
  ∀ x, p.node.Unused x → t.node.allocated = p.node.allocated ∨ x ∉ names → t.node.Unused x

/-- A new pair of ports, the first of them behind a new handle if there is one. -/
structure Piped (p u : Party) (use use' : PortName → Use) (name0 name1 : PortName) (back : Use)
    (handle : MojoHandle) (ref0 ref1 : PortRef) : Prop where
  kept : Kept u use'
  extended : Extends p u use use'
  spares : Spares p u [name0,name1]
  attached : u.attached = p.attached
  invitations : ∀ h m, p.core.handles.lookup h = some (.invitation m) →
    u.core.handles.lookup h = some (.invitation m)
  names : ref0.name = name0 ∧ ref1.name = name1
  front : use' name0 = .front
  back : use' name1 = back
  held0 : u.node.Holds ref0
  held1 : u.node.Holds ref1
  peer0 : u.node.peerOf name0 = some (u.node.name,name1)
  peer1 : u.node.peerOf name1 = some (u.node.name,name0)
  behind : handle ≠ MOJO_HANDLE_INVALID → u.portOf handle = some ref0

theorem Piped.same {u : Party} {use' : PortName → Use} {name0 name1 : PortName} {back : Use}
    {handle : MojoHandle} {ref0 ref1 : PortRef}
    (piped : Piped p u use use' name0 name1 back handle ref0 ref1) : { p with core := u.core } = u := by
  obtain ⟨core,attached,requests,written,read⟩ := u
  have fields : p.attached = attached ∧ p.requests = requests ∧ p.written = written ∧ p.read = read :=
    ⟨piped.attached.symm,piped.extended.requests.symm,piped.extended.written.symm,
      piped.extended.read.symm⟩
  obtain ⟨rfl,rfl,rfl,rfl⟩ := fields
  rfl

theorem createPartialMessagePipe_piped (kept : Kept p use) {name0 name1 : PortName}
    (unused0 : p.node.Unused name0) (unused1 : p.node.Unused name1) (distinct : name0 ≠ name1)
    (valid0 : name0 ≠ kInvalidPortName) (valid1 : name1 ≠ kInvalidPortName) (back : Use) :
    ∃ t ref0 ref1, p.node.createPortPair name0 name1 = some (.ok,ref0,ref1,t) ∧
      Piped p ((p.withNode t).addDispatcher (.messagePipe ref0)) use (pairUse use name0 name1 back)
        name0 name1 back ((p.withNode t).core.addDispatcher (.messagePipe ref0)).1 ref0 ref1 := by
  obtain ⟨t,made,effect⟩ := Node.createPortPair_paired unused0 unused1 distinct valid0 valid1
  refine ⟨t,⟨name0,some p.node.allocated⟩,⟨name1,some (p.node.allocated+1)⟩,made,?_⟩
  obtain ⟨keptNode,extendsNode⟩ := kept.withNode effect unused0 unused1 distinct back
  have mates := effect.mates distinct
  have front : pairUse use name0 name1 back name0 = .front := by
    rw [pairUse,Function.update_of_ne distinct,Function.update_self]
  have holds0 : t.Holds ⟨name0,some p.node.allocated⟩ := ⟨_,rfl,mates.live0⟩
  have holds1 : t.Holds ⟨name1,some (p.node.allocated+1)⟩ := ⟨_,rfl,mates.live1⟩
  obtain ⟨keptPipe,extendsPipe,behind⟩ := keptNode.addDispatcher
    (d := .messagePipe ⟨name0,some p.node.allocated⟩)
    (fun ref same => by cases same; exact ⟨holds0,front⟩) (fun m same => by cases same)
  obtain ⟨_,controller,handles⟩ := addDispatcher_lookup keptNode.counted
    (.messagePipe ⟨name0,some p.node.allocated⟩)
  have node : ((p.withNode t).addDispatcher (.messagePipe ⟨name0,some p.node.allocated⟩)).node = t :=
    congrArg NodeController.node controller
  refine ⟨keptPipe,extendsNode.trans extendsPipe,?_,rfl,?_,⟨rfl,rfl⟩,front,?_,?_,?_,?_,?_,
    behind _ rfl⟩
  · intro x unused spared
    rw [node] at spared ⊢
    have absent : x ∉ [name0,name1] := by
      obtain same | absent := spared
      · rw [effect.allocated] at same
        omega
      · exact absent
    simp only [List.mem_cons,List.not_mem_nil,or_false,not_or] at absent
    exact effect.unused unused absent.1 absent.2
  · intro h m found
    exact (handles h _).mpr (.inl found)
  · rw [pairUse,Function.update_self]
  · rw [node]
    exact holds0
  · rw [node]
    exact holds1
  · rw [node]
    exact mates.peer
  · rw [node]
    exact mates.symm.peer

def Party.ask (p : Party) (name : List UInt8) (ref : PortRef) (handle : MojoHandle) : Party :=
  { p with
    core := { p.core with controller := p.core.controller.mergePortIntoInviter name ref }
    requests := p.requests ++ [⟨name,ref.name,handle⟩] }

theorem ask_node (p : Party) (name : List UInt8) (ref : PortRef) (handle : MojoHandle) :
    (p.ask name ref handle).node = p.node := by
  unfold Party.ask Party.node NodeController.mergePortIntoInviter
  dsimp only
  split <;> rfl

/-- What is asked for: a new port that is behind the handle, if there is one. -/
structure Asks (u : Party) (use : PortName → Use) (ref : PortRef) (handle : MojoHandle) : Prop where
  new : ∀ r ∈ u.requests, r.port ≠ ref.name
  front : use ref.name = .front
  behind : handle = MOJO_HANDLE_INVALID ∨ u.portOf handle = some ref
  mate : ∃ mate, u.node.peerOf ref.name = some (u.node.name,mate) ∧ use mate = .asked

theorem Kept.ask {u : Party} (kept : Kept u use) {ref : PortRef} {handle : MojoHandle}
    (asks : Asks u use ref handle) (name : List UInt8) : Kept (u.ask name ref handle) use := by
  have node := ask_node u name ref handle
  refine ⟨?_,kept.counted,?_,?_,?_⟩
  · exact node ▸ kept.wired
  · intro h ref behind
    rw [node]
    exact kept.pipes h ref behind
  · intro h m name ref found entry
    rw [node]
    exact kept.attachments h m name ref found entry
  · intro r member
    rw [node]
    obtain old | new := List.mem_append.mp member
    · exact kept.requests r old
    · cases List.mem_singleton.mp new
      obtain ⟨mate,peer,used⟩ := asks.mate
      refine ⟨asks.front,?_,⟨_,peer⟩,?_⟩
      · exact asks.behind.imp id fun behind => ⟨ref,behind,rfl⟩
      · intro mate' peer'
        rw [peer] at peer'
        cases peer'
        exact used

/-- The calls that make ports or handles: what they make, and whether the inviter is asked. -/
def Makes (p t : Party) (use : PortName → Use) (names : List Name) : Prop :=
  ∃ u use', Kept u use' ∧ Extends p u use use' ∧ Spares p u names ∧
    (t = u ∨ ∃ name ref handle, t = u.ask name ref handle ∧ Asks u use' ref handle)

theorem Makes.refl (kept : Kept p use) (names : List Name) : Makes p p use names :=
  ⟨p,use,kept,Extends.refl p use,fun _ unused _ => unused,.inl rfl⟩

theorem Makes.addDispatcher {u : Party} {use' : PortName → Use} (kept : Kept u use')
    (extended : Extends p u use use') (same : u.node = p.node) {d : Dispatcher}
    (pipe : ∀ ref, d = .messagePipe ref → u.node.Holds ref ∧ use' ref.name = .front)
    (empty : ∀ m, d = .invitation m → ∀ name, m.lookup name = none) (names : List Name) :
    Makes p (u.addDispatcher d) use names := by
  obtain ⟨kept',extends',_⟩ := kept.addDispatcher pipe empty
  have node : (u.addDispatcher d).node = p.node :=
    (congrArg NodeController.node (addDispatcher_lookup kept.counted d).2.1).trans same
  exact ⟨_,use',kept',extended.trans extends',fun _ unused _ => node ▸ unused,.inl rfl⟩

theorem createInvitation_makes (kept : Kept p use) {t : Party}
    (ran : p.call .createInvitation = some t) : Makes p t use [] := by
  cases ran
  exact Makes.addDispatcher kept (Extends.refl p use) rfl (d := .invitation ∅)
    (fun ref same => by cases same) (fun m same name => by cases same; rfl) []

theorem Kept.attach (kept : Kept p use) {invitation : MojoHandle} {m : PortMap}
    (found : p.core.handles.lookup invitation = some (.invitation m)) (name : List UInt8)
    {ref front : PortRef} {handle : MojoHandle} (held : p.node.Holds ref)
    (used : use ref.name = .attached invitation name) (behind : p.portOf handle = some front)
    (peer : p.node.peerOf ref.name = some (p.node.name,front.name)) :
    Kept (p.setAttached invitation (m.insert name ref)
      (Party.record p.attached invitation name (some handle))) use := by
  refine kept.setAttached found (fun _ same => same) (fun _ same => same) (fun _ _ _ _ same => same) ?_ ?_
  · intro h other
    rw [Party.record,Function.update_of_ne other]
  · intro name' ref' entry
    rw [Table.lookup_insert] at entry
    split at entry
    · next here =>
      cases entry
      subst here
      refine ⟨held,used,handle,front,?_,behind,peer⟩
      rw [Party.record,Function.update_self,Function.update_self]
    · next other =>
      obtain ⟨held,used,h',front,answer,behind,peer⟩ := kept.attachments invitation m name' ref' found entry
      refine ⟨held,used,h',front,?_,behind,peer⟩
      rw [Party.record,Function.update_self,Function.update_of_ne other]
      exact answer

theorem attach_makes (kept : Kept p use) {invitation : MojoHandle} {name : List UInt8}
    {name0 name1 : PortName} (unused0 : p.node.Unused name0) (unused1 : p.node.Unused name1)
    (distinct : name0 ≠ name1) (valid0 : name0 ≠ kInvalidPortName) (valid1 : name1 ≠ kInvalidPortName)
    {t : Party} (ran : p.call (.attach invitation name name0 name1) = some t) :
    Makes p t use [name0,name1] := by
  obtain ⟨⟨r,answer,core⟩,attached,same⟩ := Option.bind_eq_some_iff.mp ran
  cases same
  unfold Core.attachMessagePipeToInvitation Core.getDispatcher at attached
  split at attached
  · next m found =>
    obtain ⟨node,ref0,ref1,made,piped⟩ := createPartialMessagePipe_piped kept unused0 unused1 distinct
      valid0 valid1 (.attached invitation name)
    have pipe : p.core.createPartialMessagePipe name0 name1 =
        some (((p.withNode node).core.addDispatcher (.messagePipe ref0)).1,ref1,
          ((p.withNode node).addDispatcher (.messagePipe ref0)).core) := by
      unfold Core.createPartialMessagePipe
      change (p.node.createPortPair name0 name1).bind _ = _
      rw [made]
      rfl
    simp only [pipe,Option.bind_eq_bind,Option.bind_some] at attached
    generalize (p.withNode node).addDispatcher (.messagePipe ref0) = u at piped attached
    generalize ((p.withNode node).core.addDispatcher (.messagePipe ref0)).1 = handle at piped attached
    have same := piped.same
    have found' := piped.invitations invitation m found
    split at attached
    · cases attached
      exact ⟨u,_,piped.kept,piped.extended,piped.spares,.inl same⟩
    · next left =>
      split at attached
      · next m' added =>
        -- the name was free, and the new mate is attached under it
        cases attached
        cases taken : m.lookup name with
        | some ref => simp [Core.attachMessagePipe,taken] at added
        | none =>
          simp only [Core.attachMessagePipe,taken,Prod.mk.injEq,true_and] at added
          subst added
          have shape : { p with
              core := u.core.setAttachedPorts invitation (m.insert name ref1)
              attached := Party.record p.attached invitation name (some handle) } =
              u.setAttached invitation (m.insert name ref1)
                (Party.record u.attached invitation name (some handle)) := by
            rw [Party.setAttached,← piped.attached,← same]
          have attached := piped.kept.attach found' name piped.held1 (piped.names.2 ▸ piped.back)
            (piped.behind left) (by rw [piped.names.1,piped.names.2]; exact piped.peer1)
          exact ⟨_,_,attached,piped.extended.trans (extends_setAttached found' _ _ (fun _ _ same => same)),
            piped.spares,.inl shape⟩
      · next m' failed added =>
        -- the name was taken, and the new pipe has no way to the invitation
        cases attached
        have unchanged : m' = m := by
          unfold Core.attachMessagePipe at added
          split at added
          · exact (Prod.mk.inj added).2.symm
          · exact absurd (Prod.mk.inj added).1.symm failed
        subst unchanged
        have shape : { p with core := u.core.setAttachedPorts invitation m' } =
            u.setAttached invitation m' u.attached := by
          rw [Party.setAttached,← same]
        refine ⟨_,_,?_,piped.extended.trans (extends_setAttached found' _ _ (fun _ _ same => same)),piped.spares,.inl shape⟩
        exact piped.kept.setAttached found' (fun _ same => same) (fun _ same => same)
          (fun _ _ _ _ same => same) (fun _ _ => rfl)
          (fun name' ref entry => piped.kept.attachments invitation m' name' ref found' entry)
  · cases attached
    exact Makes.refl kept _

theorem extractMessagePipeFromInviter_asks (kept : Kept p use) {name : List UInt8}
    {name0 name1 : PortName} (unused0 : p.node.Unused name0) (unused1 : p.node.Unused name1)
    (distinct : name0 ≠ name1) (valid0 : name0 ≠ kInvalidPortName) (valid1 : name1 ≠ kInvalidPortName)
    {handle : MojoHandle} {core : Core}
    (ran : p.core.extractMessagePipeFromInviter name name0 name1 = some (handle,core)) :
    ∃ u use' ref, Kept u use' ∧ Extends p u use use' ∧ Spares p u [name0,name1] ∧
      { p with core := core, requests := p.requests ++ [⟨name,name0,handle⟩] } = u.ask name ref handle ∧
      Asks u use' ref handle := by
  obtain ⟨node,ref0,ref1,made,piped⟩ := createPartialMessagePipe_piped kept unused0 unused1 distinct
    valid0 valid1 .asked
  have pipe : p.core.extractMessagePipeFromInviter name name0 name1 =
      some (((p.withNode node).core.addDispatcher (.messagePipe ref0)).1,
        { ((p.withNode node).addDispatcher (.messagePipe ref0)).core with
          controller := ((p.withNode node).addDispatcher
            (.messagePipe ref0)).core.controller.mergePortIntoInviter name ref0 }) := by
    unfold Core.extractMessagePipeFromInviter
    change (p.node.createPortPair name0 name1).bind _ = _
    rw [made]
    rfl
  rw [pipe] at ran
  cases ran
  generalize (p.withNode node).addDispatcher (.messagePipe ref0) = u at piped
  generalize ((p.withNode node).core.addDispatcher (.messagePipe ref0)).1 = handle at piped
  refine ⟨u,_,ref0,piped.kept,piped.extended,piped.spares,?_,?_,?_,?_,?_⟩
  · have same := piped.same
    rw [Party.ask,← same,piped.names.1]
  · intro r member same
    rw [piped.extended.requests] at member
    obtain ⟨_,_,⟨addr,live⟩,_⟩ := kept.requests r member
    obtain ⟨ptr,found,_⟩ := Node.peerOf_some.mp live
    rw [same,piped.names.1,unused0.port] at found
    contradiction
  · rw [piped.names.1]
    exact piped.front
  · by_cases zero : handle = MOJO_HANDLE_INVALID
    · exact .inl zero
    · exact .inr (piped.behind zero)
  · rw [piped.names.1]
    exact ⟨name1,piped.peer0,piped.back⟩

/-- Out of the map, a port may be behind a handle. -/
theorem Kept.detach (kept : Kept p use) {invitation : MojoHandle} {m : PortMap} {name : List UInt8}
    {ref : PortRef} (found : p.core.handles.lookup invitation = some (.invitation m))
    (taken : m.lookup name = some ref) :
    Kept (p.setAttached invitation (m.erase name) p.attached) (Function.update use ref.name .front) ∧
      Extends p (p.setAttached invitation (m.erase name) p.attached) use (Function.update use ref.name .front) := by
  obtain ⟨_,used,_⟩ := kept.attachments invitation m name ref found taken
  have others (x : PortName) (u : Use) (different : u ≠ .attached invitation name) (same : use x = u) :
      Function.update use ref.name .front x = u := by
    have other : x ≠ ref.name := by
      intro here
      rw [here,used] at same
      exact different same.symm
    rw [Function.update_of_ne other]
    exact same
  refine ⟨kept.setAttached found ?_ ?_ ?_ (fun _ _ => rfl) ?_,extends_setAttached found (m.erase name) p.attached ?_⟩
  · exact fun x => others x _ (by simp)
  · exact fun x => others x _ (by simp)
  · intro x h name' other
    exact others x _ (by simp [other])
  · intro name' ref' entry
    rw [Table.lookup_erase] at entry
    split at entry
    · contradiction
    · next other =>
      obtain ⟨held',used',answer⟩ := kept.attachments invitation m name' ref' found entry
      exact ⟨held',others _ _ (by simp [other]) used',answer⟩
  · exact fun x name' => others x _ (by simp)

theorem extract_other_makes (kept : Kept p use) {invitation : MojoHandle} {name : List UInt8}
    (other : ∀ m, p.core.handles.lookup invitation ≠ some (.invitation m)) {name0 name1 : PortName} {t : Party}
    (ran : p.call (.extract invitation name name0 name1) = some t) : Makes p t use [name0,name1] := by
  have refused : p.core.extractMessagePipeFromInvitation invitation name name0 name1 =
      some (.invalidArgument,MOJO_HANDLE_INVALID,p.core) := by
    unfold Core.extractMessagePipeFromInvitation Core.getDispatcher
    split
    · next found => exact absurd found (other _)
    · rfl
  have silent : p.asks invitation name = false := by
    unfold Party.asks Core.getDispatcher
    split
    · next found => exact absurd found (other _)
    · rfl
  simp only [Party.call,refused,Option.bind_eq_bind,Option.bind_some,silent] at ran
  cases ran
  exact Makes.refl kept _

theorem extract_makes (kept : Kept p use) {invitation : MojoHandle} {name : List UInt8}
    {name0 name1 : PortName} (unused0 : p.node.Unused name0) (unused1 : p.node.Unused name1)
    (distinct : name0 ≠ name1) (valid0 : name0 ≠ kInvalidPortName) (valid1 : name1 ≠ kInvalidPortName)
    {t : Party} (ran : p.call (.extract invitation name name0 name1) = some t) :
    Makes p t use [name0,name1] := by
  by_cases known : ∃ m, p.core.handles.lookup invitation = some (.invitation m)
  · obtain ⟨m,found⟩ := known
    obtain ⟨⟨r,answer,core⟩,extracted,same⟩ := Option.bind_eq_some_iff.mp ran
    cases same
    unfold Core.extractMessagePipeFromInvitation Core.getDispatcher at extracted
    have asks : p.asks invitation name =
        decide ((p.core.extractMessagePipe invitation m name).1 ≠ .ok) := by
      unfold Party.asks Core.getDispatcher
      rw [found]
    simp only [found] at extracted
    rw [asks]
    cases taken : m.lookup name with
    | none =>
      -- the name is not attached here, so the inviter is asked
      have missing : p.core.extractMessagePipe invitation m name =
          (.notFound,MOJO_HANDLE_INVALID,p.core) := by
        rw [Core.extractMessagePipe,taken]
      rw [missing] at extracted ⊢
      obtain ⟨⟨handle,core'⟩,asked,rest⟩ := Option.bind_eq_some_iff.mp extracted
      cases rest
      obtain ⟨u,use',ref,kept',extended,spares,shape,asks⟩ := extractMessagePipeFromInviter_asks
        kept unused0 unused1 distinct valid0 valid1 asked
      exact ⟨u,use',kept',extended,spares,.inr ⟨name,ref,handle,shape,asks⟩⟩
    | some ref =>
      obtain ⟨held,_⟩ := kept.attachments invitation m name ref found taken
      obtain ⟨keptOut,extendsOut⟩ := kept.detach found taken
      have out : p.core.extractMessagePipe invitation m name =
          (if ((p.setAttached invitation (m.erase name) p.attached).core.addDispatcher
              (.messagePipe ref)).1 = MOJO_HANDLE_INVALID then .resourceExhausted else .ok,
            ((p.setAttached invitation (m.erase name) p.attached).core.addDispatcher
              (.messagePipe ref)).1,
            ((p.setAttached invitation (m.erase name) p.attached).addDispatcher
              (.messagePipe ref)).core) := by
        rw [Core.extractMessagePipe,taken]
        rfl
      rw [out] at extracted ⊢
      obtain full | ⟨left,_,added⟩ := addDispatcher_cases keptOut.counted (.messagePipe ref)
      · -- no handle is left: the port is dropped and the inviter asked for another
        have core : ((p.setAttached invitation (m.erase name) p.attached).addDispatcher
            (.messagePipe ref)).core = (p.setAttached invitation (m.erase name) p.attached).core :=
          congrArg Prod.snd full
        rw [core] at extracted ⊢
        simp only [full,if_true] at extracted ⊢
        obtain ⟨⟨handle,core'⟩,asked,rest⟩ := Option.bind_eq_some_iff.mp extracted
        cases rest
        obtain ⟨u,use',ref',kept',extended,spares,shape,asks⟩ := extractMessagePipeFromInviter_asks
          keptOut unused0 unused1 distinct valid0 valid1 asked
        exact ⟨u,use',kept',extendsOut.trans extended,spares,.inr ⟨name,ref',handle,shape,asks⟩⟩
      · have valid : ((p.setAttached invitation (m.erase name) p.attached).core.addDispatcher
            (.messagePipe ref)).1 ≠ MOJO_HANDLE_INVALID := by
          rw [added]
          exact left
        simp only [valid,if_false] at extracted ⊢
        cases extracted
        exact Makes.addDispatcher keptOut extendsOut rfl
          (fun ref' same => by cases same; exact ⟨held,Function.update_self ..⟩) (fun m' same => by cases same) _
  · exact extract_other_makes kept (not_exists.mp known) ran

theorem portOf_none_call {h : MojoHandle} (unknown : p.portOf h = none) (ref : PortRef) :
    p.core.handles.lookup h ≠ some (.messagePipe ref) := by
  intro found
  rw [portOf_some.mpr found] at unknown
  contradiction

theorem write_cases (kept : Kept p use) {h : MojoHandle} {data : List UInt8} {t : Party}
    (ran : p.call (.write h data) = some t) :
    t = p ∨ ∃ ref node message, p.portOf h = some ref ∧
      p.node.peerOf ref.name = some (node,message.toPortName) ∧ message.fromPortName = ref.name ∧
      message.data = data ∧
      t = { p with
        core := { p.core with controller := p.core.controller.forwardEvent node message }
        written := p.written ++ [message] } := by
  obtain ⟨⟨r,core⟩,wrote,same⟩ := Option.bind_eq_some_iff.mp ran
  cases same
  unfold Core.writeMessage Core.getDispatcher at wrote
  cases found : p.portOf h with
  | none =>
    have other := portOf_none_call found
    split at wrote
    · next ref pipe => exact absurd pipe (other ref)
    · cases wrote
      refine .inl ?_
      simp only [Party.addressed,found,Option.bind_eq_bind,Option.bind_none,Option.map_none,
        Option.toList_none,List.append_nil]
  | some ref =>
    rw [portOf_some.mp found] at wrote
    obtain ⟨ptr,real,live⟩ := (kept.pipes h ref found).1
    have sent : p.core.controller.node.sendUserMessage ref { UserMessage.create with data := data } =
        some ((p.node.objects ptr).peerNodeName,
          ⟨ref.name,(p.node.objects ptr).peerPortName,data⟩) := by
      rw [Node.sendUserMessage,real]
      rfl
    have addressed : p.addressed h data = some ((p.node.objects ptr).peerNodeName,
        ⟨ref.name,(p.node.objects ptr).peerPortName,data⟩) := by
      rw [Party.addressed,found]
      exact sent
    obtain ⟨controller,forwarded,rest⟩ := Option.bind_eq_some_iff.mp wrote
    cases rest
    rw [NodeController.sendUserMessage,sent] at forwarded
    cases forwarded
    refine .inr ⟨ref,_,⟨ref.name,(p.node.objects ptr).peerPortName,data⟩,rfl,Node.peerOf_live live,rfl,
      rfl,?_⟩
    rw [addressed]
    rfl

theorem read_cases {h : MojoHandle} {t : Party} (ran : p.call (.read h) = some t) :
    t = p ∨ ∃ ref ptr older message, p.portOf h = some ref ∧ ref.port = some ptr ∧
      (p.node.objects ptr).messageQueue.heap = older ++ [message] ∧
      t = { p.withController { p.core.controller with
          node := p.node.setQueue ptr { (p.node.objects ptr).messageQueue with heap := older } } with
        read := p.read ++ [(ref.name,message)] } := by
  obtain ⟨⟨r,taken,core⟩,got,same⟩ := Option.bind_eq_some_iff.mp ran
  cases same
  unfold Core.readMessage Core.getDispatcher at got
  cases found : p.portOf h with
  | none =>
    have other := portOf_none_call found
    split at got
    · next ref pipe => exact absurd pipe (other ref)
    · cases got
      refine .inl ?_
      simp only [Option.toList_none,List.map_nil,List.append_nil]
  | some ref =>
    rw [portOf_some.mp found] at got
    obtain ⟨⟨taken',controller⟩,took,rest⟩ := Option.bind_eq_some_iff.mp got
    cases rest
    obtain ⟨⟨taken'',node⟩,popped,rest⟩ := Option.bind_eq_some_iff.mp took
    cases rest
    obtain ⟨ptr,real,⟨_,rfl,rfl⟩ | ⟨older,message,full,rfl,rfl⟩⟩ := Node.getMessage_some popped
    · refine .inl ?_
      simp only [Option.toList_none,List.map_nil,List.append_nil]
    · exact .inr ⟨ref,ptr,older,message,rfl,real,full,rfl⟩

end Calls

end MojoImpl.Invitation
