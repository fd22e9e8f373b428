import MojoImpl.Invitation.Party
import MojoImpl.Controller.Reservations

/-! The invitation handshake as an invariant of both parties. How far it has gone fixes
what each controller knows of the other and which control messages are in flight; the
requests served so far fix which ports are joined. -/
namespace MojoImpl.Invitation
open Foundation MojoImpl.Ports

inductive Phase
  | idle
  | invited
  | greeted
  | accepted
  deriving DecidableEq

def Phase.connected : Phase → Bool
  | .greeted | .accepted => true
  | _ => false

/-- A port of each party, the one to be the peer of the other. -/
structure Join where
  inviter : PortName
  invitee : PortName

/-- How far the handshake has gone. A join is opened when the inviter has made its half and
settled when the invitee has. -/
structure Progress where
  phase : Phase
  token : NodeName
  served : List Request
  waiting : List Request
  settled : List Join
  opened : List Join
  use : Side → PortName → Use

def Progress.joins (g : Progress) : List Join := g.settled ++ g.opened

/-- The name the inviter has the invitee under. -/
def Progress.contact (g : Progress) (invitee : NodeName) : NodeName :=
  if g.phase = .accepted then invitee else g.token

def Request.message (r : Request) : Message := .requestPortMerge ⟨r.port,r.name⟩

def Join.response (j : Join) : Message := .responsePortMerge ⟨j.invitee,j.inviter⟩

/-- The first request for a name is the one that is served. -/
def firstFor (requests : List Request) (name : List UInt8) : Option Request :=
  requests.find? fun r => r.name = name

def isControl : Message → Bool
  | .userMessage _ => false
  | _ => true

def control (messages : List Message) : List Message := messages.filter isControl

def users (messages : List Message) : List UserMessage :=
  messages.filterMap fun
    | .userMessage message => some message
    | _ => none

/-- No message of a pipe is written, read, sent or queued, and none that matters is lost. -/
structure Quiet (p t : Party) (use : PortName → Use) : Prop where
  written : t.written = p.written
  read : t.read = p.read
  sent : users t.inFlight = users p.inFlight
  queues : ∀ x, t.node.queueOf x = p.node.queueOf x ∨ (t.node.queueOf x = [] ∧ use x ≠ .front)

structure InviterState (inviter invitee : NodeName) (c : NodeController) (g : Progress) : Prop where
  name : c.name = inviter
  node : c.node.name = inviter
  inviterName : c.inviterName = kInvalidNodeName
  created : c.created = if g.phase = .idle then 0 else 1
  remote : g.phase ≠ .idle → (c.channels 0).remoteNodeName = g.contact invitee
  peers : ∀ x, c.peers.lookup x = if g.phase = .accepted ∧ x = invitee then some 0 else none
  pending : ∀ x, c.pendingPeerMessages.lookup x = none
  invited : g.phase = .invited ∨ g.phase = .greeted → c.pendingInvitations.lookup g.token = some 0
  uninvited : g.phase = .idle → ∀ x, c.pendingInvitations.lookup x = none
  reserved : ∀ x, g.phase = .idle ∨ x ≠ g.contact invitee → c.reservedPorts.lookup x = none

structure InviteeState (inviter invitee : NodeName) (c : NodeController) (g : Progress) : Prop where
  name : c.name = invitee
  node : c.node.name = invitee
  inviterName : c.inviterName = if g.phase.connected then inviter else kInvalidNodeName
  channel : (c.created = 0 ∧ c.inviterChannel = none) ∨ (c.created = 1 ∧ c.inviterChannel = some 0)
  met : g.phase.connected → c.created = 1
  remote : g.phase.connected → (c.channels 0).remoteNodeName = inviter
  peers : ∀ x, c.peers.lookup x = if g.phase.connected ∧ x = inviter then some 0 else none
  pending : ∀ x, c.pendingPeerMessages.lookup x = none
  merges : c.pendingPortMerges.map NodeController.mergeRequest =
    if g.phase.connected then [] else g.waiting.map Request.message

/-- What is served and what is joined, and what the ports of both parties show of it. -/
structure Joined (inviter invitee : NodeName) (a b : Party) (offers : List UInt8 → Option MojoHandle)
    (g : Progress) : Prop where
  early : g.phase ≠ .accepted → g.served = [] ∧ g.settled = [] ∧ g.opened = []
  requests : b.requests = g.served ++ g.waiting
  distinct : ((g.served ++ g.waiting).map Request.port).Nodup
  offered : ∀ name h, offers name = some h → g.phase ≠ .idle ∧ ∃ front, a.portOf h = some front ∧
    ((firstFor g.served name = none ∧
        ∃ ref, a.core.controller.reservation (g.contact invitee) name = some ref) ∨
      ∃ r, firstFor g.served name = some r ∧ ⟨front.name,r.port⟩ ∈ g.joins)
  reserved : ∀ x name ref, a.core.controller.reservation x name = some ref →
    a.node.Holds ref ∧ g.use .inviter ref.name = .reserved name ∧ firstFor g.served name = none ∧
      ∃ h front, offers name = some h ∧ a.portOf h = some front ∧
        a.node.peerOf ref.name = some (inviter,front.name)
  matched : ∀ j ∈ g.joins, ∃ r h front, firstFor g.served r.name = some r ∧ r.port = j.invitee ∧
    offers r.name = some h ∧ a.portOf h = some front ∧ front.name = j.inviter
  once : (g.joins.map Join.invitee).Nodup
  inviterPeer : ∀ j ∈ g.joins, a.node.peerOf j.inviter = some (invitee,j.invitee)
  inviteePeer : ∀ j ∈ g.settled, b.node.peerOf j.invitee = some (inviter,j.inviter)
  inviterOnly : ∀ p x q, a.node.peerOf p = some (x,q) → x = inviter ∨ (x = invitee ∧ ⟨p,q⟩ ∈ g.joins)
  inviteeOnly : ∀ p x q, b.node.peerOf p = some (x,q) → x = invitee ∨ (x = inviter ∧ ⟨q,p⟩ ∈ g.settled)

structure Handshake (inviter invitee : NodeName) (s : System) (g : Progress) : Prop where
  kept : ∀ side, Kept (s.party side) (g.use side)
  unused : ∀ side, ∀ x, x ∉ s.used → (s.party side).node.Unused x
  ends : invitee ∈ s.used ∧ (g.phase ≠ .idle → g.token ∈ s.used ∧ g.token ≠ invitee)
  inviterState : InviterState inviter invitee (s.party .inviter).core.controller g
  inviteeState : InviteeState inviter invitee (s.party .invitee).core.controller g
  joined : Joined inviter invitee (s.party .inviter) (s.party .invitee) s.offers g
  toInvitee : control (s.party .inviter).inFlight =
    (if g.phase = .invited then [.acceptInvitee ⟨g.token,inviter⟩] else []) ++ g.opened.map Join.response
  toInviter : control (s.party .invitee).inFlight =
    (if g.phase = .greeted then [.acceptInvitation ⟨g.token,invitee⟩] else []) ++
      if g.phase.connected then g.waiting.map Request.message else []

section Growing
variable {inviter invitee : NodeName} {s : System} {g : Progress}

theorem grows_reservation {p u : Party} {use use' : PortName → Use} (grows : Grows p u use use') :
    u.core.controller.reservation = p.core.controller.reservation := by
  rw [grows.controller]
  rfl

theorem grows_inFlight {p u : Party} {use use' : PortName → Use} (grows : Grows p u use use') :
    u.inFlight = p.inFlight := by
  rw [Party.inFlight,grows.controller]
  rfl

theorem InviterState.grow {p u : Party} {use use' : PortName → Use}
    (state : InviterState inviter invitee p.core.controller g) (grows : Grows p u use use')
    (uses : Side → PortName → Use) :
    InviterState inviter invitee u.core.controller { g with use := uses } := by
  rw [grows.controller]
  exact ⟨state.name,grows.name.trans state.node,state.inviterName,state.created,state.remote,
    state.peers,state.pending,state.invited,state.uninvited,state.reserved⟩

theorem InviteeState.grow {p u : Party} {use use' : PortName → Use}
    (state : InviteeState inviter invitee p.core.controller g) (grows : Grows p u use use')
    (uses : Side → PortName → Use) :
    InviteeState inviter invitee u.core.controller { g with use := uses } := by
  rw [grows.controller]
  exact ⟨state.name,grows.name.trans state.node,state.inviterName,state.channel,state.met,state.remote,
    state.peers,state.pending,state.merges⟩

theorem Joined.growInviter {a b u : Party} {offers : List UInt8 → Option MojoHandle} {use' : PortName → Use}
    (joined : Joined inviter invitee a b offers g) (here : a.node.name = inviter)
    (grows : Grows a u (g.use .inviter) use') :
    Joined inviter invitee u b offers { g with use := Function.update g.use .inviter use' } := by
  have same := grows_reservation grows
  refine ⟨joined.early,joined.requests,joined.distinct,?_,?_,?_,joined.once,?_,joined.inviteePeer,?_,
    joined.inviteeOnly⟩
  · intro name h offer
    obtain ⟨sent,front,behind,state⟩ := joined.offered name h offer
    rw [same]
    exact ⟨sent,front,grows.ports h front behind,state⟩
  · intro x name ref found
    rw [same] at found
    obtain ⟨held,used,unserved,h,front,offer,behind,peer⟩ := joined.reserved x name ref found
    refine ⟨grows.holds ref held,?_,unserved,h,front,offer,grows.ports h front behind,
      grows.peers _ _ peer⟩
    dsimp only
    rw [Function.update_self]
    exact grows.reserved _ name (by simp [peer]) used
  · intro j member
    obtain ⟨r,h,front,first,port,offer,behind,same⟩ := joined.matched j member
    exact ⟨r,h,front,first,port,offer,grows.ports h front behind,same⟩
  · intro j member
    exact grows.peers _ _ (joined.inviterPeer j member)
  · intro p x q peer
    obtain old | new := grows.added p (x,q) peer
    · exact joined.inviterOnly p x q old
    · exact .inl (new.trans here)

theorem Joined.growInvitee {a b u : Party} {offers : List UInt8 → Option MojoHandle} {use' : PortName → Use}
    (joined : Joined inviter invitee a b offers g) (here : b.node.name = invitee)
    (grows : Grows b u (g.use .invitee) use') :
    Joined inviter invitee a u offers { g with use := Function.update g.use .invitee use' } := by
  refine ⟨joined.early,grows.requests.trans joined.requests,joined.distinct,joined.offered,?_,
    joined.matched,joined.once,joined.inviterPeer,?_,joined.inviterOnly,?_⟩
  · intro x name ref found
    dsimp only
    rw [Function.update_of_ne (by simp)]
    exact joined.reserved x name ref found
  · intro j member
    exact grows.peers _ _ (joined.inviteePeer j member)
  · intro p x q peer
    obtain old | new := grows.added p (x,q) peer
    · exact joined.inviteeOnly p x q old
    · exact .inl (new.trans here)

theorem kept_update (side : Side) {u : Party} {use' : PortName → Use}
    (kept : ∀ side, Kept (s.party side) (g.use side)) (kept' : Kept u use') (side' : Side) :
    Kept ((s.setParty side u).party side') (Function.update g.use side use' side') := by
  by_cases same : side' = side
  · subst same
    simp only [System.setParty,Function.update_self]
    exact kept'
  · simp only [System.setParty,Function.update_of_ne same]
    exact kept side'

/-- The handshake does not notice what one party does by itself. -/
theorem Handshake.grow (h : Handshake inviter invitee s g) {side : Side} {u : Party}
    {use' : PortName → Use} (kept' : Kept u use') (grows : Grows (s.party side) u (g.use side) use')
    (used' : List Name) (more : ∀ x ∈ s.used, x ∈ used')
    (unused' : ∀ x, x ∉ used' → u.node.Unused x) :
    Handshake inviter invitee { s.setParty side u with used := used' }
      { g with use := Function.update g.use side use' } := by
  have kept := kept_update side h.kept kept'
  have unused (side' : Side) (x : Name) (absent : x ∉ used') :
      ((s.setParty side u).party side').node.Unused x := by
    by_cases same : side' = side
    · subst same
      simp only [System.setParty,Function.update_self]
      exact unused' x absent
    · simp only [System.setParty,Function.update_of_ne same]
      exact h.unused side' x (fun member => absent (more x member))
  have ends := And.intro (more _ h.ends.1) fun sent : g.phase ≠ .idle =>
    And.intro (more _ (h.ends.2 sent).1) (h.ends.2 sent).2
  have flight := grows_inFlight grows
  cases side with
  | inviter =>
    exact ⟨kept,unused,ends,h.inviterState.grow grows _,⟨h.inviteeState.name,h.inviteeState.node,
      h.inviteeState.inviterName,h.inviteeState.channel,h.inviteeState.met,h.inviteeState.remote,
      h.inviteeState.peers,h.inviteeState.pending,h.inviteeState.merges⟩,h.joined.growInviter h.inviterState.node grows,
      (congrArg control flight).trans h.toInvitee,h.toInviter⟩
  | invitee =>
    exact ⟨kept,unused,ends,⟨h.inviterState.name,h.inviterState.node,h.inviterState.inviterName,
      h.inviterState.created,h.inviterState.remote,h.inviterState.peers,h.inviterState.pending,
      h.inviterState.invited,h.inviterState.uninvited,h.inviterState.reserved⟩,
      h.inviteeState.grow grows _,h.joined.growInvitee h.inviteeState.node grows,
      h.toInvitee,(congrArg control flight).trans h.toInviter⟩

end Growing

section Calls
variable {inviter invitee : NodeName} {s : System} {g : Progress}

theorem handshake_start (inviter invitee : NodeName) : Handshake inviter invitee (.start inviter invitee)
    ⟨.idle,kInvalidNodeName,[],[],[],[],fun _ _ => .front⟩ where
  kept
    | .inviter => ⟨Node.Wired.create _,fun _ _ found => (nomatch found),fun _ _ found => (nomatch found),
        fun _ _ _ _ found => (nomatch found),fun _ member => (nomatch member)⟩
    | .invitee => ⟨Node.Wired.create _,fun _ _ found => (nomatch found),fun _ _ found => (nomatch found),
        fun _ _ _ _ found => (nomatch found),fun _ member => (nomatch member)⟩
  unused
    | .inviter => fun _ _ => ⟨rfl,fun _ => rfl⟩
    | .invitee => fun _ _ => ⟨rfl,fun _ => rfl⟩
  ends := ⟨by simp [System.start],fun sent => absurd rfl sent⟩
  inviterState := ⟨rfl,rfl,rfl,rfl,fun sent => absurd rfl sent,fun _ => rfl,fun _ => rfl,by simp,
    fun _ _ => rfl,fun _ _ => rfl⟩
  inviteeState := ⟨rfl,rfl,rfl,.inl ⟨rfl,rfl⟩,by simp [Phase.connected],
    by simp [Phase.connected],fun _ => rfl,fun _ => rfl,rfl⟩
  joined := ⟨fun _ => ⟨rfl,rfl,rfl⟩,rfl,List.nodup_nil,fun _ _ found => (nomatch found),
    fun _ _ _ found => (nomatch found),fun _ member => (nomatch member),List.nodup_nil,
    fun _ member => (nomatch member),fun _ member => (nomatch member),fun _ _ _ found => (nomatch found),
    fun _ _ _ found => (nomatch found)⟩
  toInvitee := rfl
  toInviter := rfl

theorem setParty_self (s : System) (side : Side) (p : Party) : (s.setParty side p).party side = p := by
  exact Function.update_self ..

theorem forall_setParty {P : Side → Party → Prop} {s : System} {side : Side} {p : Party}
    (here : P side p) (elsewhere : ∀ side, P side (s.party side)) (side' : Side) :
    P side' ((s.setParty side p).party side') := by
  by_cases same : side' = side
  · subst same
    rw [setParty_self]
    exact here
  · simp only [System.setParty,Function.update_of_ne same]
    exact elsewhere side'

theorem Handshake.keptSet (h : Handshake inviter invitee s g) {side : Side} {p : Party}
    (kept : Kept p (g.use side)) (side' : Side) : Kept ((s.setParty side p).party side') (g.use side') :=
  forall_setParty (P := fun side p => Kept p (g.use side)) kept h.kept side'

theorem Handshake.unusedSet (h : Handshake inviter invitee s g) {side : Side} {p : Party}
    (node : p.node = (s.party side).node) (side' : Side) (x : Name) (absent : x ∉ s.used) :
    ((s.setParty side p).party side').node.Unused x :=
  forall_setParty (P := fun _ p => p.node.Unused x) (node ▸ h.unused side x absent)
    (fun side => h.unused side x absent) side'

theorem Joined.congrInviter {a a' b : Party} {offers : List UInt8 → Option MojoHandle}
    (joined : Joined inviter invitee a b offers g) (node : a'.node = a.node)
    (ports : ∀ h, a'.portOf h = a.portOf h)
    (reservation : a'.core.controller.reservation = a.core.controller.reservation) :
    Joined inviter invitee a' b offers g where
  early := joined.early
  requests := joined.requests
  distinct := joined.distinct
  offered name h offer := by
    rw [reservation,ports]
    exact joined.offered name h offer
  reserved x name ref found := by
    rw [reservation] at found
    simp only [node,ports]
    exact joined.reserved x name ref found
  matched j member := by
    simp only [ports]
    exact joined.matched j member
  once := joined.once
  inviterPeer j member := node ▸ joined.inviterPeer j member
  inviteePeer := joined.inviteePeer
  inviterOnly p x q peer := joined.inviterOnly p x q (node ▸ peer)
  inviteeOnly := joined.inviteeOnly

theorem Joined.congrInvitee {a b b' : Party} {offers : List UInt8 → Option MojoHandle}
    (joined : Joined inviter invitee a b offers g) (node : b'.node = b.node)
    (requests : b'.requests = b.requests) : Joined inviter invitee a b' offers g where
  early := joined.early
  requests := requests.trans joined.requests
  distinct := joined.distinct
  offered := joined.offered
  reserved := joined.reserved
  matched := joined.matched
  once := joined.once
  inviterPeer := joined.inviterPeer
  inviteePeer j member := node ▸ joined.inviteePeer j member
  inviterOnly := joined.inviterOnly
  inviteeOnly p x q peer := joined.inviteeOnly p x q (node ▸ peer)

theorem control_append (messages messages' : List Message) :
    control (messages ++ messages') = control messages ++ control messages' := List.filter_append ..

/-- The inviter has no inviter of its own, so what it asks for stays pending. -/
theorem Handshake.askInviter (h : Handshake inviter invitee s g) (valid : invitee ≠ kInvalidNodeName)
    (name : List UInt8) {ref : PortRef} {handle : MojoHandle}
    (asks : Asks (s.party .inviter) (g.use .inviter) ref handle) :
    Handshake inviter invitee (s.setParty .inviter ((s.party .inviter).ask name ref handle)) g := by
  have state := h.inviterState
  have alone : (s.party .inviter).core.controller.getInviterChannel = none := by
    rw [NodeController.getInviterChannel,NodeController.getPeerChannel,state.inviterName,state.peers,
      if_neg (fun all => valid all.2.symm)]
  have asked : ((s.party .inviter).ask name ref handle).core.controller =
      { (s.party .inviter).core.controller with
        pendingPortMerges := (s.party .inviter).core.controller.pendingPortMerges ++ [(name,ref)] } := by
    simp only [Party.ask,NodeController.mergePortIntoInviter,alone]
  have node := ask_node (s.party .inviter) name ref handle
  refine ⟨h.keptSet ((h.kept .inviter).ask asks name),h.unusedSet node,
    h.ends,?_,h.inviteeState,?_,?_,h.toInviter⟩
  · rw [setParty_self,asked]
    exact ⟨state.name,state.node,state.inviterName,state.created,state.remote,state.peers,state.pending,
      state.invited,state.uninvited,state.reserved⟩
  · rw [setParty_self]
    refine h.joined.congrInviter node (fun _ => rfl) ?_
    rw [asked]
    rfl
  · rw [setParty_self,Party.inFlight,asked]
    exact h.toInvitee

theorem Handshake.askInvitee (h : Handshake inviter invitee s g)
    (name : List UInt8) {ref : PortRef} {handle : MojoHandle}
    (asks : Asks (s.party .invitee) (g.use .invitee) ref handle) :
    Handshake inviter invitee (s.setParty .invitee ((s.party .invitee).ask name ref handle))
      { g with waiting := g.waiting ++ [⟨name,ref.name,handle⟩] } := by
  have state := h.inviteeState
  have node := ask_node (s.party .invitee) name ref handle
  have joined : Joined inviter invitee (s.party .inviter) ((s.party .invitee).ask name ref handle)
      s.offers { g with waiting := g.waiting ++ [⟨name,ref.name,handle⟩] } := by
    have old := h.joined
    refine ⟨old.early,?_,?_,old.offered,old.reserved,old.matched,old.once,old.inviterPeer,?_,
      old.inviterOnly,?_⟩
    · rw [Party.ask,← List.append_assoc,← old.requests]
    · dsimp only
      rw [← List.append_assoc,List.map_append,List.nodup_append]
      refine ⟨old.distinct,List.nodup_singleton _,?_⟩
      intro port member port' member' same
      obtain ⟨r,known,rfl⟩ := List.mem_map.mp member
      rw [List.map_singleton,List.mem_singleton] at member'
      exact asks.new r (old.requests ▸ known) (same.trans member')
    · exact fun j member => node ▸ old.inviteePeer j member
    · exact fun p x q peer => old.inviteeOnly p x q (node ▸ peer)
  have inviterState : InviterState inviter invitee (s.party .inviter).core.controller
      { g with waiting := g.waiting ++ [⟨name,ref.name,handle⟩] } :=
    ⟨h.inviterState.name,h.inviterState.node,h.inviterState.inviterName,h.inviterState.created,
      h.inviterState.remote,h.inviterState.peers,h.inviterState.pending,h.inviterState.invited,
      h.inviterState.uninvited,h.inviterState.reserved⟩
  have kept := h.keptSet ((h.kept .invitee).ask asks name)
  have unused := h.unusedSet node
  by_cases connected : g.phase.connected
  · have channel : (s.party .invitee).core.controller.getInviterChannel = some 0 := by
      rw [NodeController.getInviterChannel,NodeController.getPeerChannel,state.inviterName,state.peers]
      simp [connected]
    have asked : ((s.party .invitee).ask name ref handle).core.controller =
        (s.party .invitee).core.controller.sendChannelMessage 0 (.requestPortMerge ⟨ref.name,name⟩) := by
      simp only [Party.ask,NodeController.mergePortIntoInviter,channel]
    refine ⟨kept,unused,h.ends,inviterState,?_,joined,h.toInvitee,?_⟩
    · rw [setParty_self,asked]
      refine ⟨state.name,state.node,state.inviterName,state.channel,state.met,?_,state.peers,
        state.pending,?_⟩
      · intro _
        simp only [NodeController.sendChannelMessage,Function.update_self]
        exact state.remote connected
      · have none_left := state.merges
        rw [if_pos connected] at none_left ⊢
        exact none_left
    · have flight := h.toInviter
      rw [setParty_self,Party.inFlight,asked]
      simp only [NodeController.sendChannelMessage,Function.update_self,control_append]
      rw [Party.inFlight] at flight
      rw [flight,if_pos connected,if_pos connected,List.append_assoc,List.map_append]
      rfl
  · have channel : (s.party .invitee).core.controller.getInviterChannel = none := by
      rw [NodeController.getInviterChannel,NodeController.getPeerChannel,state.inviterName,state.peers]
      simp [connected]
    have asked : ((s.party .invitee).ask name ref handle).core.controller =
        { (s.party .invitee).core.controller with
          pendingPortMerges := (s.party .invitee).core.controller.pendingPortMerges ++ [(name,ref)] } := by
      simp only [Party.ask,NodeController.mergePortIntoInviter,channel]
    refine ⟨kept,unused,h.ends,inviterState,?_,joined,h.toInvitee,?_⟩
    · rw [setParty_self,asked]
      refine ⟨state.name,state.node,state.inviterName,state.channel,state.met,state.remote,state.peers,
        state.pending,?_⟩
      have pending := state.merges
      rw [if_neg connected] at pending ⊢
      rw [List.map_append,pending,List.map_append]
      rfl
    · rw [setParty_self,Party.inFlight,asked]
      have flight := h.toInviter
      rw [if_neg connected] at flight ⊢
      exact flight

theorem Handshake.sendUser (h : Handshake inviter invitee s g) {side : Side} {u : Party}
    (message : UserMessage)
    (sent : u.core = { (s.party side).core with
      controller := (s.party side).core.controller.sendChannelMessage 0 (.userMessage message) })
    (attached : u.attached = (s.party side).attached) (requests : u.requests = (s.party side).requests) :
    Handshake inviter invitee (s.setParty side u) g := by
  have node : u.node = (s.party side).node := by
    rw [Party.node,sent]
    rfl
  have kept : Kept u (g.use side) := by
    refine (h.kept side).congr node ?_ ?_ attached requests
    · rw [sent]
    · rw [sent]
  have flight : control u.inFlight = control (s.party side).inFlight := by
    rw [Party.inFlight,sent]
    simp only [NodeController.sendChannelMessage,Function.update_self,control_append]
    exact List.append_nil _
  have remote : (u.core.controller.channels 0).remoteNodeName =
      ((s.party side).core.controller.channels 0).remoteNodeName := by
    rw [sent]
    simp only [NodeController.sendChannelMessage,Function.update_self]
  cases side with
  | inviter =>
    have state := h.inviterState
    refine ⟨h.keptSet kept,h.unusedSet node,h.ends,?_,h.inviteeState,?_,?_,h.toInviter⟩
    · rw [setParty_self]
      rw [sent] at remote ⊢
      exact ⟨state.name,state.node,state.inviterName,state.created,fun met => remote.trans (state.remote met),
        state.peers,state.pending,state.invited,state.uninvited,state.reserved⟩
    · rw [setParty_self]
      refine h.joined.congrInviter node (fun h => ?_) ?_
      · unfold Party.portOf Core.getDispatcher
        rw [sent]
      · rw [sent]
        rfl
    · rw [setParty_self,flight]
      exact h.toInvitee
  | invitee =>
    have state := h.inviteeState
    refine ⟨h.keptSet kept,h.unusedSet node,h.ends,h.inviterState,?_,?_,h.toInvitee,?_⟩
    · rw [setParty_self]
      rw [sent] at remote ⊢
      exact ⟨state.name,state.node,state.inviterName,state.channel,state.met,
        fun met => remote.trans (state.remote met),state.peers,state.pending,state.merges⟩
    · rw [setParty_self]
      exact h.joined.congrInvitee node requests
    · rw [setParty_self,flight]
      exact h.toInviter

theorem Handshake.peerChannel (h : Handshake inviter invitee s g) {side : Side} {p q : PortName}
    {node : NodeName} (peer : (s.party side).node.peerOf p = some (node,q)) :
    node = (s.party side).core.controller.name ∨
      (s.party side).core.controller.peers.lookup node = some 0 := by
  cases side with
  | inviter =>
    obtain here | ⟨there,join⟩ := h.joined.inviterOnly p node q peer
    · exact .inl (here.trans h.inviterState.name.symm)
    · refine .inr ?_
      have phase : g.phase = .accepted := by
        by_contra early
        obtain ⟨_,settled,opened⟩ := h.joined.early early
        simp [Progress.joins,settled,opened] at join
      rw [h.inviterState.peers,if_pos ⟨phase,there⟩]
  | invitee =>
    obtain here | ⟨there,join⟩ := h.joined.inviteeOnly p node q peer
    · exact .inl (here.trans h.inviteeState.name.symm)
    · refine .inr ?_
      have phase : g.phase = .accepted := by
        by_contra early
        obtain ⟨_,settled,_⟩ := h.joined.early early
        simp [settled] at join
      rw [h.inviteeState.peers,if_pos ⟨by rw [phase]; rfl,there⟩]

def Progress.SameJoins (g g' : Progress) : Prop := g'.settled = g.settled ∧ g'.opened = g.opened

theorem Handshake.makes (h : Handshake inviter invitee s g) (valid : invitee ≠ kInvalidNodeName)
    {side : Side} {p : Party} {names : List Name} (made : Makes (s.party side) p (g.use side) names) :
    ∃ g', Handshake inviter invitee
        { s.setParty side p with
          used := if p.node.allocated = (s.party side).node.allocated then s.used
            else names ++ s.used } g' ∧ g.SameJoins g' := by
  obtain ⟨u,use',kept',extended,spares,shape⟩ := made
  have node : p.node = u.node := by
    obtain rfl | ⟨name,ref,handle,rfl,_⟩ := shape
    · rfl
    · exact ask_node u name ref handle
  rw [node]
  have grown := h.grow kept' extended.toGrows
    (if u.node.allocated = (s.party side).node.allocated then s.used else names ++ s.used)
    (by
      intro x member
      split
      · exact member
      · exact List.mem_append_right _ member)
    (by
      intro x absent
      split at absent
      · next same => exact spares x (h.unused side x absent) (.inl same)
      · rw [List.mem_append,not_or] at absent
        exact spares x (h.unused side x absent.2) (.inr absent.1))
  obtain rfl | ⟨name,ref,handle,rfl,asks⟩ := shape
  · exact ⟨_,grown,rfl,rfl⟩
  · have asks' : Asks (({ s.setParty side u with
        used := if u.node.allocated = (s.party side).node.allocated then s.used else names ++ s.used } :
          System).party side) ((Function.update g.use side use') side) ref handle := by
      rw [Function.update_self]
      change Asks ((s.setParty side u).party side) use' ref handle
      rw [setParty_self]
      exact asks
    have twice : Function.update (Function.update s.party side u) side (u.ask name ref handle) =
        Function.update s.party side (u.ask name ref handle) := Function.update_idem ..
    have here : (({ s.setParty side u with
        used := if u.node.allocated = (s.party side).node.allocated then s.used else names ++ s.used } :
          System).party side) = u := setParty_self s side u
    cases side with
    | inviter =>
      have asked := grown.askInviter valid name asks'
      rw [here] at asked
      simp only [System.setParty,twice] at asked
      exact ⟨_,asked,rfl,rfl⟩
    | invitee =>
      have asked := grown.askInvitee name asks'
      rw [here] at asked
      simp only [System.setParty,twice] at asked
      exact ⟨_,asked,rfl,rfl⟩

theorem fresh_pair {used : List Name} {name0 name1 : Name} (fresh : Fresh used [name0,name1]) :
    name0 ≠ name1 ∧ name0 ≠ kInvalidPortName ∧ name1 ≠ kInvalidPortName ∧ name0 ∉ used ∧ name1 ∉ used := by
  obtain ⟨distinct,each⟩ := fresh
  have first := each name0 (by simp)
  have second := each name1 (by simp)
  simp only [List.nodup_cons,List.mem_singleton,List.not_mem_nil,not_false_eq_true,List.nodup_nil,
    and_true] at distinct
  exact ⟨distinct,first.1,second.1,first.2,second.2⟩

theorem Handshake.callMakes (h : Handshake inviter invitee s g) {side : Side} {call : Call} {p : Party}
    (fresh : Fresh s.used call.names) (called : (s.party side).call call = some p) :
    Makes (s.party side) p (g.use side) call.names ∨ (∃ handle data, call = .write handle data) ∨
      ∃ handle, call = .read handle := by
  have kept := h.kept side
  cases call with
  | createInvitation => exact .inl (createInvitation_makes kept called)
  | attach invitation name name0 name1 =>
    obtain ⟨distinct,valid0,valid1,new0,new1⟩ := fresh_pair fresh
    exact .inl (attach_makes kept (h.unused side name0 new0) (h.unused side name1 new1) distinct valid0
      valid1 called)
  | extract invitation name name0 name1 =>
    obtain ⟨distinct,valid0,valid1,new0,new1⟩ := fresh_pair fresh
    exact .inl (extract_makes kept (h.unused side name0 new0) (h.unused side name1 new1) distinct valid0
      valid1 called)
  | write handle data => exact .inr (.inl ⟨handle,data,rfl⟩)
  | read handle => exact .inr (.inr ⟨handle,rfl⟩)

theorem setParty_same (s : System) (side : Side) : s.setParty side (s.party side) = s := by
  rw [System.setParty,Function.update_eq_self]

theorem Handshake.growSame (h : Handshake inviter invitee s g) {side : Side} {u p : Party}
    (kept : Kept u (g.use side)) (grows : Grows (s.party side) u (g.use side) (g.use side))
    (node : u.node = p.node) (unused : ∀ x, (s.party side).node.Unused x → u.node.Unused x)
    (core : p.core = u.core) (attached : p.attached = u.attached) (requests : p.requests = u.requests) :
    ∃ g', Handshake inviter invitee (s.setParty side p) g' ∧ g.SameJoins g' := by
  have kept' : Kept p (g.use side) := by
    refine kept.congr node.symm ?_ ?_ attached requests
    · rw [core]
    · rw [core]
  have grows' : Grows (s.party side) p (g.use side) (g.use side) := by
    have ports (h : MojoHandle) : p.portOf h = u.portOf h := by
      unfold Party.portOf Core.getDispatcher
      rw [core]
    refine ⟨?_,?_,?_,?_,?_,?_,grows.reserved,requests.trans grows.requests⟩
    · rw [core,← node]
      exact grows.controller
    · rw [← node]
      exact grows.name
    · rw [← node]
      exact grows.peers
    · rw [← node]
      exact grows.added
    · rw [← node]
      exact grows.holds
    · intro h ref behind
      rw [ports]
      exact grows.ports h ref behind
  have grown := h.grow kept' grows' s.used (fun _ member => member)
    (fun x absent => node ▸ unused x (h.unused side x absent))
  exact ⟨_,grown,rfl,rfl⟩

theorem Handshake.call (h : Handshake inviter invitee s g) (valid : invitee ≠ kInvalidNodeName)
    {side : Side} {call : Call} {t : System} (ran : s.stepCall side call = some t) :
    ∃ g', Handshake inviter invitee t g' ∧ g.SameJoins g' := by
  unfold System.stepCall at ran
  split at ran
  · next fresh =>
    obtain ⟨p,called,same⟩ := Option.bind_eq_some_iff.mp ran
    cases same
    have kept := h.kept side
    obtain made | ⟨handle,data,rfl⟩ | ⟨handle,rfl⟩ := h.callMakes fresh called
    · exact h.makes valid made
    · have names : (if p.node.allocated = (s.party side).node.allocated then s.used
          else (Call.write handle data).names ++ s.used) = s.used := ite_self _
      rw [names]
      obtain rfl | ⟨ref,node,message,found,peer,_,_,rfl⟩ := write_cases kept called
      · rw [setParty_same]
        exact ⟨g,h,rfl,rfl⟩
      · by_cases home : node = (s.party side).core.controller.name
        · -- a message for the node itself goes nowhere
          refine h.growSame kept (Extends.refl _ _).toGrows ?_ (fun _ unused => unused) ?_ rfl rfl
          · simp only [Party.node,NodeController.forwardEvent,if_pos home]
          · simp only [NodeController.forwardEvent,if_pos home]
        · have channel := (h.peerChannel peer).resolve_left home
          refine ⟨g,h.sendUser message ?_ rfl rfl,rfl,rfl⟩
          simp only [NodeController.forwardEvent,if_neg home,NodeController.sendPeerEvent,
            NodeController.getPeerChannel,channel]
    · have names : (if p.node.allocated = (s.party side).node.allocated then s.used
          else (Call.read handle).names ++ s.used) = s.used := ite_self _
      rw [names]
      obtain rfl | ⟨ref,ptr,older,message,found,real,full,rfl⟩ := read_cases called
      · rw [setParty_same]
        exact ⟨g,h,rfl,rfl⟩
      · obtain ⟨keptQueue,growsQueue⟩ := kept.setQueue ptr
          { ((s.party side).node.objects ptr).messageQueue with heap := older }
        exact h.growSame keptQueue growsQueue rfl (fun x unused => unused.setQueue _ _) rfl rfl rfl
  · contradiction

end Calls

end MojoImpl.Invitation
