import MojoImpl.Invitation.Connected

/-! Where the messages of the pipes are. A step of the system moves no message, or one
message one place further: it is written, arrives, or is read. What has been written is
then accounted for by these places, as long as no write is for the node itself. -/
namespace MojoImpl.Invitation
open Foundation MojoImpl.Ports

/-- Every write goes to a port of the other node. -/
def Careful (s : System) : Action → Prop
  | .call side (.write handle _) =>
    ∀ ref ∈ (s.party side).portOf handle, ∀ peer ∈ (s.party side).node.peerOf ref.name,
      peer.1 ≠ (s.party side).node.name
  | _ => True

def addressedTo (x : PortName) (messages : List UserMessage) : List UserMessage :=
  messages.filter fun m => m.toPortName = x

def sentFrom (x : PortName) (messages : List UserMessage) : List UserMessage :=
  messages.filter fun m => m.fromPortName = x

namespace Party

def readFrom (p : Party) (x : PortName) : List UserMessage :=
  (p.read.filter fun entry => entry.1 = x).map Prod.snd

def held (p : Party) : List UserMessage :=
  users (p.core.controller.pendingPeerMessages.entries.flatMap Sigma.snd)

end Party

/-- The port of the second side stands for the opposite end: it is the peer of the first
one, which is its peer in turn or will be when a response arrives. -/
def Opposite (s : System) (side : Side) (p : PortName) (side' : Side) (q : PortName) : Prop :=
  (s.party side).node.peerOf p = some ((s.party side').node.name,q) ∧
    ((s.party side').node.peerOf q = some ((s.party side).node.name,p) ∨
      .responsePortMerge ⟨q,p⟩ ∈ (s.party side).inFlight)

/-- The places of what one side has written on a port, whose opposite end is `q`. -/
def System.places (s : System) (side : Side) (side' : Side) (q : PortName) : List UserMessage :=
  (s.party side').readFrom q ++
    ((s.party side').node.queueOf q ++ (users (s.party side).inFlight ++ (s.party side).held))

/-- Each message that was written is in one place. -/
def Conserved (s : System) : Prop :=
  ∀ side, ∀ m ∈ (s.party side).written, ∃ side' q, Opposite s side m.fromPortName side' q ∧
    ((sentFrom m.fromPortName (s.party side).written).map UserMessage.data).Perm
      ((sentFrom m.fromPortName (s.places side side' q)).map UserMessage.data)

/-- What was written to a port is on its way, in the queue of the port, or read from it. -/
def Balanced (sender receiver : Party) : Prop :=
  ∀ x, (addressedTo x sender.written).Perm
    (receiver.readFrom x ++ (receiver.node.queueOf x ++ addressedTo x (users sender.inFlight)))

section Moves
variable {sender receiver p : Party} {use : PortName → Use}

theorem addressedTo_append (x : PortName) (messages messages' : List UserMessage) :
    addressedTo x (messages ++ messages') = addressedTo x messages ++ addressedTo x messages' :=
  List.filter_append ..

theorem readFrom_append {p t : Party} {y : PortName} {m : UserMessage}
    (read : t.read = p.read ++ [(y,m)]) (x : PortName) :
    t.readFrom x = p.readFrom x ++ if x = y then [m] else [] := by
  unfold Party.readFrom
  rw [read,List.filter_append,List.map_append]
  congr 1
  by_cases same : x = y
  · subst same
    simp
  · simp [same,Ne.symm same]

theorem Balanced.sameSender (balanced : Balanced sender receiver) (written : p.written = sender.written)
    (sent : users p.inFlight = users sender.inFlight) : Balanced p receiver := by
  intro x
  rw [written,sent]
  exact balanced x

theorem Balanced.sameReceiver (balanced : Balanced sender receiver) (read : p.read = receiver.read)
    (queues : ∀ x, p.node.queueOf x = receiver.node.queueOf x) : Balanced sender p := by
  intro x
  rw [Party.readFrom,read,queues]
  exact balanced x

theorem Balanced.quietReceiver (balanced : Balanced sender receiver) (quiet : Quiet receiver p use)
    (shown : ∀ m ∈ sender.written, use m.toPortName = .front) : Balanced sender p := by
  intro x
  have reads : p.readFrom x = receiver.readFrom x := by rw [Party.readFrom,quiet.read,Party.readFrom]
  rw [reads]
  obtain same | ⟨lost,hidden⟩ := quiet.queues x
  · rw [same]
    exact balanced x
  · have unwritten : addressedTo x sender.written = [] := by
      unfold addressedTo
      rw [List.filter_eq_nil_iff]
      intro m member same
      exact hidden (of_decide_eq_true same ▸ shown m member)
    have before := balanced x
    rw [unwritten] at before ⊢
    have empty := before.symm.eq_nil
    rw [List.append_eq_nil_iff,List.append_eq_nil_iff] at empty
    rw [lost,empty.1,empty.2.2]
    exact List.Perm.nil

theorem Balanced.write (balanced : Balanced sender receiver) {m : UserMessage}
    (written : p.written = sender.written ++ [m])
    (sent : users p.inFlight = users sender.inFlight ++ [m]) : Balanced p receiver := by
  intro x
  rw [written,sent,addressedTo_append,addressedTo_append,← List.append_assoc,← List.append_assoc]
  apply List.Perm.append_right
  rw [List.append_assoc]
  exact balanced x

theorem Balanced.read (balanced : Balanced sender receiver) {y : PortName} {m : UserMessage}
    (read : p.read = receiver.read ++ [(y,m)])
    (queues : ∀ x, receiver.node.queueOf x = p.node.queueOf x ++ if x = y then [m] else []) :
    Balanced sender p := by
  intro x
  apply (balanced x).trans
  rw [readFrom_append read,queues]
  simp only [List.append_assoc]
  apply List.Perm.append_left
  rw [← List.append_assoc,← List.append_assoc]
  exact List.perm_append_comm.append_right _

theorem Balanced.arrive (balanced : Balanced sender receiver) {sender' : Party} {m : UserMessage}
    (written : sender'.written = sender.written)
    (sent : users sender.inFlight = m :: users sender'.inFlight) (read : p.read = receiver.read)
    (queues : ∀ x, p.node.queueOf x =
      receiver.node.queueOf x ++ if x = m.toPortName then [m] else []) : Balanced sender' p := by
  intro x
  have reads : p.readFrom x = receiver.readFrom x := by rw [Party.readFrom,read,Party.readFrom]
  have split : addressedTo x (users sender.inFlight) =
      (if x = m.toPortName then [m] else []) ++ addressedTo x (users sender'.inFlight) := by
    rw [sent]
    unfold addressedTo
    by_cases same : x = m.toPortName
    · simp [same]
    · simp [same,Ne.symm same]
  have before := balanced x
  rw [split,← List.append_assoc (receiver.node.queueOf x)] at before
  rw [written,reads,queues]
  exact before

end Moves

/-- A port of one side has been given one of the other as its peer. -/
def Progress.Linked (g : Progress) : Side → PortName → PortName → Prop
  | .inviter,p,q => ⟨p,q⟩ ∈ g.joins
  | .invitee,p,q => ⟨q,p⟩ ∈ g.settled

structure Ledger (party : Side → Party) (g : Progress) : Prop where
  written : ∀ side, ∀ m ∈ (party side).written, g.Linked side m.fromPortName m.toPortName
  balanced : ∀ side, Balanced (party side) (party side.other)

section Links
variable {inviter invitee : NodeName} {s : System} {g g' : Progress} {side : Side} {p q : PortName}

theorem Progress.Linked.below (linked : g.Linked side p q) (below : g.Below g') : g'.Linked side p q := by
  cases side with
  | inviter => exact below.joins _ linked
  | invitee => exact below.settled _ linked

theorem Progress.Linked.joins (linked : g.Linked side p q) : g.joins ≠ [] := by
  intro none
  cases side with
  | inviter => exact List.ne_nil_of_mem linked none
  | invitee => exact List.ne_nil_of_mem (List.mem_append_left _ linked) none

theorem Handshake.sideName (h : Handshake inviter invitee s g) (side : Side) :
    (s.party side).core.controller.name = (s.party side).node.name := by
  cases side with
  | inviter => exact h.inviterState.name.trans h.inviterState.node.symm
  | invitee => exact h.inviteeState.name.trans h.inviteeState.node.symm

theorem Handshake.linkedPeer (h : Handshake inviter invitee s g) (linked : g.Linked side p q) :
    (s.party side).node.peerOf p = some ((s.party side.other).node.name,q) := by
  cases side with
  | inviter =>
    change _ = some ((s.party .invitee).node.name,q)
    rw [show (s.party .invitee).node.name = invitee from h.inviteeState.node]
    exact h.joined.inviterPeer _ linked
  | invitee =>
    change _ = some ((s.party .inviter).node.name,q)
    rw [show (s.party .inviter).node.name = inviter from h.inviterState.node]
    exact h.joined.inviteePeer _ linked

theorem Handshake.peerLinked (h : Handshake inviter invitee s g) {node : NodeName}
    (peer : (s.party side).node.peerOf p = some (node,q)) (away : node ≠ (s.party side).node.name) :
    g.Linked side p q := by
  cases side with
  | inviter =>
    obtain here | ⟨_,join⟩ := h.joined.inviterOnly p node q peer
    · exact absurd (here.trans h.inviterState.node.symm) away
    · exact join
  | invitee =>
    obtain here | ⟨_,join⟩ := h.joined.inviteeOnly p node q peer
    · exact absurd (here.trans h.inviteeState.node.symm) away
    · exact join

theorem Handshake.linkedFront (h : Handshake inviter invitee s g) (linked : g.Linked side p q) :
    g.use side.other q = .front := by
  cases side with
  | inviter =>
    obtain ⟨r,_,_,first,port,_⟩ := h.joined.matched _ linked
    have served : r ∈ (s.party .invitee).requests := by
      rw [h.joined.requests]
      exact List.mem_append_left _ (List.mem_of_find?_eq_some first)
    have front := ((h.kept .invitee).requests r served).1
    rw [port] at front
    exact front
  | invitee =>
    obtain ⟨_,handle,front,_,_,_,behind,name⟩ := h.joined.matched _ (List.mem_append_left _ linked)
    have used := ((h.kept .inviter).pipes handle front behind).2
    rw [name] at used
    exact used

theorem Handshake.linkedOpposite (h : Handshake inviter invitee s g) (linked : g.Linked side p q) :
    Opposite s side p side.other q := by
  refine ⟨h.linkedPeer linked,?_⟩
  cases side with
  | inviter =>
    obtain settled | opened := List.mem_append.mp linked
    · exact .inl (h.linkedPeer (show g.Linked .invitee q p from settled))
    · -- the response is what the invitee has not handled yet
      refine .inr ?_
      have response : Join.response ⟨p,q⟩ ∈ control (s.party .inviter).inFlight := by
        rw [h.toInvitee]
        exact List.mem_append_right _ (List.mem_map_of_mem opened)
      exact List.mem_of_mem_filter response
  | invitee =>
    have join : g.Linked .inviter q p := List.mem_append_left _ linked
    exact .inl (h.linkedPeer join)

end Links

section Steps
variable {inviter invitee : NodeName} {s : System} {g g' : Progress} {side : Side} {p : Party}

theorem balanced_setParty (sends : Balanced p (s.party side.other))
    (receives : Balanced (s.party side.other) p) (side' : Side) :
    Balanced ((s.setParty side p).party side') ((s.setParty side p).party side'.other) := by
  cases side with
  | inviter =>
    cases side' with
    | inviter => exact sends
    | invitee => exact receives
  | invitee =>
    cases side' with
    | inviter => exact receives
    | invitee => exact sends

theorem Ledger.receives (ledger : Ledger s.party g) (side : Side) :
    Balanced (s.party side.other) (s.party side) := by
  cases side with
  | inviter => exact ledger.balanced .invitee
  | invitee => exact ledger.balanced .inviter

theorem Ledger.quiet (ledger : Ledger s.party g)
    (shown : ∀ side p q, g.Linked side p q → g.use side.other q = .front)
    (quiet : Quiet (s.party side) p (g.use side)) : Ledger (s.setParty side p).party g where
  written := by
    apply forall_setParty (P := fun side p => ∀ m ∈ p.written, g.Linked side m.fromPortName m.toPortName)
    · rw [quiet.written]
      exact ledger.written side
    · exact ledger.written
  balanced := by
    apply balanced_setParty
    · exact (ledger.balanced side).sameSender quiet.written quiet.sent
    · apply (ledger.receives side).quietReceiver quiet
      intro m member
      have front := shown side.other _ _ (ledger.written side.other m member)
      cases side <;> exact front

theorem Ledger.below {party : Side → Party} (ledger : Ledger party g) (below : g.Below g') :
    Ledger party g' where
  written side m member := (ledger.written side m member).below below
  balanced := ledger.balanced

theorem Ledger.silent (ledger : Ledger s.party g) (joinless : g.joins = []) (side : Side) :
    users (s.party side).inFlight = [] := by
  have unwritten : (s.party side).written = [] := by
    rw [List.eq_nil_iff_forall_not_mem]
    intro m member
    exact (ledger.written side m member).joins joinless
  rw [List.eq_nil_iff_forall_not_mem]
  intro m member
  have there := ledger.balanced side m.toPortName
  rw [unwritten] at there
  have empty := there.symm.eq_nil
  rw [List.append_eq_nil_iff,List.append_eq_nil_iff,addressedTo,List.filter_eq_nil_iff] at empty
  exact empty.2.2 m member (decide_eq_true rfl)

theorem ask_quiet (p : Party) (name : List UInt8) (ref : PortRef) (handle : MojoHandle)
    (use : PortName → Use) : Quiet p (p.ask name ref handle) use := by
  refine ⟨rfl,rfl,?_,fun x => .inl (by rw [ask_node])⟩
  unfold Party.ask Party.inFlight NodeController.mergePortIntoInviter
  dsimp only
  split
  · rfl
  · next channel _ =>
    by_cases same : 0 = channel
    · subst same
      simp only [NodeController.sendChannelMessage,Function.update_self,users_append]
      exact List.append_nil _
    · simp only [NodeController.sendChannelMessage,Function.update_of_ne same]

theorem Quiet.trans {p u t : Party} {use use' : PortName → Use} (first : Quiet p u use)
    (second : Quiet u t use') (same : ∀ x, t.node.queueOf x = u.node.queueOf x) : Quiet p t use where
  written := second.written.trans first.written
  read := second.read.trans first.read
  sent := second.sent.trans first.sent
  queues x := by
    rw [same]
    exact first.queues x

theorem Makes.quiet {p t : Party} {use : PortName → Use} {names : List Name}
    (made : Makes p t use names) : Quiet p t use := by
  obtain ⟨u,use',_,extended,_,shape⟩ := made
  have grown : Quiet p u use := ⟨extended.written,extended.read,
    congrArg users (grows_inFlight extended.toGrows),fun x => .inl (extended.queues x)⟩
  obtain rfl | ⟨name,ref,handle,rfl,_⟩ := shape
  · exact grown
  · exact grown.trans (ask_quiet u name ref handle use) (fun x => by rw [ask_node])

theorem stepSendInvitation_quiet {invitation : MojoHandle} {tempNodeName : NodeName} {t : System}
    (ran : s.stepSendInvitation invitation tempNodeName = some t)
    (silent : users (s.party .inviter).inFlight = []) :
    ∃ p, t.party = (s.setParty .inviter p).party ∧ ∀ use, Quiet (s.party .inviter) p use := by
  obtain ⟨m,_,_,new,rfl⟩ := System.stepSendInvitation_ran ran
  refine ⟨_,rfl,fun use => ⟨rfl,rfl,?_,fun x => .inl rfl⟩⟩
  obtain ⟨_,channel,_⟩ := NodeController.invite_channel new tempNodeName
    (m.entries.map fun entry => (entry.1,entry.2))
  unfold Party.inFlight
  change users (((s.party .inviter).core.controller.invite tempNodeName _).channels 0).written = _
  rw [channel]
  exact silent.symm

theorem stepAcceptInvitation_quiet {t : System} (ran : s.stepAcceptInvitation = some t)
    (silent : users (s.party .invitee).inFlight = []) (counted : Counted (s.party .invitee).core) :
    ∃ p, t.party = (s.setParty .invitee p).party ∧ ∀ use, Quiet (s.party .invitee) p use := by
  obtain ⟨new,r,accepted,rfl⟩ := System.stepAcceptInvitation_ran ran
  have controller : ((s.party .invitee).core.addDispatcher (.invitation ∅)).2.controller =
      (s.party .invitee).core.controller := (addDispatcher_lookup counted _).2.1
  obtain ⟨_,⟨_,core⟩ | ⟨_,core⟩⟩ := Core.acceptInvitation_ran accepted
  · refine ⟨_,rfl,fun use => ⟨rfl,rfl,?_,fun x => .inl ?_⟩⟩
    · unfold Party.inFlight
      rw [core,controller]
    · unfold Party.node
      rw [core,controller]
  · refine ⟨_,rfl,fun use => ⟨rfl,rfl,?_,fun x => .inl ?_⟩⟩
    · rw [silent]
      unfold Party.inFlight
      rw [core,controller]
      simp only [NodeController.awaitInviter,NodeController.createChannel,new,Function.update_self]
      rfl
    · unfold Party.node
      rw [core,controller]
      rfl

theorem Handshake.sending (h : Handshake inviter invitee s g) {invitation : MojoHandle}
    {tempNodeName : NodeName} {t : System}
    (ran : s.stepSendInvitation invitation tempNodeName = some t) : g.phase = .idle := by
  obtain ⟨_,_,_,new,_⟩ := System.stepSendInvitation_ran ran
  exact h.created_idle new

theorem Handshake.accepting (h : Handshake inviter invitee s g) {t : System}
    (ran : s.stepAcceptInvitation = some t) : g.phase ≠ .accepted := by
  intro accepted
  have unconnected := h.created_unconnected (System.stepAcceptInvitation_ran ran).1
  rw [accepted] at unconnected
  contradiction

theorem Ledger.write (ledger : Ledger s.party g) (h : Handshake inviter invitee s g)
    {handle : MojoHandle} {data : List UInt8} (careful : Careful s (.call side (.write handle data)))
    (called : (s.party side).call (.write handle data) = some p) : Ledger (s.setParty side p).party g := by
  obtain rfl | ⟨ref,node,message,found,peer,source,_,rfl⟩ := write_cases (h.kept side) called
  · rw [setParty_same]
    exact ledger
  · have away : node ≠ (s.party side).node.name := careful ref found _ peer
    have channel := (h.peerChannel peer).resolve_left (h.sideName side ▸ away)
    have forwarded : (s.party side).core.controller.forwardEvent node message =
        (s.party side).core.controller.sendChannelMessage 0 (.userMessage message) := by
      rw [NodeController.forwardEvent,h.sideName side,if_neg away]
      simp only [NodeController.sendPeerEvent,NodeController.getPeerChannel,channel]
    rw [forwarded]
    constructor
    · apply forall_setParty (P := fun side p => ∀ m ∈ p.written, g.Linked side m.fromPortName m.toPortName)
      · intro m member
        obtain before | now := List.mem_append.mp member
        · exact ledger.written side m before
        · cases List.mem_singleton.mp now
          rw [source]
          exact h.peerLinked peer away
      · exact ledger.written
    · apply balanced_setParty
      · apply (ledger.balanced side).write rfl
        simp only [Party.inFlight,NodeController.sendChannelMessage,Function.update_self,users_append]
        rfl
      · exact (ledger.receives side).sameReceiver rfl (fun _ => rfl)

theorem Ledger.read (ledger : Ledger s.party g) (h : Handshake inviter invitee s g)
    {handle : MojoHandle} (called : (s.party side).call (.read handle) = some p) :
    Ledger (s.setParty side p).party g := by
  obtain rfl | ⟨ref,ptr,older,message,found,real,full,rfl⟩ := read_cases called
  · rw [setParty_same]
    exact ledger
  · obtain ⟨ptr',real',live⟩ := ((h.kept side).pipes handle ref found).1
    cases real.symm.trans real'
    constructor
    · exact forall_setParty
        (P := fun side p => ∀ m ∈ p.written, g.Linked side m.fromPortName m.toPortName)
        (ledger.written side) ledger.written
    · apply balanced_setParty
      · exact (ledger.balanced side).sameSender rfl rfl
      · apply (ledger.receives side).read rfl
        intro x
        change (s.party side).node.queueOf x = ((s.party side).node.setQueue ptr _).queueOf x ++ _
        rw [Node.queueOf_setQueue (h.kept side).wired live]
        split
        · next same => rw [same,← full,Node.queueOf_live live]
        · rw [List.append_nil]

theorem balanced_delivered {sender : Side} {rest : List Message}
    (sends : Balanced ((s.party sender).withInFlight rest) p)
    (receives : Balanced p ((s.party sender).withInFlight rest)) (side : Side) :
    Balanced ((delivered s sender rest p).party side) ((delivered s sender rest p).party side.other) := by
  cases sender with
  | inviter =>
    cases side with
    | inviter => exact sends
    | invitee => exact receives
  | invitee =>
    cases side with
    | inviter => exact receives
    | invitee => exact sends

/-- What is not for a port leaves without being missed, and a message of a pipe arrives. -/
theorem Ledger.deliver (ledger : Ledger s.party g) (h : Handshake inviter invitee s g)
    (distinct : inviter ≠ invitee) {sender : Side} {t : System} (ran : s.stepDeliver sender = some t) :
    ∃ g', Handshake inviter invitee t g' ∧ Ledger t.party g' := by
  obtain ⟨message,rest,p,g',flight,rfl,next,below,effect⟩ := h.deliver distinct ran
  refine ⟨g',next,Ledger.below ?_ below⟩
  have shown (side : Side) (p q : PortName) (linked : g.Linked side p q) := h.linkedFront linked
  obtain ⟨ctl,quiet⟩ | ⟨m,rfl,ptr,live,rfl⟩ := effect
  · have leaves : Quiet (s.party sender) ((s.party sender).withInFlight rest) (g.use sender) := by
      refine ⟨rfl,rfl,?_,fun _ => .inl rfl⟩
      rw [withInFlight_inFlight,flight]
      cases message with
      | userMessage m => contradiction
      | _ => rfl
    have other : (s.setParty sender ((s.party sender).withInFlight rest)).party sender.other =
        s.party sender.other := by
      cases sender <;> rfl
    exact (ledger.quiet shown leaves).quiet shown (other ▸ quiet)
  · have kept := h.kept sender.other
    constructor
    · apply forall_setParty (P := fun side p => ∀ m ∈ p.written, g.Linked side m.fromPortName m.toPortName)
      · exact ledger.written sender.other
      · exact forall_setParty
          (P := fun side p => ∀ m ∈ p.written, g.Linked side m.fromPortName m.toPortName)
          (ledger.written sender) ledger.written
    · apply balanced_delivered
      · refine Balanced.arrive (m := m) (ledger.balanced sender) rfl ?_ rfl ?_
        · rw [withInFlight_inFlight,flight]
          rfl
        · intro x
          change ((s.party sender.other).node.setQueue ptr _).queueOf x = _
          rw [Node.queueOf_setQueue kept.wired live]
          split
          · next same => rw [same,Node.queueOf_live live,MessageQueue.acceptMessage]
          · rw [List.append_nil]
      · exact ((ledger.receives sender).sameSender rfl rfl).sameReceiver rfl (fun _ => rfl)

theorem Ledger.step (ledger : Ledger s.party g) (h : Handshake inviter invitee s g)
    (distinct : inviter ≠ invitee) (valid : invitee ≠ kInvalidNodeName) {action : Action} {t : System}
    (careful : Careful s action) (ran : s.step action = some t) :
    ∃ g', Handshake inviter invitee t g' ∧ Ledger t.party g' := by
  have shown (side : Side) (p q : PortName) (linked : g.Linked side p q) := h.linkedFront linked
  cases action with
  | call side call =>
    obtain ⟨g',next,joins⟩ := h.call valid ran
    refine ⟨g',next,Ledger.below ?_ joins.below⟩
    change s.stepCall side call = some t at ran
    unfold System.stepCall at ran
    split at ran
    · next fresh =>
      obtain ⟨p,called,same⟩ := Option.bind_eq_some_iff.mp ran
      cases same
      change Ledger (s.setParty side p).party g
      obtain made | ⟨handle,data,rfl⟩ | ⟨handle,rfl⟩ := h.callMakes fresh called
      · exact ledger.quiet shown made.quiet
      · exact ledger.write h careful called
      · exact ledger.read h called
    · contradiction
  | sendInvitation invitation tempNodeName =>
    obtain ⟨g',next,joins⟩ := h.sendInvitation ran
    refine ⟨g',next,Ledger.below ?_ joins.below⟩
    have silent : users (s.party .inviter).inFlight = [] := by
      apply ledger.silent
      obtain ⟨_,settled,opened⟩ := h.joined.early (by rw [h.sending ran]; simp)
      rw [Progress.joins,settled,opened]
      rfl
    obtain ⟨p,same,quiet⟩ := stepSendInvitation_quiet ran silent
    rw [same]
    exact ledger.quiet shown (quiet _)
  | acceptInvitation =>
    obtain ⟨g',next,joins⟩ := h.acceptInvitation ran
    refine ⟨g',next,Ledger.below ?_ joins.below⟩
    have silent : users (s.party .invitee).inFlight = [] := by
      apply ledger.silent
      obtain ⟨_,settled,opened⟩ := h.joined.early (h.accepting ran)
      rw [Progress.joins,settled,opened]
      rfl
    obtain ⟨p,same,quiet⟩ := stepAcceptInvitation_quiet ran silent (h.kept .invitee).counted
    rw [same]
    exact ledger.quiet shown (quiet _)
  | deliver sender => exact ledger.deliver h distinct ran

end Steps

section Conservation
variable {inviter invitee : NodeName} {s : System} {g : Progress}

theorem sentFrom_addressedTo {x y : PortName} {messages : List UserMessage}
    (one : ∀ m ∈ messages, m.fromPortName = x → m.toPortName = y) :
    sentFrom x (addressedTo y messages) = sentFrom x messages := by
  unfold sentFrom addressedTo
  rw [List.filter_filter]
  apply List.filter_congr
  intro m member
  by_cases source : m.fromPortName = x
  · simp [source,one m member source]
  · simp [source]

theorem Handshake.held (h : Handshake inviter invitee s g) (side : Side) : (s.party side).held = [] := by
  have pending (name : NodeName) :
      (s.party side).core.controller.pendingPeerMessages.lookup name = none := by
    cases side with
    | inviter => exact h.inviterState.pending name
    | invitee => exact h.inviteeState.pending name
  have entries : (s.party side).core.controller.pendingPeerMessages.entries = [] := by
    rw [List.eq_nil_iff_forall_not_mem]
    intro entry member
    have found := AList.mem_lookup_iff.mpr member
    rw [pending] at found
    contradiction
  rw [Party.held,entries]
  rfl

theorem Handshake.conserved (h : Handshake inviter invitee s g) (ledger : Ledger s.party g) :
    Conserved s := by
  intro side m member
  have linked := ledger.written side m member
  refine ⟨side.other,m.toPortName,h.linkedOpposite linked,?_⟩
  -- a port is linked once, so what is written on it goes to one port
  have one (m' : UserMessage) (member' : m' ∈ (s.party side).written)
      (source : m'.fromPortName = m.fromPortName) : m'.toPortName = m.toPortName := by
    have peer := h.linkedPeer linked
    have peer' := h.linkedPeer (ledger.written side m' member')
    rw [source,peer] at peer'
    exact (congrArg Prod.snd (Option.some.inj peer')).symm
  have flying (m' : UserMessage) (member' : m' ∈ users (s.party side).inFlight) :
      m' ∈ (s.party side).written := by
    have sent : m' ∈ addressedTo m'.toPortName (users (s.party side).inFlight) :=
      List.mem_filter.mpr ⟨member',decide_eq_true rfl⟩
    have placed := List.mem_append_right ((s.party side.other).readFrom m'.toPortName)
      (List.mem_append_right ((s.party side.other).node.queueOf m'.toPortName) sent)
    exact List.mem_of_mem_filter ((ledger.balanced side m'.toPortName).mem_iff.mpr placed)
  have account := (ledger.balanced side m.toPortName).filter fun m' => m'.fromPortName = m.fromPortName
  change (sentFrom _ (addressedTo _ _)).Perm (sentFrom _ _) at account
  rw [sentFrom_addressedTo one] at account
  apply List.Perm.map
  apply account.trans
  unfold System.places
  rw [h.held,List.append_nil]
  have flight : sentFrom m.fromPortName (addressedTo m.toPortName (users (s.party side).inFlight)) =
      sentFrom m.fromPortName (users (s.party side).inFlight) :=
    sentFrom_addressedTo fun m' member' => one m' (flying m' member')
  unfold sentFrom at flight ⊢
  rw [List.filter_append,List.filter_append,List.filter_append,List.filter_append,flight]

theorem ledger_start (inviter invitee : NodeName) (g : Progress) :
    Ledger (System.start inviter invitee).party g where
  written
    | .inviter => fun _ member => (nomatch member)
    | .invitee => fun _ member => (nomatch member)
  balanced
    | .inviter => fun _ => List.Perm.nil
    | .invitee => fun _ => List.Perm.nil

theorem reachable_ledger (distinct : inviter ≠ invitee) (valid : invitee ≠ kInvalidNodeName)
    (reached : Reachable inviter invitee Careful s) :
    ∃ g, Handshake inviter invitee s g ∧ Ledger s.party g := by
  induction reached with
  | start => exact ⟨_,handshake_start inviter invitee,ledger_start inviter invitee _⟩
  | step s t action before may ran ih =>
    obtain ⟨g,h,ledger⟩ := ih
    exact ledger.step h distinct valid may ran

/-- No message is lost in a run whose writes are all for the other node. -/
theorem reachable_conserved (distinct : inviter ≠ invitee) (valid : invitee ≠ kInvalidNodeName)
    (reached : Reachable inviter invitee Careful s) : Conserved s := by
  obtain ⟨g,h,ledger⟩ := reachable_ledger distinct valid reached
  exact h.conserved ledger

theorem careful_onePipe : ∀ action ∈ onePipe, ∀ s, Careful s action := by
  simp [onePipe,Careful]

def oneMessage : List Action :=
  [.call .inviter (.write 2 [42]),.deliver .inviter,.call .invitee (.read 2)]

theorem reachable_conserved_oneMessage :
    ∃ s, (System.start ⟨1,1⟩ ⟨2,2⟩).run (onePipe ++ oneMessage) = some s ∧
      (s.party .inviter).written = [⟨⟨3,3⟩,⟨5,5⟩,[42]⟩] ∧
      (s.party .invitee).read = [(⟨5,5⟩,⟨⟨3,3⟩,⟨5,5⟩,[42]⟩)] ∧ Conserved s := by
  obtain ⟨s,whole⟩ := Option.isSome_iff_exists.mp
    (show ((System.start ⟨1,1⟩ ⟨2,2⟩).run onePipe).isSome by rfl)
  obtain ⟨t,ran⟩ := Option.isSome_iff_exists.mp
    (show ((System.start ⟨1,1⟩ ⟨2,2⟩).run (onePipe ++ oneMessage)).isSome by rfl)
  have port : (s.party .inviter).portOf 2 = some ⟨⟨3,3⟩,some 0⟩ :=
    run_fact whole (fun s => (s.party .inviter).portOf 2) (by rfl)
  have peer : (s.party .inviter).node.peerOf ⟨3,3⟩ = some (⟨2,2⟩,⟨5,5⟩) :=
    run_fact whole (fun s => (s.party .inviter).node.peerOf ⟨3,3⟩) (by rfl)
  have name : (s.party .inviter).node.name = ⟨1,1⟩ :=
    run_fact whole (fun s => (s.party .inviter).node.name) (by rfl)
  have careful : Careful s (.call .inviter (.write 2 [42])) := by
    intro ref behind addr found
    rw [port] at behind
    cases behind
    rw [peer] at found
    cases found
    rw [name]
    decide
  have rest : s.run oneMessage = some t := by
    have split := ran
    rw [System.run,List.foldlM_append] at split
    change ((System.start ⟨1,1⟩ ⟨2,2⟩).run onePipe).bind _ = _ at split
    rw [whole] at split
    exact split
  obtain ⟨u,wrote,later⟩ := Option.bind_eq_some_iff.mp rest
  have before : Reachable ⟨1,1⟩ ⟨2,2⟩ Careful s := reachable_run careful_onePipe .start whole
  have reached : Reachable ⟨1,1⟩ ⟨2,2⟩ Careful t := by
    apply reachable_run _ (.step s u _ before careful wrote) later
    simp [Careful]
  refine ⟨t,ran,?_,?_,reachable_conserved (by decide) (by decide) reached⟩
  · exact run_fact ran (fun s => (s.party .inviter).written) (by rfl)
  · exact run_fact ran (fun s => (s.party .invitee).read) (by rfl)

/-- A name is attached and its pipe written to at once. -/
def earlyWrite : List Action :=
  [.call .inviter .createInvitation,
    .call .inviter (.attach 1 [7] ⟨3,3⟩ ⟨4,4⟩),
    .call .inviter (.write 2 [42])]

theorem earlyWrite_lost : ∃ s, Reachable ⟨1,1⟩ ⟨2,2⟩ (fun _ _ => True) s ∧ ¬Conserved s := by
  obtain ⟨s,ran⟩ := Option.isSome_iff_exists.mp
    (show ((System.start ⟨1,1⟩ ⟨2,2⟩).run earlyWrite).isSome by rfl)
  refine ⟨s,reachable_run (fun _ _ _ => trivial) .start ran,?_⟩
  have written : (s.party .inviter).written = [⟨⟨3,3⟩,⟨4,4⟩,[42]⟩] :=
    run_fact ran (fun s => (s.party .inviter).written) (by rfl)
  have peer : (s.party .inviter).node.peerOf ⟨3,3⟩ = some (⟨1,1⟩,⟨4,4⟩) :=
    run_fact ran (fun s => (s.party .inviter).node.peerOf ⟨3,3⟩) (by rfl)
  have other : (s.party .invitee).node.name = ⟨2,2⟩ :=
    run_fact ran (fun s => (s.party .invitee).node.name) (by rfl)
  have places : s.places .inviter .inviter ⟨4,4⟩ = [] :=
    run_fact ran (fun s => s.places .inviter .inviter ⟨4,4⟩) (by rfl)
  intro conserved
  obtain ⟨side',q,⟨there,_⟩,account⟩ := conserved .inviter ⟨⟨3,3⟩,⟨4,4⟩,[42]⟩ (by rw [written]; simp)
  rw [peer] at there
  obtain ⟨node,port⟩ := Prod.mk.inj (Option.some.inj there)
  cases side' with
  | invitee =>
    rw [other] at node
    exact absurd node (by decide)
  | inviter =>
    rw [written,← port,places] at account
    exact absurd account.length_eq (by decide)

end Conservation

end MojoImpl.Invitation
