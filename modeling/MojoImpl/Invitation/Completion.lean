import MojoImpl.Foundation.Simulation
import MojoImpl.Controller.Tokens
import MojoImpl.Invitation.Delivery

/-! What is in flight between the two nodes is always delivered. The first message in each
direction has a handler that accepts it, every delivery makes the load smaller although
handlers send messages in turn, and once nothing is left the invitation has connected what
it should. -/
namespace MojoImpl.Invitation
open Foundation MojoImpl.Ports

/-- How many deliveries a message stands for, its answer included. -/
def weight : Message → Nat
  | .acceptInvitee _ => 2
  | .requestPortMerge _ => 2
  | _ => 1

def weights (messages : List Message) : Nat := (messages.map weight).sum

/-- The deliveries to come, those of the merges included that wait for the inviter. -/
def System.load (s : System) : Nat :=
  weights (s.party .inviter).inFlight + weights (s.party .invitee).inFlight +
    2*(s.party .invitee).core.controller.pendingPortMerges.length

def Progress.work (g : Progress) : Nat :=
  (if g.phase = .invited then 2 else if g.phase = .greeted then 1 else 0) + 2*g.waiting.length +
    g.opened.length

/-- The messages of the pipes are for ports that are joined. -/
def Flying (party : Side → Party) (g : Progress) : Prop :=
  ∀ side, ∀ m ∈ users (party side).inFlight, g.Linked side m.fromPortName m.toPortName

section Load
variable {inviter invitee : NodeName} {s : System} {g : Progress}

theorem weights_cons (message : Message) (rest : List Message) :
    weights (message::rest) = weight message + weights rest := by
  rw [weights,List.map_cons,List.sum_cons]
  rfl

theorem weights_append (messages messages' : List Message) :
    weights (messages ++ messages') = weights messages + weights messages' := by
  rw [weights,List.map_append,List.sum_append]
  rfl

theorem weights_split (messages : List Message) :
    weights messages = weights (control messages) + (users messages).length := by
  induction messages with
  | nil => rfl
  | cons message messages ih =>
    rw [weights_cons,ih]
    cases message with
    | userMessage m =>
      change 1 + (_ + _) = weights (control messages) + ((users messages).length + 1)
      omega
    | _ => exact (Nat.add_assoc _ _ _).symm.trans (congrArg (· + _) (weights_cons _ _).symm)

theorem weights_requests (requests : List Request) : weights (requests.map Request.message) = 2*requests.length := by
  induction requests with
  | nil => rfl
  | cons r requests ih =>
    rw [List.map_cons,weights_cons,ih,List.length_cons]
    change 2 + _ = _
    omega

theorem weights_responses (joins : List Join) : weights (joins.map Join.response) = joins.length := by
  induction joins with
  | nil => rfl
  | cons j joins ih =>
    rw [List.map_cons,weights_cons,ih,List.length_cons]
    change 1 + _ = _
    omega

/-- How far the handshake has gone says how much is left to deliver. -/
theorem Handshake.load_eq (h : Handshake inviter invitee s g) : s.load =
    (users (s.party .inviter).inFlight).length + (users (s.party .invitee).inFlight).length + g.work := by
  have merges := congrArg List.length h.inviteeState.merges
  rw [List.length_map] at merges
  rw [System.load,weights_split (s.party .inviter).inFlight,weights_split (s.party .invitee).inFlight,
    h.toInvitee,h.toInviter,weights_append,weights_append,weights_responses,merges,Progress.work]
  cases phase : g.phase with
  | idle =>
    simp only [Phase.connected,reduceCtorEq,Bool.false_eq_true,if_false,List.length_map,weights,List.map_nil,
      List.sum_nil]
    omega
  | invited =>
    simp only [Phase.connected,reduceCtorEq,Bool.false_eq_true,if_false,if_true,List.length_map,weights,
      List.map_nil,List.sum_nil,List.map_cons,List.sum_cons,weight]
    omega
  | greeted =>
    simp only [Phase.connected,reduceCtorEq,if_false,if_true,weights_requests,weights_cons,weight,
      List.length_nil]
    simp only [weights,List.map_nil,List.sum_nil]
    omega
  | accepted =>
    simp only [Phase.connected,reduceCtorEq,if_false,if_true,weights_requests,List.length_nil]
    simp only [weights,List.map_nil,List.sum_nil]
    omega

end Load

section Answers
variable {inviter invitee : NodeName} {s : System} {g : Progress}

theorem receive_some {p : Party} {fromNode : NodeName} (message : Message) {c : NodeController}
    (remote : (p.core.controller.channels 0).remoteNodeName = fromNode)
    (handled : p.core.controller.onMessage fromNode message = some c) :
    p.receive message = some (p.withController c) := by
  rw [Party.receive,remote,handled]
  rfl

/-- The first control message for the invitee is accepted and leaves less work. -/
theorem Handshake.answersInvitee (h : Handshake inviter invitee s g) (distinct : inviter ≠ invitee)
    {message : Message} {rest : List Message} (first : control (s.party .inviter).inFlight = message::control rest)
    (made : 0 < (s.party .invitee).core.controller.created) :
    ∃ p g', (s.party .invitee).receive message = some p ∧
      Handshake inviter invitee (delivered s .inviter rest p) g' ∧
      Quiet (s.party .invitee) p (g.use .invitee) ∧ g'.work < g.work := by
  have early := h.joined.early
  have state := h.inviteeState
  have expected := h.toInvitee
  rw [first] at expected
  by_cases phase : g.phase = .invited
  · obtain ⟨_,_,opened⟩ := early (by rw [phase]; simp)
    rw [if_pos phase,opened] at expected
    obtain ⟨rfl,quiet⟩ := List.cons.inj expected
    have peers := state.peers inviter
    simp only [phase,Phase.connected] at peers
    have channel := state.channel.resolve_left (by omega)
    have received := receive_some (.acceptInvitee ⟨g.token,inviter⟩) rfl
      (NodeController.onAcceptInvitee_effect channel.2 peers (state.pending inviter) g.token)
    obtain ⟨next,calm⟩ := h.greet phase quiet made received
    refine ⟨_,_,received,next,calm,?_⟩
    simp only [Progress.work,phase,reduceCtorEq,if_false,if_true]
    omega
  · rw [if_neg phase,List.nil_append] at expected
    cases opened : g.opened with
    | nil =>
      rw [opened] at expected
      contradiction
    | cons j later =>
      rw [opened] at expected
      obtain ⟨rfl,responses⟩ := List.cons.inj expected
      have accepted : g.phase = .accepted := by
        by_contra other
        rw [(early other).2.2] at opened
        contradiction
      have kept := h.kept .invitee
      obtain ⟨q,homely,_⟩ := h.joined.homely kept state.node distinct opened
      obtain ⟨ptr,ptr',mates⟩ := kept.wired.mates homely
      have remote : inviter ≠ (s.party .invitee).node.name := state.node.symm ▸ distinct
      obtain ⟨t,merged,_⟩ := Node.mergePortsResponse_rejoins mates remote j.inviter
      have handled : (s.party .invitee).core.controller.onMessage inviter j.response =
          some { (s.party .invitee).core.controller with node := t } := by
        change ((s.party .invitee).node.mergePortsResponse j.invitee inviter j.inviter).bind _ = _
        rw [merged]
        rfl
      have received := receive_some j.response (state.remote (by rw [accepted]; rfl)) handled
      obtain ⟨next,calm⟩ := h.settle distinct accepted opened responses received
      refine ⟨_,_,received,next,calm,?_⟩
      simp only [Progress.work,opened,List.length_cons]
      omega

/-- The first control message for the inviter is accepted and leaves less work. -/
theorem Handshake.answersInviter (h : Handshake inviter invitee s g) (distinct : inviter ≠ invitee)
    {message : Message} {rest : List Message} (first : control (s.party .invitee).inFlight = message::control rest) :
    ∃ p g', (s.party .inviter).receive message = some p ∧
      Handshake inviter invitee (delivered s .invitee rest p) g' ∧
      Quiet (s.party .inviter) p (g.use .inviter) ∧ g'.work < g.work := by
  have state := h.inviterState
  have expected := h.toInviter
  rw [first] at expected
  cases phase : g.phase with
  | idle =>
    rw [phase] at expected
    contradiction
  | invited =>
    rw [phase] at expected
    contradiction
  | greeted =>
    rw [phase] at expected
    obtain ⟨rfl,requests⟩ := List.cons.inj expected
    have contact : g.contact invitee = g.token := by simp [Progress.contact,phase]
    have unknown : (s.party .inviter).core.controller.peers.lookup invitee = none := by
      rw [state.peers,phase]
      exact if_neg (by simp)
    have received := receive_some (.acceptInvitation ⟨g.token,invitee⟩)
      ((state.remote (by rw [phase]; simp)).trans contact)
      (NodeController.onAcceptInvitation_effect (state.invited (.inr phase)) unknown (state.pending invitee))
    obtain ⟨next,calm⟩ := h.admit phase requests received
    refine ⟨_,_,received,next,calm,?_⟩
    simp only [Progress.work,phase,reduceCtorEq,if_false,if_true]
    omega
  | accepted =>
    rw [phase] at expected
    cases waiting : g.waiting with
    | nil =>
      rw [waiting] at expected
      contradiction
    | cons r later =>
      rw [waiting] at expected
      obtain ⟨rfl,requests⟩ := List.cons.inj expected
      have contact : g.contact invitee = invitee := by simp [Progress.contact,phase]
      have remote := (state.remote (by rw [phase]; simp)).trans contact
      cases taken : NodeController.takeReserved (s.party .inviter).core.controller.reservedPorts invitee r.name with
      | none =>
        -- a request for a name that is not reserved is dropped
        have ignored : (s.party .inviter).core.controller.onMessage invitee r.message =
            some (s.party .inviter).core.controller := by
          change (s.party .inviter).core.controller.onRequestPortMerge invitee r.port r.name = _
          unfold NodeController.onRequestPortMerge
          rw [taken]
        have received := receive_some r.message remote ignored
        obtain ⟨next,calm⟩ := h.ignore phase waiting requests received
          (NodeController.takeReserved_none.mp taken)
        refine ⟨_,_,received,next,calm,?_⟩
        simp only [Progress.work,waiting,List.length_cons]
        omega
      | some pair =>
        obtain ⟨ref,left⟩ := pair
        obtain ⟨⟨ptr,real,live⟩,_,_,_,front,_,_,peer⟩ :=
          h.joined.reserved invitee r.name ref (NodeController.takeReserved_some taken)
        rw [← state.node] at peer
        obtain ⟨ptr1,ptr0,mates⟩ := (h.kept .inviter).wired.mates peer
        have foreign : invitee ≠ (s.party .inviter).node.name := state.node.symm ▸ distinct.symm
        obtain ⟨t,merged,_⟩ := Node.mergePorts_rejoins mates.symm foreign r.port
        have whole : ref = ⟨ref.name,some ptr1⟩ := by
          rw [mates.live0] at live
          cases live
          rw [← real]
        rw [← whole] at merged
        have known : (s.party .inviter).core.controller.peers.lookup invitee = some 0 := by
          rw [state.peers,if_pos ⟨phase,rfl⟩]
        have received := receive_some r.message remote
          (NodeController.onRequestPortMerge_effect taken merged known)
        obtain ⟨j,next,calm⟩ := h.serve distinct phase waiting requests received taken
        refine ⟨_,_,received,next,calm,?_⟩
        simp only [Progress.work,waiting,List.length_cons,List.length_append,List.length_nil]
        omega

end Answers

section Flights
variable {inviter invitee : NodeName} {s t : System} {g g' : Progress} {side : Side} {p : Party}

theorem Handshake.linkedLive (h : Handshake inviter invitee s g) {x q : PortName} (linked : g.Linked side x q) :
    ∃ addr, (s.party side.other).node.peerOf q = some addr := by
  cases side with
  | inviter =>
    obtain ⟨r,_,_,first,port,_⟩ := h.joined.matched _ linked
    have served : r ∈ (s.party .invitee).requests := by
      rw [h.joined.requests]
      exact List.mem_append_left _ (List.mem_of_find?_eq_some first)
    obtain ⟨_,_,live,_⟩ := (h.kept .invitee).requests r served
    rw [port] at live
    exact live
  | invitee => exact ⟨_,h.joined.inviterPeer _ (List.mem_append_left _ linked)⟩

theorem Flying.silent (flying : Flying s.party g) (joinless : g.joins = []) (side : Side) :
    users (s.party side).inFlight = [] := by
  rw [List.eq_nil_iff_forall_not_mem]
  intro m member
  exact (flying side m member).joins joinless

/-- The message was in flight, or is written by the action to a port that is joined. -/
def Sends (s : System) (g : Progress) (action : Action) (side : Side) (m : UserMessage) : Prop :=
  m ∈ users (s.party side).inFlight ∨
    (g.Linked side m.fromPortName m.toPortName ∧ ∃ handle, action = .call side (.write handle m.data))

theorem sends_set {action : Action} (here : ∀ m ∈ users p.inFlight, Sends s g action side m) (side' : Side) :
    ∀ m ∈ users ((s.setParty side p).party side').inFlight, Sends s g action side' m :=
  forall_setParty (P := fun side p => ∀ m ∈ users p.inFlight, Sends s g action side m) here
    (fun _ _ member => .inl member) side'

theorem sends_same {action : Action} (same : users p.inFlight = users (s.party side).inFlight) (side' : Side) :
    ∀ m ∈ users ((s.setParty side p).party side').inFlight, Sends s g action side' m := by
  apply sends_set
  rw [same]
  exact fun _ member => .inl member

theorem Handshake.sendsWrite (h : Handshake inviter invitee s g) {handle : MojoHandle} {data : List UInt8}
    (called : (s.party side).call (.write handle data) = some p) (side' : Side) :
    ∀ m ∈ users ((s.setParty side p).party side').inFlight, Sends s g (.call side (.write handle data)) side' m := by
  obtain rfl | ⟨ref,node,message,found,peer,source,written,rfl⟩ := write_cases (h.kept side) called
  · exact sends_same rfl side'
  · by_cases home : node = (s.party side).core.controller.name
    · apply sends_same
      simp only [Party.inFlight,NodeController.forwardEvent,if_pos home]
    · have channel := (h.peerChannel peer).resolve_left home
      have away : node ≠ (s.party side).node.name := h.sideName side ▸ home
      apply sends_set
      intro m member
      simp only [Party.inFlight,NodeController.forwardEvent,if_neg home,NodeController.sendPeerEvent,
        NodeController.getPeerChannel,channel,NodeController.sendChannelMessage,Function.update_self,
        users_append] at member
      obtain before | now := List.mem_append.mp member
      · exact .inl before
      · cases List.mem_singleton.mp now
        refine .inr ⟨?_,handle,by rw [written]⟩
        rw [source]
        exact h.peerLinked peer away

theorem sendsRead {handle : MojoHandle} (called : (s.party side).call (.read handle) = some p) (side' : Side) :
    ∀ m ∈ users ((s.setParty side p).party side').inFlight, Sends s g (.call side (.read handle)) side' m := by
  obtain rfl | ⟨ref,ptr,older,message,_,_,_,rfl⟩ := read_cases called
  · exact sends_same rfl side'
  · refine sends_same ?_ side'
    rfl

theorem sendsDeliver {sender : Side} {message : Message} {rest : List Message}
    (flight : (s.party sender).inFlight = message::rest)
    (same : users p.inFlight = users (s.party sender.other).inFlight) (side : Side) :
    ∀ m ∈ users ((delivered s sender rest p).party side).inFlight, Sends s g (.deliver sender) side m := by
  have left (m : UserMessage) (member : m ∈ users ((s.party sender).withInFlight rest).inFlight) :
      m ∈ users (s.party sender).inFlight := by
    rw [withInFlight_inFlight] at member
    rw [flight]
    exact ((List.sublist_cons_self message rest).filterMap _).subset member
  apply forall_setParty (P := fun side p => ∀ m ∈ users p.inFlight, Sends s g (.deliver sender) side m)
  · rw [same]
    exact fun _ member => .inl member
  · exact sends_set fun m member => .inl (left m member)

/-- A message of a pipe gets in flight by a write only, to a port that is joined. -/
theorem Handshake.sends (h : Handshake inviter invitee s g) (flying : Flying s.party g)
    (distinct : inviter ≠ invitee) {action : Action} (ran : s.step action = some t) (side : Side) :
    ∀ m ∈ users (t.party side).inFlight, Sends s g action side m := by
  cases action with
  | call side' call =>
    change s.stepCall side' call = some t at ran
    unfold System.stepCall at ran
    split at ran
    · next fresh =>
      obtain ⟨p,called,same⟩ := Option.bind_eq_some_iff.mp ran
      cases same
      change ∀ m ∈ users ((s.setParty side' p).party side).inFlight, _
      obtain made | ⟨handle,data,rfl⟩ | ⟨handle,rfl⟩ := h.callMakes fresh called
      · exact sends_same made.quiet.sent side
      · exact h.sendsWrite called side
      · exact sendsRead called side
    · contradiction
  | sendInvitation invitation tempNodeName =>
    have silent : users (s.party .inviter).inFlight = [] := by
      apply flying.silent
      obtain ⟨_,settled,opened⟩ := h.joined.early (by rw [h.sending ran]; simp)
      rw [Progress.joins,settled,opened]
      rfl
    obtain ⟨p,same,quiet⟩ := stepSendInvitation_quiet ran silent
    rw [same]
    exact sends_same (quiet fun _ => .front).sent side
  | acceptInvitation =>
    have silent : users (s.party .invitee).inFlight = [] := by
      apply flying.silent
      obtain ⟨_,settled,opened⟩ := h.joined.early (h.accepting ran)
      rw [Progress.joins,settled,opened]
      rfl
    obtain ⟨p,same,quiet⟩ := stepAcceptInvitation_quiet ran silent (h.kept .invitee).counted
    rw [same]
    exact sends_same (quiet fun _ => .front).sent side
  | deliver sender =>
    obtain ⟨message,rest,p,_,flight,rfl,_,_,effect⟩ := h.deliver distinct ran
    obtain ⟨_,quiet⟩ | ⟨m,rfl,ptr,live,rfl⟩ := effect
    · exact sendsDeliver flight quiet.sent side
    · refine sendsDeliver flight ?_ side
      rfl

theorem Flying.step (flying : Flying s.party g) (h : Handshake inviter invitee s g)
    (distinct : inviter ≠ invitee) (valid : invitee ≠ kInvalidNodeName) {action : Action}
    (ran : s.step action = some t) : ∃ g', Handshake inviter invitee t g' ∧ Flying t.party g' := by
  obtain ⟨g',next,below⟩ := h.step distinct valid ran
  refine ⟨g',next,fun side m member => ?_⟩
  obtain before | ⟨linked,_⟩ := h.sends flying distinct ran side m member
  · exact (flying side m before).below below
  · exact linked.below below

end Flights

section Completing
variable {inviter invitee : NodeName} {s t : System} {g : Progress}

/-- Both parties have their channels and know what is in flight. -/
structure Met (inviter invitee : NodeName) (s : System) : Prop where
  handshake : ∃ g, Handshake inviter invitee s g ∧ Flying s.party g
  made : ∀ side, 0 < (s.party side).core.controller.created

theorem reachable_flying (distinct : inviter ≠ invitee) (valid : invitee ≠ kInvalidNodeName)
    {allowed : System → Action → Prop} (reached : Reachable inviter invitee allowed s) :
    ∃ g, Handshake inviter invitee s g ∧ Flying s.party g := by
  induction reached with
  | start =>
    refine ⟨_,handshake_start inviter invitee,fun side m member => ?_⟩
    cases side <;> exact absurd member List.not_mem_nil
  | step s t action before may ran ih =>
    obtain ⟨g,h,flying⟩ := ih
    exact flying.step h distinct valid ran

theorem receive_created {p t : Party} {message : Message} (ran : p.receive message = some t)
    (made : 0 < p.core.controller.created) : 0 < t.core.controller.created := by
  obtain ⟨c,handled,same⟩ := Option.bind_eq_some_iff.mp ran
  cases same
  have event : p.core.controller.event (.message 0 message) = some c := (if_pos made).trans handled
  have effect := NodeController.Registry.event_effect p.core.controller.registry (.message 0 message)
  rw [← NodeController.registry_event event] at effect
  exact Nat.lt_of_lt_of_le made (NodeController.created_effect effect)

theorem stepDeliver_received {sender : Side} {message : Message} {rest : List Message} {p : Party}
    (flight : (s.party sender).inFlight = message::rest)
    (made : 0 < (s.party sender.other).core.controller.created)
    (received : (s.party sender.other).receive message = some p) :
    s.stepDeliver sender = some (delivered s sender rest p) := by
  unfold System.stepDeliver
  rw [flight]
  dsimp only
  rw [if_pos made,received]
  rfl

theorem delivered_load (s : System) (sender : Side) (rest : List Message) {p : Party}
    (pending : p.core.controller.pendingPortMerges = (s.party sender.other).core.controller.pendingPortMerges)
    (flight : p.inFlight = (s.party sender.other).inFlight) :
    (delivered s sender rest p).load + weights (s.party sender).inFlight = s.load + weights rest := by
  cases sender with
  | inviter =>
    change weights ((s.party .inviter).withInFlight rest).inFlight + weights p.inFlight +
      2*p.core.controller.pendingPortMerges.length + _ = _
    rw [withInFlight_inFlight,pending,flight,System.load]
    change weights rest + weights (s.party .invitee).inFlight +
      2*(s.party .invitee).core.controller.pendingPortMerges.length + _ = _
    omega
  | invitee =>
    change weights p.inFlight + weights ((s.party .invitee).withInFlight rest).inFlight +
      2*(s.party .invitee).core.controller.pendingPortMerges.length + _ = _
    rw [withInFlight_inFlight,flight,System.load]
    change weights (s.party .inviter).inFlight + weights rest +
      2*(s.party .invitee).core.controller.pendingPortMerges.length + _ = _
    omega

theorem delivered_users (s : System) (sender : Side) {message : Message} {rest : List Message} {p : Party}
    (flight : (s.party sender).inFlight = message::rest) (ctl : isControl message = true)
    (same : users p.inFlight = users (s.party sender.other).inFlight) (side : Side) :
    users ((delivered s sender rest p).party side).inFlight = users (s.party side).inFlight := by
  have left : users ((s.party sender).withInFlight rest).inFlight = users (s.party sender).inFlight := by
    rw [withInFlight_inFlight,flight]
    cases message with
    | userMessage m => contradiction
    | _ => rfl
  cases sender with
  | inviter =>
    cases side with
    | inviter => exact left
    | invitee => exact same
  | invitee =>
    cases side with
    | inviter => exact same
    | invitee => exact left

/-- The first message for a party is accepted, and fewer deliveries are to come. -/
theorem Handshake.advances (h : Handshake inviter invitee s g) (flying : Flying s.party g)
    (distinct : inviter ≠ invitee) {sender : Side} {message : Message} {rest : List Message}
    (flight : (s.party sender).inFlight = message::rest)
    (made : 0 < (s.party sender.other).core.controller.created) :
    ∃ p, (s.party sender.other).receive message = some p ∧ (delivered s sender rest p).load < s.load := by
  by_cases ctl : isControl message = true
  · have first : control (s.party sender).inFlight = message::control rest := by
      rw [flight,control,List.filter_cons_of_pos ctl]
      rfl
    have answers : ∃ p g', (s.party sender.other).receive message = some p ∧
        Handshake inviter invitee (delivered s sender rest p) g' ∧
        Quiet (s.party sender.other) p (g.use sender.other) ∧ g'.work < g.work := by
      cases sender with
      | inviter => exact h.answersInvitee distinct first made
      | invitee => exact h.answersInviter distinct first
    obtain ⟨p,g',received,next,calm,less⟩ := answers
    refine ⟨p,received,?_⟩
    have same := delivered_users s sender flight ctl calm.sent
    rw [next.load_eq,h.load_eq,same,same]
    omega
  · cases message with
    | userMessage m =>
      have linked := flying sender m (by rw [flight]; exact List.mem_cons_self)
      obtain ⟨addr,live⟩ := h.linkedLive linked
      obtain ⟨ptr,found,_⟩ := Node.peerOf_some.mp live
      have accepted : (s.party sender.other).core.controller.onMessage
          ((s.party sender.other).core.controller.channels 0).remoteNodeName (.userMessage m) =
          some { (s.party sender.other).core.controller with
            node := (s.party sender.other).node.setQueue ptr
              (((s.party sender.other).node.objects ptr).messageQueue.acceptMessage m).1 } := by
        change ((s.party sender.other).node.onUserMessage m).bind _ = _
        rw [Node.onUserMessage_live found]
        rfl
      refine ⟨_,receive_some (.userMessage m) rfl accepted,?_⟩
      have fewer := delivered_load s sender rest (p := (s.party sender.other).withController
        { (s.party sender.other).core.controller with
            node := (s.party sender.other).node.setQueue ptr
              (((s.party sender.other).node.objects ptr).messageQueue.acceptMessage m).1 }) rfl rfl
      rw [flight,weights_cons] at fewer
      change _ + (1 + _) = _ at fewer
      omega
    | _ => exact absurd rfl ctl

theorem Met.step (met : Met inviter invitee s) (distinct : inviter ≠ invitee)
    (valid : invitee ≠ kInvalidNodeName) {sender : Side} (ran : s.stepDeliver sender = some t) :
    Met inviter invitee t ∧ t.load < s.load := by
  obtain ⟨g,h,flying⟩ := met.handshake
  obtain ⟨g',next,flying'⟩ := flying.step h distinct valid (show s.step (.deliver sender) = some t from ran)
  unfold System.stepDeliver at ran
  split at ran
  · contradiction
  · next message rest flight =>
    rw [if_pos (met.made _)] at ran
    obtain ⟨p,received,same⟩ := Option.bind_eq_some_iff.mp ran
    cases same
    obtain ⟨p',received',less⟩ := h.advances flying distinct flight (met.made _)
    cases received.symm.trans received'
    have left (side : Side) : 0 < ((s.setParty sender
        ((s.party sender).withInFlight rest)).party side).core.controller.created :=
      forall_setParty (P := fun _ p => 0 < p.core.controller.created)
        (p := (s.party sender).withInFlight rest) (met.made sender) met.made side
    refine ⟨⟨⟨g',next,flying'⟩,?_⟩,less⟩
    exact forall_setParty (P := fun _ p => 0 < p.core.controller.created)
      (receive_created received (met.made _)) left

/-- With nothing in flight the handshake is over. -/
theorem Met.connects (met : Met inviter invitee s) (valid : inviter ≠ kInvalidNodeName)
    (quiet : ∀ side, (s.party side).inFlight = []) : Connects inviter invitee s := by
  obtain ⟨g,h,_⟩ := met.handshake
  have toInvitee := h.toInvitee
  have toInviter := h.toInviter
  rw [quiet] at toInvitee toInviter
  have accepted : g.phase = .accepted := by
    cases phase : g.phase with
    | idle =>
      have created := h.inviterState.created
      rw [if_pos phase] at created
      exact absurd (met.made .inviter) (by omega)
    | invited =>
      rw [phase] at toInvitee
      contradiction
    | greeted =>
      rw [phase] at toInviter
      contradiction
    | accepted => rfl
  have name := h.inviteeState.inviterName
  rw [accepted] at name
  obtain ⟨waiting,opened⟩ := h.done valid quiet name
  exact h.connects waiting opened

/-- However the messages in flight are delivered, once both channels are there: there are at
most `load` deliveries, each direction that is not empty can deliver, and in the end the
invitation has connected what it should. -/
theorem deliveries_complete (distinct : inviter ≠ invitee) (validInviter : inviter ≠ kInvalidNodeName)
    (validInvitee : invitee ≠ kInvalidNodeName) {allowed : System → Action → Prop}
    (reached : Reachable inviter invitee allowed s)
    (made : ∀ side, 0 < (s.party side).core.controller.created) {senders : List Side}
    (ran : s.run (senders.map .deliver) = some t) :
    senders.length + t.load ≤ s.load ∧
      (∀ sender, (t.party sender).inFlight ≠ [] → ∃ u, t.step (.deliver sender) = some u) ∧
      ((∀ side, (t.party side).inFlight = []) → Connects inviter invitee t) := by
  have deliveries (action : Action) (member : action ∈ senders.map Action.deliver) (u : System) :
      ∃ sender, action = .deliver sender := by
    obtain ⟨sender,_,same⟩ := List.mem_map.mp member
    exact ⟨sender,same.symm⟩
  have shrinks {u v : System} {action : Action} (met : Met inviter invitee u)
      (delivery : ∃ sender, action = .deliver sender) (ran : u.step action = some v) :
      Met inviter invitee v ∧ v.load < u.load := by
    obtain ⟨sender,rfl⟩ := delivery
    exact met.step distinct validInvitee ran
  have path : Path System.step (fun _ action => ∃ sender, action = .deliver sender) s
      (senders.map .deliver) t := .of_run deliveries ran
  obtain ⟨met,bound⟩ := path.bounded System.load shrinks
    ⟨reachable_flying distinct validInvitee reached,made⟩
  rw [List.length_map] at bound
  refine ⟨bound,?_,met.connects validInviter⟩
  intro sender waiting
  obtain ⟨message,rest,flight⟩ := List.exists_cons_of_ne_nil waiting
  obtain ⟨g,h,flying⟩ := met.handshake
  obtain ⟨p,received,_⟩ := h.advances flying distinct flight (met.made _)
  exact ⟨_,stepDeliver_received flight (met.made _) received⟩

theorem deliveries_complete_onePipe : ∃ s t, (System.start ⟨1,1⟩ ⟨2,2⟩).run (onePipe.take 5) = some s ∧
    s.load = 4 ∧ s.run ([.inviter,.invitee,.invitee,.inviter].map .deliver) = some t ∧
    4 + t.load ≤ s.load ∧ Connects ⟨1,1⟩ ⟨2,2⟩ t := by
  obtain ⟨s,began⟩ := Option.isSome_iff_exists.mp
    (show ((System.start ⟨1,1⟩ ⟨2,2⟩).run (onePipe.take 5)).isSome by rfl)
  obtain ⟨t,whole⟩ := Option.isSome_iff_exists.mp
    (show ((System.start ⟨1,1⟩ ⟨2,2⟩).run onePipe).isSome by rfl)
  have ran : s.run ([.inviter,.invitee,.invitee,.inviter].map .deliver) = some t := by
    have split := whole
    rw [← List.take_append_drop 5 onePipe,System.run,List.foldlM_append] at split
    change ((System.start ⟨1,1⟩ ⟨2,2⟩).run (onePipe.take 5)).bind _ = _ at split
    rw [began] at split
    exact split
  have reached : Reachable ⟨1,1⟩ ⟨2,2⟩ (fun _ _ => True) s := reachable_run (fun _ _ _ => trivial) .start began
  have made (side : Side) : 0 < (s.party side).core.controller.created := by
    have one : (s.party side).core.controller.created = 1 := by
      cases side with
      | inviter => exact run_fact began (fun s => (s.party .inviter).core.controller.created) (by rfl)
      | invitee => exact run_fact began (fun s => (s.party .invitee).core.controller.created) (by rfl)
    omega
  obtain ⟨bound,_,connects⟩ := deliveries_complete (by decide) (by decide) (by decide) reached made ran
  refine ⟨s,t,began,run_fact began System.load (by rfl),ran,bound,connects fun side => ?_⟩
  cases side with
  | inviter => exact run_fact whole (fun s => (s.party .inviter).inFlight) (by rfl)
  | invitee => exact run_fact whole (fun s => (s.party .invitee).inFlight) (by rfl)

end Completing

end MojoImpl.Invitation
