import MojoImpl.Invitation.Deployment

/-! The messages of the pipes over the socket, from the write at one node to the port at the
other. What a party writes it is given to send in the same step, so what its connection was
passed is what was written, in that order. -/
namespace MojoImpl.Invitation
open Foundation MojoImpl.Ports MojoImpl.ChannelPosix

section Writes
variable {inviter invitee : NodeName} {s t : System} {g : Progress} {side : Side} {p u : Party}

/-- What was written in between is in flight behind the messages left. -/
def Adds (left : List UserMessage) (p u : Party) : Prop :=
  ∃ new, u.written = p.written ++ new ∧ users u.inFlight = left ++ new

/-- What is left of the messages in flight when an action takes one from there. -/
def remaining (s : System) (action : Action) (side : Side) : List Message :=
  if action = .deliver side then (s.party side).inFlight.tail else (s.party side).inFlight

theorem adds_nothing {left : List UserMessage} (written : u.written = p.written) (sent : users u.inFlight = left) :
    Adds left p u :=
  ⟨[],by rw [written,List.append_nil],by rw [sent,List.append_nil]⟩

theorem Quiet.adds {use : PortName → Use} (quiet : Quiet p u use) : Adds (users p.inFlight) p u :=
  adds_nothing quiet.written quiet.sent

theorem adds_setParty (here : Adds (users (s.party side).inFlight) (s.party side) p) (side' : Side) :
    Adds (users (s.party side').inFlight) (s.party side') ((s.setParty side p).party side') :=
  forall_setParty (P := fun side p => Adds (users (s.party side).inFlight) (s.party side) p) here
    (fun _ => adds_nothing rfl rfl) side'

theorem Handshake.addsWrite (h : Handshake inviter invitee s g) {handle : MojoHandle} {data : List UInt8}
    (careful : Careful s (.call side (.write handle data)))
    (called : (s.party side).call (.write handle data) = some p) :
    Adds (users (s.party side).inFlight) (s.party side) p := by
  obtain rfl | ⟨ref,node,message,found,peer,_,_,rfl⟩ := write_cases (h.kept side) called
  · exact adds_nothing rfl rfl
  · have away : node ≠ (s.party side).node.name := careful ref found _ peer
    have channel := (h.peerChannel peer).resolve_left (h.sideName side ▸ away)
    refine ⟨[message],rfl,?_⟩
    simp only [Party.inFlight,NodeController.forwardEvent,h.sideName side,if_neg away,NodeController.sendPeerEvent,
      NodeController.getPeerChannel,channel,NodeController.sendChannelMessage,Function.update_self,users_append]
    rfl

theorem adds_delivered {sender : Side} {message : Message} {rest : List Message}
    (flight : (s.party sender).inFlight = message::rest)
    (here : Adds (users (s.party sender.other).inFlight) (s.party sender.other) p) (side : Side) :
    Adds (users (remaining s (.deliver sender) side)) (s.party side) ((delivered s sender rest p).party side) := by
  have apart := Deployed.other_ne sender
  by_cases same : side = sender
  · subst same
    rw [remaining,if_pos rfl,flight]
    simp only [delivered,System.setParty,Function.update_of_ne apart.symm,Function.update_self]
    apply adds_nothing rfl
    rw [withInFlight_inFlight]
    rfl
  · have other : side = sender.other := by
      cases sender <;> cases side <;> first | rfl | exact absurd rfl same
    subst other
    rw [remaining,if_neg (fun same => apart (Action.deliver.inj same).symm)]
    simp only [delivered,System.setParty,Function.update_self]
    exact here

/-- Every action puts in flight what it writes, behind what is left there. -/
theorem Ledger.adds (ledger : Ledger s.party g) (h : Handshake inviter invitee s g) (distinct : inviter ≠ invitee)
    {action : Action} (careful : Careful s action) (ran : s.step action = some t) (side : Side) :
    Adds (users (remaining s action side)) (s.party side) (t.party side) := by
  cases action with
  | call side' call =>
    change s.stepCall side' call = some t at ran
    unfold System.stepCall at ran
    split at ran
    · next fresh =>
      obtain ⟨p,called,same⟩ := Option.bind_eq_some_iff.mp ran
      cases same
      apply adds_setParty
      obtain made | ⟨handle,data,rfl⟩ | ⟨handle,rfl⟩ := h.callMakes fresh called
      · exact made.quiet.adds
      · exact h.addsWrite careful called
      · obtain rfl | ⟨ref,ptr,older,message,_,_,_,rfl⟩ := read_cases called
        · exact adds_nothing rfl rfl
        · exact adds_nothing rfl rfl
    · contradiction
  | sendInvitation invitation tempNodeName =>
    have silent : users (s.party .inviter).inFlight = [] := by
      apply ledger.silent
      obtain ⟨_,settled,opened⟩ := h.joined.early (by rw [h.sending ran]; simp)
      rw [Progress.joins,settled,opened]
      rfl
    obtain ⟨p,same,quiet⟩ := stepSendInvitation_quiet ran silent
    rw [same]
    exact adds_setParty (quiet (g.use .inviter)).adds side
  | acceptInvitation =>
    have silent : users (s.party .invitee).inFlight = [] := by
      apply ledger.silent
      obtain ⟨_,settled,opened⟩ := h.joined.early (h.accepting ran)
      rw [Progress.joins,settled,opened]
      rfl
    obtain ⟨p,same,quiet⟩ := stepAcceptInvitation_quiet ran silent (h.kept .invitee).counted
    rw [same]
    exact adds_setParty (quiet (g.use .invitee)).adds side
  | deliver sender =>
    obtain ⟨message,rest,p,g',flight,rfl,_,_,effect⟩ := h.deliver distinct ran
    apply adds_delivered flight
    obtain ⟨_,quiet⟩ | ⟨m,rfl,ptr,live,rfl⟩ := effect
    · exact quiet.adds
    · exact adds_nothing rfl rfl

end Writes

namespace Deployed

section Posted
variable {heap : Nat → Nat → UInt8} {inviter invitee : NodeName} {d t : Deployed} {sender : Side}

theorem send_all {c c' : Connection} {messages : List Message}
    (ran : messages.foldlM (fun c data => Connection.step heap c (.send data)) c = some c') :
    c'.sent = c.sent ++ messages ∧ c'.calls = c.calls := by
  induction messages generalizing c with
  | nil =>
    cases ran
    exact ⟨(List.append_nil _).symm,rfl⟩
  | cons data messages ih =>
    obtain ⟨link,sent⟩ := Connection.step_send heap c data
    rw [List.foldlM_cons,sent] at ran
    obtain ⟨all,calls⟩ := ih ran
    refine ⟨?_,calls⟩
    rw [all]
    exact List.append_assoc c.sent [data] messages

theorem post_sent {side : Side} {s : System} {connection : Side → Connection}
    (ran : post heap side s connection = some t) (side' : Side) :
    ∃ new, (t.connection side').sent = (connection side').sent ++ new ∧
      (t.connection side').calls = (connection side').calls := by
  obtain ⟨c,sent,same⟩ := Option.bind_eq_some_iff.mp ran
  cases same
  dsimp only
  by_cases here : side' = side
  · subst here
    rw [Function.update_self]
    exact ⟨_,send_all sent⟩
  · rw [Function.update_of_ne here]
    exact ⟨[],(List.append_nil _).symm,rfl⟩

/-- How many messages of a side an event delivers. -/
def took (event : Event) (side : Side) : Nat := if .deliver side ∈ observe event then 1 else 0

theorem Sound.fewer (sound : Sound inviter invitee d) (side : Side) :
    (d.connection side).calls.length ≤ (d.connection side).sent.length := by
  obtain ⟨q,models⟩ := sound.models side
  rw [models_calls models,← models.all,Fifo.all,List.length_append]
  omega

/-- What a connection has been passed only grows, and one message at a time is taken. -/
theorem Sound.grows (sound : Sound inviter invitee d) {event : Event} (allowed : Allowed d event)
    (ran : d.step heap event = some t) (side : Side) :
    ∃ new, (t.connection side).sent = (d.connection side).sent ++ new ∧
      (t.connection side).calls.length = (d.connection side).calls.length + took event side ∧
      (t.connection side).calls.length ≤ (d.connection side).sent.length := by
  have posts {side' : Side} {s : System} (none : took event side = 0)
      (posted : post heap side' s d.connection = some t) :
      ∃ new, (t.connection side).sent = (d.connection side).sent ++ new ∧
        (t.connection side).calls.length = (d.connection side).calls.length + took event side ∧
        (t.connection side).calls.length ≤ (d.connection side).sent.length := by
    obtain ⟨new,sent,calls⟩ := post_sent posted side
    refine ⟨new,sent,?_,calls ▸ sound.fewer side⟩
    rw [calls,none,Nat.add_zero]
  cases event with
  | call side' call =>
    obtain ⟨s,_,posted⟩ := Option.bind_eq_some_iff.mp ran
    exact posts rfl posted
  | sendInvitation invitation tempNodeName =>
    obtain ⟨s,_,posted⟩ := Option.bind_eq_some_iff.mp ran
    exact posts rfl posted
  | acceptInvitation =>
    obtain ⟨s,_,posted⟩ := Option.bind_eq_some_iff.mp ran
    exact posts rfl posted
  | writer sender event =>
    obtain ⟨connection,written,same⟩ := Option.bind_eq_some_iff.mp ran
    cases same
    obtain ⟨link,_,same⟩ := Option.bind_eq_some_iff.mp written
    cases same
    have sent := sound.fewer side
    dsimp only
    by_cases here : side = sender
    · subst here
      rw [Function.update_self]
      exact ⟨[],(List.append_nil _).symm,rfl,sent⟩
    · rw [Function.update_of_ne here]
      exact ⟨[],(List.append_nil _).symm,rfl,sent⟩
  | onFdReadable sender stack results =>
    rw [step_readable] at ran
    split at ran
    · obtain ⟨q,models⟩ := sound.models sender
      have renamed := models.rename ((d.system.party sender.other).core.controller.channels 0).remoteNodeName
      have named : (d.connection sender).step heap (.setRemoteNodeName
          ((d.system.party sender.other).core.controller.channels 0).remoteNodeName) =
        some { d.connection sender with channel := { (d.connection sender).channel with
          remoteNodeName := ((d.system.party sender.other).core.controller.channels 0).remoteNodeName } } := rfl
      obtain ⟨read,data,q',received,_,calls,sent,_,last⟩ := renamed.readable heap allowed
      rw [named,Option.bind_some,received,Option.bind_some] at ran
      obtain ⟨controller,_,posted⟩ := Option.bind_eq_some_iff.mp ran
      obtain ⟨new,grown,same⟩ := post_sent posted side
      refine ⟨new,?_⟩
      by_cases here : side = sender
      · subst here
        rw [Function.update_self] at grown same
        have fewer : read.calls.length ≤ read.sent.length := by
          rw [models_calls last,← last.all,Fifo.all,List.length_append]
          omega
        refine ⟨sent ▸ grown,?_,?_⟩
        · rw [same,calls,List.length_append]
          simp [took,observe]
        · rw [same]
          exact sent ▸ fewer
      · rw [Function.update_of_ne here] at grown same
        refine ⟨grown,?_,same ▸ sound.fewer side⟩
        simp [same,took,observe,here]
    · contradiction

end Posted

section Arrivals
variable {heap : Nat → Nat → UInt8} {inviter invitee : NodeName} {d t : Deployed} {side : Side}

/-- Every write goes to a port of the other node. -/
def Remote (d : Deployed) (event : Event) : Prop :=
  Allowed d event ∧ ∀ action ∈ observe event, Careful d.system action

theorem Remote.careful {event : Event} (remote : Remote d event) {action : Action} (acts : action ∈ observe event) :
    Careful d.abstract action := by
  have here := remote.2 action acts
  cases action with
  | call side call => cases call <;> exact here
  | _ => exact trivial

/-- The messages of the pipes that a delegate has been called with. -/
def arrived (calls : List DelegateCall) : List UserMessage := users (calls.filterMap DelegateCall.message)

structure Arriving (inviter invitee : NodeName) (d : Deployed) : Prop where
  sound : Sound inviter invitee d
  reached : Reachable inviter invitee Careful d.abstract
  written : ∀ side, users (d.connection side).sent = (d.system.party side).written

theorem observed {event : Event} {s : System}
    (path : Path System.step (fun _ _ => True) d.abstract (observe event) s) :
    (observe event = [] ∧ s = d.abstract) ∨ ∃ action, observe event = [action] ∧ d.abstract.step action = some s := by
  have one {action : Action} (path : Path System.step (fun _ _ => True) d.abstract [action] s) :
      d.abstract.step action = some s := by
    cases path with
    | cons may ran rest =>
      cases rest
      exact ran
  cases event with
  | call side call => exact .inr ⟨_,rfl,one path⟩
  | sendInvitation invitation tempNodeName => exact .inr ⟨_,rfl,one path⟩
  | acceptInvitation => exact .inr ⟨_,rfl,one path⟩
  | writer sender event => exact .inl ⟨rfl,(Option.some.inj path.run).symm⟩
  | onFdReadable sender stack results => exact .inr ⟨_,rfl,one path⟩

theorem Sound.flight (sound : Sound inviter invitee d) (side : Side) :
    (d.abstract.party side).inFlight = d.undelivered side := by
  change ((d.system.party side).behind _).inFlight = _
  rw [Party.behind_inFlight,sound.posted,List.append_nil]

/-- A step passes to the connection what it writes. -/
theorem Arriving.writes (arriving : Arriving inviter invitee d) (distinct : inviter ≠ invitee)
    (valid : invitee ≠ kInvalidNodeName) {event : Event} (remote : Remote d event)
    (ran : d.step heap event = some t) (sound : Sound inviter invitee t)
    (path : Path System.step (fun _ _ => True) d.abstract (observe event) t.abstract) (side : Side) :
    users (t.connection side).sent = (t.system.party side).written := by
  obtain ⟨new,sent,calls,fewer⟩ := arriving.sound.grows remote.1 ran side
  have undelivered : t.undelivered side =
      (d.connection side).sent.drop ((d.connection side).calls.length+took event side) ++ new := by
    unfold Deployed.undelivered
    rw [← calls,sent,List.drop_append_of_le_length fewer]
  have before := arriving.written side
  obtain ⟨silent,same⟩ | ⟨action,acts,step⟩ := observed path
  · have flight := congrArg (fun s => (s.party side).inFlight) same
    have none : took event side = 0 := by rw [took,silent,if_neg List.not_mem_nil]
    rw [sound.flight,arriving.sound.flight,undelivered,none] at flight
    have nothing : new = [] := List.append_right_eq_self.mp flight
    have written : (t.system.party side).written = (d.system.party side).written :=
      congrArg (fun s => (s.party side).written) same
    rw [sent,nothing,List.append_nil,before,written]
  · obtain ⟨g,h,ledger⟩ := reachable_ledger distinct valid arriving.reached
    obtain ⟨more,written,flight⟩ :=
      ledger.adds h distinct (remote.careful (acts ▸ List.mem_singleton_self action)) step side
    have left : remaining d.abstract action side =
        (d.connection side).sent.drop ((d.connection side).calls.length+took event side) := by
      unfold remaining took
      rw [acts,arriving.sound.flight,Deployed.undelivered]
      by_cases delivers : action = .deliver side
      · rw [if_pos delivers,if_pos (List.mem_singleton.mpr delivers.symm),List.tail_drop]
      · rw [if_neg delivers,if_neg (fun listed => delivers (List.mem_singleton.mp listed).symm)]
        rfl
    rw [sound.flight,undelivered,users_append,left] at flight
    have posted : users new = more := List.append_cancel_left flight
    have wrote : (t.system.party side).written = (d.system.party side).written ++ more := written
    rw [sent,users_append,before,posted,wrote]

theorem Arriving.step (arriving : Arriving inviter invitee d) (distinct : inviter ≠ invitee)
    (valid : invitee ≠ kInvalidNodeName) {event : Event} (remote : Remote d event)
    (ran : d.step heap event = some t) : Arriving inviter invitee t := by
  obtain ⟨sound,path⟩ := arriving.sound.step distinct valid remote.1 ran
  refine ⟨sound,?_,arriving.writes distinct valid remote ran sound path⟩
  obtain ⟨_,same⟩ | ⟨action,acts,step⟩ := observed path
  · exact same ▸ arriving.reached
  · exact .step _ _ action arriving.reached (remote.careful (acts ▸ List.mem_singleton_self action)) step

theorem filterMap_some {α β : Type} {f : α → Option β} {messages : List α} {values : List β}
    (same : messages.map f = values.map some) : messages.filterMap f = values := by
  have whole := congrArg (List.filterMap id) same
  rwa [List.filterMap_map,List.filterMap_map,Function.id_comp,Function.id_comp,List.filterMap_some] at whole

/-- The messages of the pipes reach a node as they were written at the other one, in that
order and all of them once the connection is drained, and are read or still in the queue of
the port they are for. -/
theorem run_arrives (heap : Nat → Nat → UInt8) (distinct : inviter ≠ invitee)
    (valid : invitee ≠ kInvalidNodeName) (channel : Side → NodeChannel) (labels : List Event) (d : Deployed)
    (path : Path (step heap) Remote (start inviter invitee channel) labels d) (side : Side) :
    arrived (d.connection side).calls <+: (d.system.party side).written ∧
    ((d.connection side).link.Drained → arrived (d.connection side).calls = (d.system.party side).written) ∧
    ∀ x, (addressedTo x (arrived (d.connection side).calls)).Perm
      ((d.system.party side.other).readFrom x ++ (d.system.party side.other).node.queueOf x) := by
  have first : Arriving inviter invitee (start inviter invitee channel) := by
    obtain ⟨sound,same⟩ := sound_start inviter invitee channel
    refine ⟨sound,same ▸ .start,?_⟩
    intro side
    cases side <;> rfl
  have arriving := path.invariant (fun arriving remote ran => arriving.step distinct valid remote ran) first
  obtain ⟨q,models⟩ := arriving.sound.models side
  obtain ⟨g,h,ledger⟩ := reachable_ledger distinct valid arriving.reached
  have taken : arrived (d.connection side).calls = users q.taken := by
    rw [arrived,filterMap_some models.taken]
  have written : (d.system.party side).written = arrived (d.connection side).calls ++ users (d.undelivered side) := by
    rw [← arriving.written side,← models.all,Fifo.all,users_append,taken,undelivered,models_undelivered models]
  refine ⟨⟨_,written.symm⟩,?_,?_⟩
  · intro drained
    rw [written,undelivered,models_undelivered models,models.drained drained]
    exact (List.append_nil _).symm
  · intro x
    have account := ledger.balanced side x
    rw [arriving.sound.flight,← List.append_assoc] at account
    change (addressedTo x (d.system.party side).written).Perm _ at account
    rw [written,addressedTo_append] at account
    exact (List.perm_append_right_iff _).mp account

instance (action : Action) : Decidable (Small action) :=
  match action with
  | .call _ (.extract _ name _ _) => inferInstanceAs (Decidable (name.length < 104))
  | .call _ (.write _ data) => inferInstanceAs (Decidable (data.length < 92))
  | .call _ .createInvitation | .call _ (.attach _ _ _ _) | .call _ (.read _) | .sendInvitation _ _
  | .acceptInvitation | .deliver _ => .isTrue trivial

instance (event : WriteEvent) : Decidable (Writer.Undisturbed event) :=
  match event with
  | .write protocol => inferInstanceAs (Decidable (protocol.data.length+11 < 2^31))
  | .onFdWriteable | .next => .isTrue trivial
  | .send result => inferInstanceAs (Decidable (result ≠ .wouldBlock ∧ result ≠ .failed))

instance (result : RecvResult) : Decidable result.Goes :=
  match result with
  | .data _ | .interrupted => .isTrue trivial
  | .wouldBlock | .failed | .endOfStream => .isFalse id

instance (d : Deployed) (event : Event) : Decidable (Allowed d event) :=
  match event with
  | .call side call => inferInstanceAs (Decidable (Small (.call side call)))
  | .sendInvitation _ _ | .acceptInvitation => .isTrue trivial
  | .writer _ event => inferInstanceAs (Decidable (event.protocols = [] ∧ Writer.Undisturbed event))
  | .onFdReadable sender _ results => inferInstanceAs
    (Decidable (Link.Arrived (d.connection sender).link.reader.incoming ∧ ∀ r ∈ results, r.Goes))

instance (s : System) (action : Action) : Decidable (Careful s action) :=
  match action with
  | .call side (.write handle _) => inferInstanceAs (Decidable (∀ ref ∈ (s.party side).portOf handle,
    ∀ peer ∈ (s.party side).node.peerOf ref.name, peer.1 ≠ (s.party side).node.name))
  | .call _ .createInvitation | .call _ (.attach _ _ _ _) | .call _ (.extract _ _ _ _) | .call _ (.read _)
  | .sendInvitation _ _ | .acceptInvitation | .deliver _ => .isTrue trivial

instance (d : Deployed) (event : Event) : Decidable (Remote d event) := inferInstanceAs (Decidable (_ ∧ _))

/-- Some messages are written, each in one piece, and read. -/
def carry (sender : Side) (n : Nat) : List Event :=
  [.writer sender .onFdWriteable,.writer sender .next] ++
    (List.replicate n [.writer sender (.send (.accepted 500)),.writer sender .next]).flatten ++
    List.replicate n (.onFdReadable sender (fun _ _ => 0) [])

/-- A pipe is connected, and written to in both directions. -/
def bothWays : List Event :=
  [.call .inviter .createInvitation,.call .inviter (.attach 1 [7] ⟨3,3⟩ ⟨4,4⟩),.acceptInvitation,
    .call .invitee (.extract 1 [7] ⟨5,5⟩ ⟨6,6⟩),.sendInvitation 1 ⟨9,9⟩] ++
  carry .inviter 1 ++ carry .invitee 2 ++ carry .inviter 1 ++
  [.call .inviter (.write 2 [42]),.call .inviter (.write 2 [44]),.call .invitee (.write 2 [43])] ++
  carry .inviter 2 ++ [.call .invitee (.read 2)]

theorem run_arrives_bothWays : ∃ d : Deployed,
    (d.system.party .inviter).written = [⟨⟨3,3⟩,⟨5,5⟩,[42]⟩,⟨⟨3,3⟩,⟨5,5⟩,[44]⟩] ∧
    (d.system.party .invitee).read = [(⟨5,5⟩,⟨⟨3,3⟩,⟨5,5⟩,[44]⟩)] ∧
    ∀ side, arrived (d.connection side).calls <+: (d.system.party side).written ∧
      ((d.connection side).link.Drained → arrived (d.connection side).calls = (d.system.party side).written) ∧
      ∀ x, (addressedTo x (arrived (d.connection side).calls)).Perm
        ((d.system.party side.other).readFrom x ++ (d.system.party side.other).node.queueOf x) := by
  obtain ⟨d,ran,seen⟩ := Option.map_eq_some_iff.mp (show
    (bothWays.foldlM (fun s a => if Remote s a then step (fun _ _ => 0) s a else none)
      (start ⟨1,1⟩ ⟨2,2⟩ quietChannel)).map
        (fun d => ((d.system.party .inviter).written,(d.system.party .invitee).read)) =
      some ([⟨⟨3,3⟩,⟨5,5⟩,[42]⟩,⟨⟨3,3⟩,⟨5,5⟩,[44]⟩],[(⟨5,5⟩,⟨⟨3,3⟩,⟨5,5⟩,[44]⟩)]) by decide +kernel)
  obtain ⟨written,read⟩ := Prod.mk.inj seen
  exact ⟨d,written,read,run_arrives _ (by decide) (by decide) quietChannel bothWays d (Path.of_checked ran)⟩

end Arrivals

end Deployed

end MojoImpl.Invitation
