import Mathlib.Data.Prod.Lex
import MojoImpl.Channel.Connection
import MojoImpl.Invitation.Completion
import MojoImpl.Invitation.Queued

/-! The two nodes with a socket between them. What a party has been given to send is
serialized, framed and written byte by byte, and a party acts on what its delegate is called
with when a frame has arrived. Every run is a run of the system whose messages travel whole:
there a message is in flight until it is delivered here. -/
namespace MojoImpl
open Foundation MojoImpl.Ports MojoImpl.ChannelPosix

/-- The controller as the delegate of its channels. -/
def NodeController.onDelegateCall (s : NodeController) : DelegateCall → Option NodeController
  | .onAcceptInvitee _ inviterName token => s.onAcceptInvitee inviterName token
  | .onAcceptInvitation fromNode token inviteeName => s.onAcceptInvitation fromNode token inviteeName
  | .onRequestPortMerge fromNode connectorPortName messagePipeName =>
    s.onRequestPortMerge fromNode connectorPortName messagePipeName
  | .onResponsePortMerge fromNode connectorPortName portName =>
    s.onResponsePortMerge fromNode connectorPortName portName
  | .onUserMessage _ message => s.onUserMessage message
  | .onAcceptPeer _ _ _ _ => some s
  | .onChannelError _ => some s

theorem NodeController.onDelegateCall_callback (s : NodeController) (channel : NodeChannel) (data : Message) :
    s.onDelegateCall (channel.callback data) = s.onMessage channel.remoteNodeName data := by
  cases data <;> rfl

namespace Invitation

/-- The parties, and for each side the connection that it sends on. -/
structure Deployed where
  system : System
  connection : Side → Connection

namespace Deployed

inductive Event
  | call (side : Side) (call : Call)
  | sendInvitation (invitation : MojoHandle) (tempNodeName : NodeName)
  | acceptInvitation
  | writer (sender : Side) (event : WriteEvent)
  | onFdReadable (sender : Side) (stack : Nat → Nat → UInt8) (results : List RecvResult)

def start (inviter invitee : NodeName) (channel : Side → NodeChannel) : Deployed where
  system := .start inviter invitee
  connection side := .start (channel side)

/-- What the side has been given to send goes to its connection, in the order it was given. -/
def post (heap : Nat → Nat → UInt8) (side : Side) (s : System) (connection : Side → Connection) :
    Option Deployed := do
  let sent ← (s.party side).inFlight.foldlM (fun c data => Connection.step heap c (.send data)) (connection side)
  return ⟨s.setParty side ((s.party side).withInFlight []),Function.update connection side sent⟩

/-- The channel reports its messages from the name the controller has given it. -/
def receive (heap : Nat → Nat → UInt8) (d : Deployed) (sender : Side) (stack : Nat → Nat → UInt8)
    (results : List RecvResult) : Option Deployed :=
  let p := d.system.party sender.other
  if 0 < p.core.controller.created then do
    let named ← (d.connection sender).step heap (.setRemoteNodeName (p.core.controller.channels 0).remoteNodeName)
    let read ← named.step heap (.onFdReadable stack results)
    let controller ← (read.calls.drop named.calls.length).foldlM NodeController.onDelegateCall p.core.controller
    post heap sender.other (d.system.setParty sender.other (p.withController controller))
      (Function.update d.connection sender read)
  else none

def step (heap : Nat → Nat → UInt8) (d : Deployed) : Event → Option Deployed
  | .call side call => do
    let s ← d.system.stepCall side call
    post heap side s d.connection
  | .sendInvitation invitation tempNodeName => do
    let s ← d.system.stepSendInvitation invitation tempNodeName
    post heap .inviter s d.connection
  | .acceptInvitation => do
    let s ← d.system.stepAcceptInvitation
    post heap .invitee s d.connection
  | .writer sender event => do
    let connection ← (d.connection sender).step heap (.writer event)
    return { d with connection := Function.update d.connection sender connection }
  | .onFdReadable sender stack results => d.receive heap sender stack results

def observe : Event → List Action
  | .call side call => [.call side call]
  | .sendInvitation invitation tempNodeName => [.sendInvitation invitation tempNodeName]
  | .acceptInvitation => [.acceptInvitation]
  | .writer _ _ => []
  | .onFdReadable sender _ _ => [.deliver sender]

/-- Names and data are short enough for the messages they go into to be decoded. -/
def Small : Action → Prop
  | .call _ (.extract _ name _ _) => name.length < 104
  | .call _ (.write _ data) => data.length < 92
  | _ => True

def Allowed (d : Deployed) : Event → Prop
  | .call side call => Small (.call side call)
  | .sendInvitation _ _ => True
  | .acceptInvitation => True
  | .writer sender event => (d.connection sender).Allowed (.writer event)
  | .onFdReadable sender stack results => (d.connection sender).Allowed (.onFdReadable stack results)

def undelivered (d : Deployed) (side : Side) : List Message :=
  (d.connection side).sent.drop (d.connection side).calls.length

/-- The system with what is undelivered in flight. -/
def abstract (d : Deployed) : System :=
  { d.system with party := fun side => (d.system.party side).behind (d.undelivered side) }

end Deployed

section Sizes
variable {inviter invitee : NodeName} {s t : System} {g : Progress}

/-- What is in flight or will be asked for fits the messages it goes into. -/
structure Sized (party : Side → Party) : Prop where
  names : ∀ side, ∀ r ∈ (party side).requests, r.name.length < 104
  data : ∀ side, ∀ m ∈ users (party side).inFlight, m.data.length < 92

theorem call_requests {p u : Party} {call : Call} (called : p.call call = some u) :
    ∀ r ∈ u.requests, r ∈ p.requests ∨ ∃ invitation name0 name1, call = .extract invitation r.name name0 name1 := by
  intro r member
  cases call with
  | createInvitation =>
    cases called
    exact .inl member
  | attach invitation name name0 name1 =>
    obtain ⟨made,_,same⟩ := Option.bind_eq_some_iff.mp called
    cases same
    exact .inl member
  | extract invitation name name0 name1 =>
    obtain ⟨made,_,same⟩ := Option.bind_eq_some_iff.mp called
    cases same
    dsimp only at member
    split at member
    · obtain before | now := List.mem_append.mp member
      · exact .inl before
      · cases List.mem_singleton.mp now
        exact .inr ⟨invitation,name0,name1,rfl⟩
    · exact .inl member
  | write handle data =>
    obtain ⟨made,_,same⟩ := Option.bind_eq_some_iff.mp called
    cases same
    exact .inl member
  | read handle =>
    obtain ⟨made,_,same⟩ := Option.bind_eq_some_iff.mp called
    cases same
    exact .inl member

theorem requests_set (s : System) (side : Side) {p : Party} (same : p.requests = (s.party side).requests) (side' : Side) :
    ((s.setParty side p).party side').requests = (s.party side').requests :=
  forall_setParty (P := fun side p => p.requests = (s.party side).requests) same (fun _ => rfl) side'

/-- An extraction is the only action that adds a request. -/
theorem step_requests {action : Action} (ran : s.step action = some t) (side : Side) :
    ∀ r ∈ (t.party side).requests, r ∈ (s.party side).requests ∨
      ∃ invitation name0 name1, action = .call side (.extract invitation r.name name0 name1) := by
  cases action with
  | call side' call =>
    change s.stepCall side' call = some t at ran
    unfold System.stepCall at ran
    split at ran
    · obtain ⟨p,called,same⟩ := Option.bind_eq_some_iff.mp ran
      cases same
      apply forall_setParty (P := fun side p => ∀ r ∈ p.requests, r ∈ (s.party side).requests ∨
        ∃ invitation name0 name1, Action.call side' call = .call side (.extract invitation r.name name0 name1))
      · intro r member
        obtain before | ⟨invitation,name0,name1,rfl⟩ := call_requests called r member
        · exact .inl before
        · exact .inr ⟨invitation,name0,name1,rfl⟩
      · exact fun _ _ member => .inl member
    · contradiction
  | sendInvitation invitation tempNodeName =>
    obtain ⟨m,_,_,_,rfl⟩ := System.stepSendInvitation_ran ran
    intro r member
    have same := requests_set s .inviter (p := (s.party .inviter).invite invitation m tempNodeName) rfl side
    exact .inl (same ▸ member)
  | acceptInvitation =>
    obtain ⟨_,_,_,rfl⟩ := System.stepAcceptInvitation_ran ran
    intro r member
    refine .inl ?_
    rwa [requests_set] at member
    rfl
  | deliver sender =>
    change s.stepDeliver sender = some t at ran
    unfold System.stepDeliver at ran
    split at ran
    · contradiction
    · split at ran
      · obtain ⟨p,received,same⟩ := Option.bind_eq_some_iff.mp ran
        cases same
        obtain ⟨c,_,same⟩ := Option.bind_eq_some_iff.mp received
        cases same
        intro r member
        refine .inl ?_
        rwa [requests_set,requests_set] at member
        · rfl
        · rw [requests_set]
          · rfl
          · rfl
      · contradiction

theorem Sized.step (sized : Sized s.party) (h : Handshake inviter invitee s g) (flying : Flying s.party g)
    (distinct : inviter ≠ invitee) {action : Action} (small : Deployed.Small action)
    (ran : s.step action = some t) : Sized t.party where
  names side r member := by
    obtain before | ⟨_,_,_,rfl⟩ := step_requests ran side r member
    · exact sized.names side r before
    · exact small
  data side m member := by
    obtain before | ⟨_,_,rfl⟩ := h.sends flying distinct ran side m member
    · exact sized.data side m before
    · exact small

theorem Sized.sendable (sized : Sized s.party) (h : Handshake inviter invitee s g) (side : Side) :
    ∀ data ∈ (s.party side).inFlight, Connection.Sendable data := by
  intro data member
  by_cases ctl : isControl data = true
  · have listed : data ∈ control (s.party side).inFlight := List.mem_filter.mpr ⟨member,ctl⟩
    cases side with
    | inviter =>
      rw [h.toInvitee] at listed
      obtain invitation | response := List.mem_append.mp listed
      · split at invitation
        · cases List.mem_singleton.mp invitation
          exact ⟨trivial,.inr (.inl rfl)⟩
        · exact absurd invitation List.not_mem_nil
      · obtain ⟨j,_,rfl⟩ := List.mem_map.mp response
        exact ⟨trivial,.inr (.inr (.inr (.inl rfl)))⟩
    | invitee =>
      rw [h.toInviter] at listed
      obtain answer | request := List.mem_append.mp listed
      · split at answer
        · cases List.mem_singleton.mp answer
          exact ⟨trivial,.inl rfl⟩
        · exact absurd answer List.not_mem_nil
      · split at request
        · obtain ⟨r,waiting,rfl⟩ := List.mem_map.mp request
          refine ⟨sized.names .invitee r ?_,.inr (.inr (.inl rfl))⟩
          rw [h.joined.requests]
          exact List.mem_append_right _ waiting
        · exact absurd request List.not_mem_nil
  · cases data with
    | userMessage m =>
      refine ⟨sized.data side m ?_,.inr (.inr (.inr (.inr rfl)))⟩
      exact List.mem_filterMap.mpr ⟨_,member,rfl⟩
    | _ => exact absurd rfl ctl

end Sizes

namespace Deployed

section Posting
variable {heap : Nat → Nat → UInt8} {inviter invitee : NodeName} {d : Deployed}

structure Sound (inviter invitee : NodeName) (d : Deployed) : Prop where
  handshake : ∃ g, Handshake inviter invitee d.abstract g ∧ Flying d.abstract.party g
  sized : Sized d.abstract.party
  posted : ∀ side, (d.system.party side).inFlight = []
  models : ∀ side, ∃ q, (d.connection side).Models q

theorem models_calls {c : Connection} {q : Fifo Message} (models : c.Models q) : c.calls.length = q.taken.length := by
  have taken := congrArg List.length models.taken
  rwa [List.length_map,List.length_map] at taken

theorem models_undelivered {c : Connection} {q : Fifo Message} (models : c.Models q) :
    c.sent.drop c.calls.length = q.queue := by
  rw [← models.all,models_calls models,Fifo.all,List.drop_left]

/-- Everything can be posted, and is sent behind what was. -/
theorem post_all {c : Connection} (models : ∃ q, c.Models q) (messages : List Message)
    (sendable : ∀ data ∈ messages, Connection.Sendable data) :
    ∃ t, messages.foldlM (fun c data => Connection.step heap c (.send data)) c = some t ∧
      (∃ q, t.Models q) ∧ t.sent = c.sent ++ messages ∧ t.calls = c.calls := by
  induction messages generalizing c with
  | nil => exact ⟨c,rfl,models,(List.append_nil _).symm,rfl⟩
  | cons data messages ih =>
    obtain ⟨q,models⟩ := models
    obtain ⟨fits,sendable⟩ := List.forall_mem_cons.mp sendable
    obtain ⟨link,sent⟩ := Connection.step_send heap c data
    obtain ⟨q',_,models'⟩ := models.send fits sent
    obtain ⟨t,ran,last,all,calls⟩ := ih ⟨q',models'⟩ sendable
    refine ⟨t,?_,last,?_,calls⟩
    · rw [List.foldlM_cons,sent]
      exact ran
    · rw [all]
      exact List.append_assoc c.sent [data] messages

theorem posted_behind (p : Party) (queued : List Message) :
    (p.withInFlight []).behind (queued ++ p.inFlight) = p.behind queued := by
  simp only [Party.behind,Core.behind,NodeController.behind,Party.withInFlight,Party.inFlight,
    Function.update_self,Function.update_idem,List.append_nil]

theorem models_update {connection : Side → Connection} (models : ∀ side, ∃ q, (connection side).Models q)
    (side : Side) {c : Connection} (here : ∃ q, c.Models q) (side' : Side) :
    ∃ q, (Function.update connection side c side').Models q := by
  by_cases same : side' = side
  · subst same
    rw [Function.update_self]
    exact here
  · rw [Function.update_of_ne same]
    exact models side'

/-- Posting leaves the same messages in flight as before. -/
theorem post_abstract (side : Side) (s : System) {connection : Side → Connection}
    (models : ∀ side, ∃ q, (connection side).Models q)
    (sendable : ∀ data ∈ (s.party side).inFlight, Connection.Sendable data) :
    ∃ t, post heap side s connection = some t ∧ t.abstract = (Deployed.mk s connection).abstract ∧
      (∀ side, ∃ q, (t.connection side).Models q) ∧ t.system = s.setParty side ((s.party side).withInFlight []) := by
  obtain ⟨c,ran,last,all,calls⟩ := post_all (models side) _ sendable
  have posted : post heap side s connection =
      some ⟨s.setParty side ((s.party side).withInFlight []),Function.update connection side c⟩ := by
    rw [post,ran]
    rfl
  refine ⟨_,posted,?_,?_,rfl⟩
  · have same (side' : Side) : ((s.setParty side ((s.party side).withInFlight [])).party side').behind
        ((Function.update connection side c side').sent.drop (Function.update connection side c side').calls.length) =
          (s.party side').behind ((connection side').sent.drop (connection side').calls.length) := by
      by_cases here : side' = side
      · subst here
        obtain ⟨q,models⟩ := models side'
        have fewer : (connection side').calls.length ≤ (connection side').sent.length := by
          rw [models_calls models,← models.all,Fifo.all,List.length_append]
          omega
        rw [setParty_self,Function.update_self,all,calls,List.drop_append_of_le_length fewer]
        exact posted_behind _ _
      · rw [Function.update_of_ne here]
        simp only [System.setParty,Function.update_of_ne here]
    exact congrArg (fun party => ({ s with party } : System)) (funext same)
  · exact models_update models side last

/-- What one side does in the system, once it is posted, is a step of the sound states. -/
theorem Sound.posts (heap : Nat → Nat → UInt8) (sound : Sound inviter invitee d) (distinct : inviter ≠ invitee)
    (valid : invitee ≠ kInvalidNodeName) (action : Action) (small : Small action) {side : Side} {s : System}
    {connection : Side → Connection} (models : ∀ side, ∃ q, (connection side).Models q)
    (posted : (s.party side.other).inFlight = [])
    (ran : d.abstract.step action = some (Deployed.mk s connection).abstract) :
    ∃ t, post heap side s connection = some t ∧ Sound inviter invitee t ∧
      t.abstract = (Deployed.mk s connection).abstract := by
  obtain ⟨g,h,flying⟩ := sound.handshake
  obtain ⟨g',h',flying'⟩ := flying.step h distinct valid ran
  have sized := sound.sized.step h flying distinct small ran
  have sendable (data : Message) (member : data ∈ (s.party side).inFlight) : Connection.Sendable data := by
    apply sized.sendable h' side
    change data ∈ (((s.party side).behind _).inFlight)
    rw [Party.behind_inFlight]
    exact List.mem_append_right _ member
  obtain ⟨t,done,same,models',system⟩ := post_abstract side s models sendable
  refine ⟨t,done,⟨⟨g',same ▸ h',same ▸ flying'⟩,same ▸ sized,?_,models'⟩,same⟩
  intro side'
  rw [system]
  by_cases here : side' = side
  · subst here
    rw [setParty_self,withInFlight_inFlight]
  · have other : side' = side.other := by
      cases side <;> cases side' <;> first | rfl | exact absurd rfl here
    simp only [System.setParty,Function.update_of_ne here]
    rw [other]
    exact posted

end Posting

section Steps
variable {heap : Nat → Nat → UInt8} {inviter invitee : NodeName} {d t : Deployed} {sender : Side}

theorem abstract_setParty (s : System) (connection : Side → Connection) (side : Side) (p : Party) :
    (Deployed.mk (s.setParty side p) connection).abstract.party =
      ((Deployed.mk s connection).abstract.setParty side
        (p.behind ((Deployed.mk s connection).undelivered side))).party :=
  funext fun side' => Function.apply_update
    (fun side p => Party.behind ((Deployed.mk s connection).undelivered side) p) s.party side p side'

theorem call_abstract {side : Side} {call : Call} {s : System} (ran : d.system.stepCall side call = some s) :
    d.abstract.stepCall side call = some (Deployed.mk s d.connection).abstract := by
  have opened (s : System) : s.stepCall side call = if Fresh s.used call.names then
      ((s.party side).call call).bind fun p => some { s.setParty side p with
        used := if p.node.allocated = (s.party side).node.allocated then s.used else call.names ++ s.used }
      else none := rfl
  rw [opened] at ran ⊢
  split at ran
  · next fresh =>
    obtain ⟨p,called,same⟩ := Option.bind_eq_some_iff.mp ran
    cases same
    have behind : (d.abstract.party side).call call = some (p.behind (d.undelivered side)) := by
      change ((d.system.party side).behind _).call call = _
      rw [Party.call_behind,called]
      rfl
    rw [if_pos (show Fresh d.abstract.used call.names from fresh),behind]
    refine congrArg some ?_
    have party := abstract_setParty d.system d.connection side p
    exact congrArg (fun party => ({ d.abstract with
      party
      used := if p.node.allocated = (d.system.party side).node.allocated then d.system.used
        else call.names ++ d.system.used } : System)) party.symm
  · contradiction

theorem unsent {s : System} {g : Progress} (h : Handshake inviter invitee s g) (flying : Flying s.party g)
    (side : Side) (new : (s.party side).core.controller.created = 0) : (s.party side).inFlight = [] := by
  have quiet : control (s.party side).inFlight = [] ∧ g.joins = [] := by
    cases side with
    | inviter =>
      have idle := h.created_idle new
      obtain ⟨_,settled,opened⟩ := h.joined.early (by rw [idle]; simp)
      rw [h.toInvitee,idle,Progress.joins,settled,opened]
      exact ⟨rfl,rfl⟩
    | invitee =>
      have unconnected := h.created_unconnected new
      have greeted : g.phase ≠ .greeted := by
        intro phase
        rw [phase] at unconnected
        contradiction
      obtain ⟨_,settled,opened⟩ := h.joined.early (by
        intro phase
        rw [phase] at unconnected
        contradiction)
      rw [h.toInviter,unconnected,Progress.joins,settled,opened,if_neg greeted]
      exact ⟨rfl,rfl⟩
  have silent := flying.silent quiet.2 side
  cases flight : (s.party side).inFlight with
  | nil => rfl
  | cons message rest =>
    rw [flight] at quiet silent
    cases message with
    | userMessage m => contradiction
    | _ => exact absurd quiet.1 (List.cons_ne_nil _ _)

/-- Before a side has its channel nothing is on its connection. -/
theorem Sound.untouched (sound : Sound inviter invitee d) {side : Side}
    (new : (d.system.party side).core.controller.created = 0) : d.undelivered side = [] := by
  obtain ⟨g,h,flying⟩ := sound.handshake
  have none_left := unsent h flying side new
  change ((d.system.party side).behind _).inFlight = [] at none_left
  rw [Party.behind_inFlight,sound.posted,List.append_nil] at none_left
  exact none_left

theorem Sound.sendInvitation_abstract (sound : Sound inviter invitee d) {invitation : MojoHandle}
    {tempNodeName : NodeName} {s : System} (ran : d.system.stepSendInvitation invitation tempNodeName = some s) :
    d.abstract.stepSendInvitation invitation tempNodeName = some (Deployed.mk s d.connection).abstract ∧
      (s.party .invitee).inFlight = [] := by
  unfold System.stepSendInvitation at ran
  dsimp only at ran
  split at ran
  · next attachedPorts found =>
    split at ran
    · next may =>
      obtain ⟨r,sent,made⟩ := Option.bind_eq_some_iff.mp ran
      have nothing := sound.untouched may.2
      have party := abstract_setParty d.system d.connection .inviter { d.system.party .inviter with core := r.2 }
      have same : d.abstract.party .inviter = d.system.party .inviter := by
        change (d.system.party .inviter).behind (d.undelivered .inviter) = _
        rw [nothing,Party.behind_nil]
      have used : d.abstract.used = d.system.used := rfl
      cases made
      refine ⟨?_,sound.posted .invitee⟩
      unfold System.stepSendInvitation
      dsimp only
      rw [same,found]
      dsimp only
      rw [used,if_pos may,sent,Option.bind_eq_bind,Option.bind_some]
      change (Deployed.mk d.system d.connection).undelivered .inviter = [] at nothing
      rw [nothing,Party.behind_nil] at party
      exact congrArg (fun party => some ({ d.abstract with
        party
        used := tempNodeName::d.system.used
        offers := fun name => (attachedPorts.lookup name).map fun _ =>
          ((d.system.party .inviter).attached invitation name).getD MOJO_HANDLE_INVALID } : System)) party.symm
    · contradiction
  · contradiction

theorem Sound.acceptInvitation_abstract (sound : Sound inviter invitee d) {s : System}
    (ran : d.system.stepAcceptInvitation = some s) :
    d.abstract.stepAcceptInvitation = some (Deployed.mk s d.connection).abstract ∧
      (s.party .inviter).inFlight = [] := by
  unfold System.stepAcceptInvitation at ran
  dsimp only at ran
  split at ran
  · next new =>
    obtain ⟨r,accepted,made⟩ := Option.bind_eq_some_iff.mp ran
    have nothing := sound.untouched new
    have party := abstract_setParty d.system d.connection .invitee { d.system.party .invitee with core := r.2.2 }
    have same : d.abstract.party .invitee = d.system.party .invitee := by
      change (d.system.party .invitee).behind (d.undelivered .invitee) = _
      rw [nothing,Party.behind_nil]
    cases made
    refine ⟨?_,sound.posted .inviter⟩
    unfold System.stepAcceptInvitation
    dsimp only
    rw [same,if_pos new,accepted,Option.bind_eq_bind,Option.bind_some]
    change (Deployed.mk d.system d.connection).undelivered .invitee = [] at nothing
    rw [nothing,Party.behind_nil] at party
    exact congrArg (fun party => some ({ d.abstract with party } : System)) party.symm
  · contradiction

theorem Sound.write (sound : Sound inviter invitee d) {event : WriteEvent}
    (allowed : Allowed d (.writer sender event)) (ran : d.step heap (.writer sender event) = some t) :
    Sound inviter invitee t ∧ t.abstract = d.abstract ∧ t.system = d.system := by
  obtain ⟨connection,written,same⟩ := Option.bind_eq_some_iff.mp ran
  cases same
  obtain ⟨q,models⟩ := sound.models sender
  have models' := models.writer allowed.1 allowed.2 written
  obtain ⟨link,_,same⟩ := Option.bind_eq_some_iff.mp written
  cases same
  have undelivered (side : Side) : (Deployed.mk d.system (Function.update d.connection sender
      { d.connection sender with link })).undelivered side = d.undelivered side := by
    unfold Deployed.undelivered
    dsimp only
    by_cases here : side = sender
    · subst here
      rw [Function.update_self]
    · rw [Function.update_of_ne here]
  have same : (Deployed.mk d.system (Function.update d.connection sender
      { d.connection sender with link })).abstract = d.abstract := by
    unfold Deployed.abstract
    simp only [undelivered]
  exact ⟨⟨same ▸ sound.handshake,same ▸ sound.sized,sound.posted,
    models_update sound.models sender ⟨q,models'⟩⟩,same,rfl⟩

theorem step_readable (d : Deployed) (sender : Side) (stack : Nat → Nat → UInt8) (results : List RecvResult) :
    d.step heap (.onFdReadable sender stack results) =
      if 0 < (d.system.party sender.other).core.controller.created then
        ((d.connection sender).step heap (.setRemoteNodeName
            ((d.system.party sender.other).core.controller.channels 0).remoteNodeName)).bind fun named =>
          (named.step heap (.onFdReadable stack results)).bind fun read =>
            ((read.calls.drop named.calls.length).foldlM NodeController.onDelegateCall
                (d.system.party sender.other).core.controller).bind fun controller =>
              post heap sender.other (d.system.setParty sender.other
                ((d.system.party sender.other).withController controller)) (Function.update d.connection sender read)
      else none := rfl

theorem other_other (side : Side) : side.other.other = side := by
  cases side <;> rfl

theorem other_ne (side : Side) : side.other ≠ side := by
  cases side <;> exact Side.noConfusion

theorem delivered_abstract (posted : (d.system.party sender).inFlight = []) {c : Connection} {rest : List Message}
    (left : c.sent.drop c.calls.length = rest) (p : Party) :
    delivered d.abstract sender rest (p.behind (d.undelivered sender.other)) =
      (Deployed.mk (d.system.setParty sender.other p) (Function.update d.connection sender c)).abstract := by
  have sends : (d.abstract.party sender).withInFlight rest = (d.system.party sender).behind rest := by
    change ((d.system.party sender).behind _).withInFlight rest = _
    rw [Party.inFlight] at posted
    simp only [Party.behind,Core.behind,NodeController.behind,Party.withInFlight,Function.update_self,
      Function.update_idem,posted,List.append_nil]
  have same (side : Side) : (delivered d.abstract sender rest (p.behind (d.undelivered sender.other))).party side =
      ((d.system.setParty sender.other p).party side).behind ((Function.update d.connection sender c side).sent.drop
        (Function.update d.connection sender c side).calls.length) := by
    have apart := other_ne sender
    by_cases here : side = sender
    · subst here
      simp only [delivered,System.setParty,Function.update_of_ne apart.symm,Function.update_self]
      rw [sends,left]
    · have other : side = sender.other := by
        cases sender <;> cases side <;> first | rfl | exact absurd rfl here
      subst other
      simp only [delivered,System.setParty,Function.update_of_ne apart,Function.update_self]
      rfl
  exact congrArg (fun party => ({ d.system with party } : System)) (funext same)

/-- A frame that has arrived is read, decoded and acted on, as a delivery of its message. -/
theorem Sound.reads (heap : Nat → Nat → UInt8) (sound : Sound inviter invitee d) (distinct : inviter ≠ invitee)
    (valid : invitee ≠ kInvalidNodeName) {stack : Nat → Nat → UInt8} {results : List RecvResult}
    (allowed : Allowed d (.onFdReadable sender stack results))
    (made : 0 < (d.system.party sender.other).core.controller.created) :
    ∃ t, d.step heap (.onFdReadable sender stack results) = some t ∧ Sound inviter invitee t ∧
      d.abstract.step (.deliver sender) = some t.abstract := by
  obtain ⟨q,models⟩ := sound.models sender
  obtain ⟨g,h,flying⟩ := sound.handshake
  have renamed := models.rename ((d.system.party sender.other).core.controller.channels 0).remoteNodeName
  obtain ⟨read,data,q',ran,queue,calls,_,_,last⟩ := renamed.readable heap allowed
  have flight : (d.abstract.party sender).inFlight = data::q'.queue := by
    change ((d.system.party sender).behind _).inFlight = _
    rw [Party.behind_inFlight,sound.posted,List.append_nil,← queue]
    exact models_undelivered models
  obtain ⟨p,received,_⟩ := h.advances flying distinct flight made
  have behind := Party.receive_behind (d.undelivered sender.other) (d.system.party sender.other) data
  obtain ⟨p',received',rfl⟩ := Option.map_eq_some_iff.mp (behind.symm.trans received)
  obtain ⟨controller,handled,same⟩ := Option.bind_eq_some_iff.mp received'
  cases same
  have arrives := stepDeliver_received flight made received
  rw [delivered_abstract (sound.posted sender) (models_undelivered last)] at arrives
  have quiet : ((d.system.setParty sender.other ((d.system.party sender.other).withController controller)).party
      sender.other.other).inFlight = [] := by
    rw [other_other]
    simp only [System.setParty,Function.update_of_ne (other_ne sender).symm]
    exact sound.posted sender
  obtain ⟨t,posted,sound',abstract⟩ := sound.posts heap distinct valid (.deliver sender) trivial
    (models_update sound.models sender ⟨q',last⟩) quiet arrives
  refine ⟨t,?_,sound',abstract ▸ arrives⟩
  have named : (d.connection sender).step heap (.setRemoteNodeName
      ((d.system.party sender.other).core.controller.channels 0).remoteNodeName) =
    some { d.connection sender with channel := { (d.connection sender).channel with
      remoteNodeName := ((d.system.party sender.other).core.controller.channels 0).remoteNodeName } } := rfl
  have called : [(NodeChannel.mk ((d.system.party sender.other).core.controller.channels 0).remoteNodeName
      (d.connection sender).channel.heap).callback data].foldlM NodeController.onDelegateCall
        (d.system.party sender.other).core.controller = some controller := by
    rw [List.foldlM_cons,NodeController.onDelegateCall_callback,handled]
    rfl
  rw [step_readable,if_pos made,named,Option.bind_some,ran,Option.bind_some,calls,List.drop_left,called]
  exact posted

theorem stepCall_other {s u : System} {side : Side} {call : Call} (ran : s.stepCall side call = some u) :
    u.party side.other = s.party side.other := by
  unfold System.stepCall at ran
  split at ran
  · obtain ⟨p,_,same⟩ := Option.bind_eq_some_iff.mp ran
    cases same
    exact Function.update_of_ne (other_ne side) _ _
  · contradiction

theorem sound_start (inviter invitee : NodeName) (channel : Side → NodeChannel) :
    Sound inviter invitee (start inviter invitee channel) ∧
      (start inviter invitee channel).abstract = .start inviter invitee := by
  have same : (start inviter invitee channel).abstract = .start inviter invitee := by
    unfold Deployed.abstract
    have each (side : Side) : ((start inviter invitee channel).system.party side).behind
        ((start inviter invitee channel).undelivered side) = (System.start inviter invitee).party side :=
      Party.behind_nil _
    simp only [each]
    rfl
  have quiet (side : Side) : ((System.start inviter invitee).party side).inFlight = [] := by
    cases side <;> rfl
  refine ⟨⟨same ▸ ⟨_,handshake_start inviter invitee,?_⟩,same ▸ ⟨?_,?_⟩,quiet,
    fun side => ⟨_,Connection.models_start (channel side)⟩⟩,same⟩
  · intro side m member
    rw [quiet] at member
    exact absurd member List.not_mem_nil
  · intro side r member
    cases side <;> exact absurd member List.not_mem_nil
  · intro side m member
    rw [quiet] at member
    exact absurd member List.not_mem_nil

/-- A step is the action it is observed as, if it is observed at all. -/
theorem Sound.step (sound : Sound inviter invitee d) (distinct : inviter ≠ invitee)
    (valid : invitee ≠ kInvalidNodeName) {event : Event} (allowed : Allowed d event)
    (ran : d.step heap event = some t) :
    Sound inviter invitee t ∧ Path System.step (fun _ _ => True) d.abstract (observe event) t.abstract := by
  have acts (action : Action) {side : Side} {s : System} (small : Small action)
      (quiet : (s.party side.other).inFlight = [])
      (abstract : d.abstract.step action = some (Deployed.mk s d.connection).abstract)
      (posted : post heap side s d.connection = some t) :
      Sound inviter invitee t ∧ Path System.step (fun _ _ => True) d.abstract [action] t.abstract := by
    obtain ⟨u,posted',sound',same⟩ := sound.posts heap distinct valid action small sound.models quiet abstract
    cases posted.symm.trans posted'
    exact ⟨sound',.one trivial (same ▸ abstract)⟩
  cases event with
  | call side call =>
    obtain ⟨s,called,posted⟩ := Option.bind_eq_some_iff.mp ran
    have quiet : (s.party side.other).inFlight = [] := by
      rw [stepCall_other called]
      exact sound.posted side.other
    exact acts (.call side call) allowed quiet (call_abstract called) posted
  | sendInvitation invitation tempNodeName =>
    obtain ⟨s,sent,posted⟩ := Option.bind_eq_some_iff.mp ran
    obtain ⟨abstract,quiet⟩ := sound.sendInvitation_abstract sent
    exact acts (.sendInvitation invitation tempNodeName) trivial quiet abstract posted
  | acceptInvitation =>
    obtain ⟨s,accepted,posted⟩ := Option.bind_eq_some_iff.mp ran
    obtain ⟨abstract,quiet⟩ := sound.acceptInvitation_abstract accepted
    exact acts .acceptInvitation trivial quiet abstract posted
  | writer sender event =>
    obtain ⟨sound',same,_⟩ := sound.write allowed ran
    exact ⟨sound',same ▸ .nil _⟩
  | onFdReadable sender stack results =>
    have made : 0 < (d.system.party sender.other).core.controller.created := by
      rw [step_readable] at ran
      split at ran
      · assumption
      · contradiction
    obtain ⟨u,ran',sound',arrives⟩ := sound.reads heap distinct valid allowed made
    cases ran.symm.trans ran'
    exact ⟨sound',.one trivial arrives⟩

theorem simulates_system (heap : Nat → Nat → UInt8) (distinct : inviter ≠ invitee)
    (valid : invitee ≠ kInvalidNodeName) : Simulation (step heap) Allowed System.step (fun _ _ => True)
      observe (fun d s => Sound inviter invitee d ∧ s = d.abstract) where
  simulate {d t s event} related allowed ran := by
    obtain ⟨sound,rfl⟩ := related
    obtain ⟨sound',path⟩ := sound.step distinct valid allowed ran
    exact ⟨t.abstract,path,sound',rfl⟩

/-- Every run over the socket is a run of the system, with what has been sent and has not
been delivered in flight. -/
theorem run_refines (heap : Nat → Nat → UInt8) (distinct : inviter ≠ invitee)
    (valid : invitee ≠ kInvalidNodeName) (channel : Side → NodeChannel) (labels : List Event) (d : Deployed)
    (path : Path (step heap) Allowed (start inviter invitee channel) labels d) :
    (System.start inviter invitee).run (labels.flatMap observe) = some d.abstract := by
  obtain ⟨sound,same⟩ := sound_start inviter invitee channel
  obtain ⟨s,ran,_,rfl⟩ := (simulates_system heap distinct valid).path path ⟨sound,same.symm⟩
  exact ran.run

def quietChannel (_ : Side) : NodeChannel := ⟨kInvalidNodeName,fun _ _ => 0⟩

/-- An invitation is sent and written to the socket in two pieces. -/
def invited : List Event :=
  [.call .inviter .createInvitation,.acceptInvitation,.sendInvitation 1 ⟨9,9⟩,
    .writer .inviter .onFdWriteable,.writer .inviter .next,.writer .inviter (.send (.accepted 40)),
    .writer .inviter (.send (.accepted 100)),.writer .inviter .next]

theorem invited_path {d : Deployed} (ran : invited.foldlM (step fun _ _ => 0) (start ⟨1,1⟩ ⟨2,2⟩ quietChannel) = some d) :
    Path (step fun _ _ => 0) Allowed (start ⟨1,1⟩ ⟨2,2⟩ quietChannel) invited d := by
  apply Path.of_run _ ran
  simp [invited,Allowed,Small,Connection.Allowed,WriteEvent.protocols,Writer.Undisturbed]

theorem run_refines_invited : ∃ d : Deployed, (d.system.party .invitee).core.controller.inviterName = ⟨1,1⟩ ∧
    (System.start ⟨1,1⟩ ⟨2,2⟩).run [.call .inviter .createInvitation,.acceptInvitation,
      .sendInvitation 1 ⟨9,9⟩,.deliver .inviter] = some d.abstract := by
  obtain ⟨s,sent⟩ := Option.isSome_iff_exists.mp (show
    (invited.foldlM (step fun _ _ => 0) (start ⟨1,1⟩ ⟨2,2⟩ quietChannel)).isSome by decide +kernel)
  have arrived : Link.Arrived (s.connection .inviter).link.reader.incoming :=
    of_decide_eq_true (Path.view_of sent (fun s => decide (Link.Arrived (s.connection .inviter).link.reader.incoming))
      (by decide +kernel))
  have received : (s.step (fun _ _ => 0) (.onFdReadable .inviter (fun _ _ => 0) [.data 5,.interrupted])).map
      (fun d => (d.system.party .invitee).core.controller.inviterName) = some ⟨1,1⟩ :=
    Path.view_of sent (fun s => (s.step (fun _ _ => 0) (.onFdReadable .inviter (fun _ _ => 0)
      [.data 5,.interrupted])).map (fun d => (d.system.party .invitee).core.controller.inviterName)) (by decide +kernel)
  obtain ⟨d,ran,known⟩ := Option.map_eq_some_iff.mp received
  have allowed : Allowed s (.onFdReadable .inviter (fun _ _ => 0) [.data 5,.interrupted]) :=
    ⟨arrived,by simp [RecvResult.Goes]⟩
  exact ⟨d,known,run_refines _ (by decide) (by decide) quietChannel _ d
    ((invited_path sent).append (.one allowed ran))⟩

end Steps

section Completing
variable {heap : Nat → Nat → UInt8} {inviter invitee : NodeName} {d t : Deployed}

/-- The events of loop and socket that get something done, with no calls from above. -/
def Productive (d : Deployed) : Event → Prop
  | .writer sender event => (d.connection sender).link.Productive (.writer event)
  | .onFdReadable sender stack results => (d.connection sender).link.Productive (.onFdReadable stack results)
  | _ => False

def pending (d : Deployed) : Nat :=
  (d.connection .inviter).link.pending + (d.connection .invitee).link.pending

/-- The deliveries to come, and before the next of them what loop and socket have to do. -/
def rank (d : Deployed) : ℕ ×ₗ ℕ := toLex (d.abstract.load,d.pending)

theorem Productive.allowed {event : Event} (productive : Productive d event) : Allowed d event := by
  cases event with
  | writer sender event =>
    have undisturbed := Link.Productive.allowed productive
    cases event with
    | write protocol => exact productive.elim
    | onFdWriteable => exact ⟨rfl,undisturbed⟩
    | next => exact ⟨rfl,undisturbed⟩
    | send result => exact ⟨rfl,undisturbed⟩
  | onFdReadable sender stack results => exact productive
  | _ => exact productive.elim

theorem pending_update {sender : Side} {c : Connection} (less : c.link.pending < (d.connection sender).link.pending) :
    (Deployed.mk d.system (Function.update d.connection sender c)).pending < d.pending := by
  have apart := other_ne sender
  unfold pending
  dsimp only
  cases sender with
  | inviter =>
    rw [Function.update_self,Function.update_of_ne (show Side.invitee ≠ .inviter from apart)]
    omega
  | invitee =>
    rw [Function.update_self,Function.update_of_ne (show Side.inviter ≠ .invitee from apart)]
    omega

/-- Both nodes have their channels, and the states so far are sound. -/
structure Ready (inviter invitee : NodeName) (d : Deployed) : Prop where
  sound : Sound inviter invitee d
  made : ∀ side, 0 < (d.system.party side).core.controller.created

theorem Ready.met (ready : Ready inviter invitee d) : Met inviter invitee d.abstract :=
  ⟨ready.sound.handshake,ready.made⟩

theorem Ready.step (ready : Ready inviter invitee d) (distinct : inviter ≠ invitee)
    (valid : invitee ≠ kInvalidNodeName) {event : Event} (productive : Productive d event)
    (ran : d.step heap event = some t) : Ready inviter invitee t ∧ t.rank < d.rank := by
  cases event with
  | writer sender event =>
    obtain ⟨sound,same,system⟩ := ready.sound.write productive.allowed ran
    refine ⟨⟨sound,system ▸ ready.made⟩,Prod.Lex.toLex_lt_toLex.mpr (.inr ⟨congrArg System.load same,?_⟩)⟩
    obtain ⟨connection,written,same⟩ := Option.bind_eq_some_iff.mp ran
    cases same
    obtain ⟨link,linked,same⟩ := Option.bind_eq_some_iff.mp written
    cases same
    obtain ⟨q,models⟩ := ready.sound.models sender
    exact pending_update (Link.productive_step models.link.sound productive linked).1
  | onFdReadable sender stack results =>
    obtain ⟨u,ran',sound,arrives⟩ := ready.sound.reads heap distinct valid productive.allowed (ready.made _)
    cases ran.symm.trans ran'
    obtain ⟨met,less⟩ := ready.met.step distinct valid arrives
    exact ⟨⟨sound,met.made⟩,Prod.Lex.toLex_lt_toLex.mpr (.inl less)⟩
  | _ => exact productive.elim

/-- With both connections drained the parties are those of a system with nothing in flight. -/
theorem Sound.drained (sound : Sound inviter invitee d) (drained : ∀ side, (d.connection side).link.Drained) :
    d.abstract = d.system := by
  have nothing (side : Side) : d.undelivered side = [] := by
    obtain ⟨q,models⟩ := sound.models side
    exact (models_undelivered models).trans (models.drained (drained side))
  unfold Deployed.abstract
  simp only [nothing,Party.behind_nil]

/-- Loop and socket have something to do until the invitation has connected what it should. -/
theorem Ready.progress (heap : Nat → Nat → UInt8) (ready : Ready inviter invitee d) (distinct : inviter ≠ invitee)
    (validInviter : inviter ≠ kInvalidNodeName) (validInvitee : invitee ≠ kInvalidNodeName) :
    (∃ event t, Productive d event ∧ d.step heap event = some t) ∨
      ((∀ side, (d.connection side).link.Drained) ∧ Connects inviter invitee d.system) := by
  have each (side : Side) : (d.connection side).link.Drained ∨
      ∃ event t, Productive d event ∧ d.step heap event = some t := by
    obtain ⟨q,models⟩ := ready.sound.models side
    obtain drained | ⟨event,link,productive,ran⟩ := models.link.sound.progress heap
    · exact .inl drained
    · refine .inr ?_
      cases event with
      | writer event =>
        have written : (d.connection side).step heap (.writer event) = some { d.connection side with link } :=
          Option.bind_eq_some_iff.mpr ⟨link,ran,rfl⟩
        exact ⟨.writer side event,_,productive,Option.bind_eq_some_iff.mpr ⟨_,written,rfl⟩⟩
      | onFdReadable stack results =>
        obtain ⟨t,read,_⟩ := ready.sound.reads heap distinct validInvitee productive (ready.made _)
        exact ⟨.onFdReadable side stack results,t,productive,read⟩
  obtain inviterDrained | going := each .inviter
  · obtain inviteeDrained | going := each .invitee
    · refine .inr ?_
      have drained (side : Side) : (d.connection side).link.Drained := by
        cases side with
        | inviter => exact inviterDrained
        | invitee => exact inviteeDrained
      have same := ready.sound.drained drained
      refine ⟨drained,same ▸ ready.met.connects validInviter ?_⟩
      rw [same]
      exact ready.sound.posted
    · exact .inl going
  · exact .inl going

/-- Once both nodes have their channels, loop and socket get only finitely much done by
themselves, and they are not at the end of it before every message has been handled and the
invitation has connected what it should. -/
theorem run_completes (heap : Nat → Nat → UInt8) (distinct : inviter ≠ invitee)
    (validInviter : inviter ≠ kInvalidNodeName) (validInvitee : invitee ≠ kInvalidNodeName)
    (channel : Side → NodeChannel) (labels : List Event) (d : Deployed)
    (path : Path (step heap) Allowed (start inviter invitee channel) labels d)
    (made : ∀ side, 0 < (d.system.party side).core.controller.created) :
    (¬ ∃ f : ℕ → Deployed, f 0 = d ∧ ∀ n, ∃ event, Productive (f n) event ∧
      (f n).step heap event = some (f (n+1))) ∧
    ∀ more t, Path (step heap) Productive d more t →
      (∃ event u, Productive t event ∧ t.step heap event = some u) ∨
        ((∀ side, (t.connection side).link.Drained) ∧ Connects inviter invitee t.system) := by
  obtain ⟨sound,same⟩ := sound_start inviter invitee channel
  obtain ⟨_,_,sound',_⟩ := (simulates_system heap distinct validInvitee).path path ⟨sound,same.symm⟩
  have ready : Ready inviter invitee d := ⟨sound',made⟩
  constructor
  · intro infinite
    obtain ⟨f,first,steps⟩ := infinite
    have all (n : ℕ) : Ready inviter invitee (f n) := by
      induction n with
      | zero => exact first ▸ ready
      | succ n ih =>
        obtain ⟨event,productive,ran⟩ := steps n
        exact (ih.step distinct validInvitee productive ran).1
    obtain ⟨n,stuck⟩ := WellFounded.not_rel_apply_succ (r := (· < ·)) fun n => (f n).rank
    obtain ⟨event,productive,ran⟩ := steps n
    exact stuck ((all n).step distinct validInvitee productive ran).2
  · intro more t on
    have ready' := on.invariant (fun ready productive ran => (ready.step distinct validInvitee productive ran).1) ready
    exact ready'.progress heap distinct validInviter validInvitee

theorem run_completes_invited : ∃ d : Deployed, d.abstract.load = 2 ∧
    (¬ ∃ f : ℕ → Deployed, f 0 = d ∧ ∀ n, ∃ event, Productive (f n) event ∧
      (f n).step (fun _ _ => 0) event = some (f (n+1))) ∧
    ∀ more t, Path (step fun _ _ => 0) Productive d more t →
      (∃ event u, Productive t event ∧ t.step (fun _ _ => 0) event = some u) ∨
        ((∀ side, (t.connection side).link.Drained) ∧ Connects ⟨1,1⟩ ⟨2,2⟩ t.system) := by
  obtain ⟨d,sent⟩ := Option.isSome_iff_exists.mp (show
    (invited.foldlM (step fun _ _ => 0) (start ⟨1,1⟩ ⟨2,2⟩ quietChannel)).isSome by decide +kernel)
  have made (side : Side) : 0 < (d.system.party side).core.controller.created := by
    have one : (d.system.party side).core.controller.created = 1 := by
      cases side with
      | inviter => exact Path.view_of sent (fun d => (d.system.party .inviter).core.controller.created) (by decide +kernel)
      | invitee => exact Path.view_of sent (fun d => (d.system.party .invitee).core.controller.created) (by decide +kernel)
    omega
  exact ⟨d,Path.view_of sent (fun d => d.abstract.load) (by decide +kernel),
    run_completes _ (by decide) (by decide) (by decide) quietChannel _ d (invited_path sent) made⟩

end Completing

end Deployed

end Invitation

end MojoImpl
