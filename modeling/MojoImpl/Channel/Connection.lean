import MojoImpl.Channel.Link
import MojoImpl.Channel.RoundTrip
import MojoImpl.Channel.NodeChannel

/-! One direction between two `NodeChannel`s: a call at one end serializes a message, frames
it and writes it; at the other end `OnFdReadable` hands the frame to `OnChannelMessage`,
which decodes it and calls the delegate. The direction is compared with a queue of
messages. -/
namespace MojoImpl
open Foundation MojoImpl.ByteArray MojoImpl.ChannelPosix

namespace NodeChannel
variable (heap : Nat → Nat → UInt8)

/-- What is written for a message, by the calls below and by `SendPeerEvent`. -/
def frame (data : Message) : Except Fault Protocol := do
  let content ← Channel.serializeMessage heap data
  return Protocol.createWith data.type content

def requestPortMerge (connectorPortName : PortName) (messagePipeName : List UInt8) : Except Fault Protocol :=
  frame heap (.requestPortMerge { connectorPortName, messagePipeName })

def acceptInvitee (inviterName token : NodeName) : Except Fault Protocol :=
  frame heap (.acceptInvitee { token, inviterName })

def acceptInvitation (token inviteeName : NodeName) : Except Fault Protocol :=
  frame heap (.acceptInvitation { token, inviteeName })

def acceptPeer (senderName token : NodeName) (portName : PortName) : Except Fault Protocol :=
  frame heap (.acceptPeer { token, portName, peerName := senderName })

def responsePortMerge (connectorPortName portName : PortName) : Except Fault Protocol :=
  frame heap (.responsePortMerge { connectorPortName, portName })

end NodeChannel

/-- The message a delegate call passes on. -/
def DelegateCall.message : DelegateCall → Option Message
  | .onAcceptInvitee _ inviterName token => some (.acceptInvitee { token, inviterName })
  | .onAcceptInvitation _ token inviteeName => some (.acceptInvitation { token, inviteeName })
  | .onRequestPortMerge _ connectorPortName messagePipeName =>
    some (.requestPortMerge { connectorPortName, messagePipeName })
  | .onResponsePortMerge _ connectorPortName portName => some (.responsePortMerge { connectorPortName, portName })
  | .onUserMessage _ message => some (.userMessage message)
  | .onAcceptPeer _ token peerName portName => some (.acceptPeer { token, peerName, portName })
  | .onChannelError _ => none

/-- `channel` is the receiving end, `sent` the messages passed to the sending one. -/
structure Connection where
  channel : NodeChannel
  link : Link
  sent : List Message
  calls : List DelegateCall

namespace Connection

inductive Event
  | send (data : Message)
  | writer (event : WriteEvent)
  | onFdReadable (stack : Nat → Nat → UInt8) (results : List RecvResult)
  | setRemoteNodeName (name : NodeName)

def start (channel : NodeChannel) : Connection := ⟨channel,.start,[],[]⟩

def step (heap : Nat → Nat → UInt8) (s : Connection) : Event → Option Connection
  | .send data => do
    let protocol ← (NodeChannel.frame heap data).toOption
    let link ← s.link.step heap (.writer (.write protocol))
    return { s with link, sent := s.sent ++ [data] }
  | .writer event => do
    let link ← s.link.step heap (.writer event)
    return { s with link }
  | .onFdReadable stack results => do
    let link ← s.link.step heap (.onFdReadable stack results)
    let delivered := link.reader.delivered.drop s.link.reader.delivered.length
    let calls ← (delivered.mapM s.channel.onChannelMessage).toOption
    return { s with link, calls := s.calls ++ calls.flatten }
  | .setRemoteNodeName name => some { s with channel := { s.channel with remoteNodeName := name } }

/-- The messages that come back from their serialized form and that the receiving end has
a case label for. -/
def Sendable (data : Message) : Prop := data.Short ∧ NodeChannel.Handled (some data.type)

/-- Only `Write` itself pushes protocols. -/
def Allowed (s : Connection) : Event → Prop
  | .send data => Sendable data
  | .writer event => event.protocols = [] ∧ Writer.Undisturbed event
  | .onFdReadable stack results => s.link.Allowed (.onFdReadable stack results)
  | .setRemoteNodeName _ => True

def observe : Event → List (Fifo.Label Message)
  | .send data => [.put data]
  | .writer _ => []
  | .onFdReadable _ _ => [.take]
  | .setRemoteNodeName _ => []

section Messages

theorem frame_wire (heap : Nat → Nat → UInt8) (data : Message) :
    NodeChannel.frame heap data = .ok (.createWith data.type data.wire) := by
  rw [NodeChannel.frame,serializeMessage_wire]
  rfl

theorem callback_message (s : NodeChannel) (data : Message) : (s.callback data).message = some data := by
  cases data <;> rfl

theorem Sendable.sized {data : Message} (sendable : Sendable data) : data.Sized := by
  have short := sendable.1
  cases data with
  | userMessage m => exact Nat.lt_trans short (by decide)
  | requestPortMerge m => exact Nat.lt_trans short (by decide)
  | _ => trivial

theorem Sendable.small {data : Message} (sendable : Sendable data) : data.wire.length < 2^16 :=
  Nat.lt_trans ((Message.short_iff data).mp sendable.1) (by decide)

/-- A frame with the content of a message makes the receiving end call its delegate with
that message. -/
theorem Sendable.received {data : Message} (sendable : Sendable data) (s : NodeChannel) {p : Protocol}
    (same : content p = (data.type.toByte,data.wire)) : s.onChannelMessage p = .ok [s.callback data] := by
  obtain ⟨type,bytes⟩ := Prod.mk.inj same
  have label : p.msgType = some data.type := by
    rw [Protocol.msgType,type,MsgType.ofByte_toByte]
  apply NodeChannel.onChannelMessage_decodes
  rw [label,bytes]
  exact ⟨sendable.2,rfl,(Message.starts_rewrapped sendable.sized).mpr sendable.1⟩

end Messages

section Queue
variable {heap : Nat → Nat → UInt8} {s t : Connection} {q : Fifo Message}

/-- The content of the frame of a message. -/
def encoded (data : Message) : UInt8 × List UInt8 := (data.type.toByte,data.wire)

structure Models (s : Connection) (q : Fifo Message) : Prop where
  link : s.link.Models (q.map encoded)
  sendable : ∀ data ∈ q.all, Sendable data
  taken : s.calls.map DelegateCall.message = q.taken.map some
  all : q.all = s.sent

theorem models_start (channel : NodeChannel) : Models (start channel) .empty :=
  ⟨Link.models_start,by simp [Fifo.all,Fifo.empty],rfl,rfl⟩

/-- A message has a serialized form, and the writer takes its frame. -/
theorem step_send (heap : Nat → Nat → UInt8) (s : Connection) (data : Message) :
    ∃ link, s.step heap (.send data) = some { s with link, sent := s.sent ++ [data] } := by
  have opened : s.step heap (.send data) = (NodeChannel.frame heap data).toOption.bind fun protocol =>
      (s.link.step heap (.writer (.write protocol))).bind fun link =>
        some { s with link, sent := s.sent ++ [data] } := rfl
  rw [opened,frame_wire]
  exact ⟨_,rfl⟩

theorem Models.send (models : Models s q) {data : Message} (sendable : Sendable data)
    (ran : s.step heap (.send data) = some t) :
    ∃ q', Path Fifo.step (fun _ _ => True) q [.put data] q' ∧ Models t q' := by
  obtain ⟨protocol,framed,rest⟩ := Option.bind_eq_some_iff.mp ran
  obtain ⟨link,written,same⟩ := Option.bind_eq_some_iff.mp rest
  cases same
  rw [frame_wire] at framed
  cases framed
  have allowed : s.link.Allowed (.writer (.write (.createWith data.type data.wire))) := sendable.small
  obtain ⟨sound,all,delivered⟩ := models.link.sound.write allowed written
  refine ⟨_,.one trivial rfl,⟨⟨sound,?_,?_⟩,?_,models.taken,?_⟩⟩
  · rw [delivered]
    exact models.link.taken
  · rw [all,List.map_append,← models.link.all,Fifo.map_all,Fifo.map_all]
    change (q.taken ++ (q.queue ++ [data])).map encoded = _
    rw [← List.append_assoc,List.map_append]
    rfl
  · intro m member
    change m ∈ q.taken ++ (q.queue ++ [data]) at member
    rw [← List.append_assoc] at member
    obtain before | new := List.mem_append.mp member
    · exact models.sendable m before
    · cases List.mem_singleton.mp new
      exact sendable
  · change q.taken ++ (q.queue ++ [data]) = _
    rw [← List.append_assoc]
    exact congrArg (· ++ [data]) models.all

theorem Models.writer (models : Models s q) {event : WriteEvent} (unpushed : event.protocols = [])
    (undisturbed : Writer.Undisturbed event) (ran : s.step heap (.writer event) = some t) : Models t q := by
  obtain ⟨link,ran',same⟩ := Option.bind_eq_some_iff.mp ran
  cases same
  have allowed : s.link.Allowed (.writer event) := by
    cases event with
    | write protocol => exact absurd unpushed (List.cons_ne_nil _ _)
    | onFdWriteable => trivial
    | next => trivial
    | send result => exact undisturbed
  obtain ⟨sound,all,delivered⟩ := models.link.sound.write allowed ran'
  refine ⟨⟨sound,?_,?_⟩,models.sendable,models.taken,models.all⟩
  · rw [delivered]
    exact models.link.taken
  · rw [all,unpushed,List.append_nil]
    exact models.link.all

theorem step_readable (stack : Nat → Nat → UInt8) (results : List RecvResult) :
    s.step heap (.onFdReadable stack results) =
      (s.link.step heap (.onFdReadable stack results)).bind fun link =>
        ((link.reader.delivered.drop s.link.reader.delivered.length).mapM s.channel.onChannelMessage).toOption.bind
          fun calls => some { s with link, calls := s.calls ++ calls.flatten } := rfl

/-- The first message of the queue is what the delegate is called with. -/
theorem Models.readable (heap : Nat → Nat → UInt8) (models : Models s q) {stack : Nat → Nat → UInt8}
    {results : List RecvResult} (allowed : s.link.Allowed (.onFdReadable stack results)) :
    ∃ t data q', s.step heap (.onFdReadable stack results) = some t ∧ q.queue = data::q'.queue ∧
      t.calls = s.calls ++ [s.channel.callback data] ∧ t.sent = s.sent ∧
      Path Fifo.step (fun _ _ => True) q [.take] q' ∧ Models t q' := by
  obtain ⟨link,p,later,ran,sound,writer,small,delivered,written⟩ :=
    models.link.sound.readable heap allowed.1 stack allowed.2
  obtain ⟨queue,taken⟩ := q
  have front : queue.map encoded = content p :: later := by
    have all := models.link.all
    rw [written,← models.link.taken] at all
    exact List.append_cancel_left all
  obtain ⟨data,queue,rfl,first,rfl⟩ := List.map_eq_cons_iff.mp front
  have sendable : Sendable data := models.sendable data (by simp [Fifo.all])
  have made := sendable.received s.channel ((received_content small).trans first.symm)
  have called : ([received p].mapM s.channel.onChannelMessage) = .ok [[s.channel.callback data]] := by
    rw [List.mapM_cons,made]
    rfl
  have read : s.step heap (.onFdReadable stack results) =
      some { s with link, calls := s.calls ++ [s.channel.callback data] } := by
    rw [step_readable,ran,Option.bind_some,delivered,List.drop_left,called]
    rfl
  have path : Path Fifo.step (fun _ _ => True) ⟨data::queue,taken⟩ [.take] ⟨queue,taken ++ [data]⟩ :=
    .one trivial rfl
  refine ⟨_,data,⟨queue,taken ++ [data]⟩,read,rfl,rfl,rfl,path,⟨⟨sound,?_,?_⟩,?_,?_,?_⟩⟩
  · rw [delivered,List.map_append,← models.link.taken,List.map_singleton,received_content small,← first]
    exact List.map_append
  · rw [writer,← models.link.all,Fifo.map_all,Fifo.map_all]
    exact congrArg _ (List.append_assoc taken [data] queue)
  · intro m member
    exact models.sendable m (by simpa [Fifo.all] using member)
  · change (s.calls ++ [s.channel.callback data]).map _ = (taken ++ [data]).map some
    rw [List.map_append,models.taken,List.map_singleton,callback_message,List.map_append]
    rfl
  · rw [← models.all]
    exact List.append_assoc _ _ _

theorem Models.rename (models : Models s q) (name : NodeName) :
    Models { s with channel := { s.channel with remoteNodeName := name } } q :=
  ⟨models.link,models.sendable,models.taken,models.all⟩

theorem Models.drained (models : Models s q) (drained : s.link.Drained) : q.queue = [] := by
  have all := models.link.all
  rw [← drained.2.2.2,← models.link.taken] at all
  exact List.map_eq_nil_iff.mp (List.append_right_eq_self.mp all)

/-- The connection is a queue of messages: what is sent at one end is what the delegate at
the other end is called with, in turn. -/
theorem simulates_fifo (heap : Nat → Nat → UInt8) : Simulation (step heap) Allowed
    (Fifo.step (α := Message)) (fun _ _ => True) observe Models where
  simulate {s t q event} models allowed ran := by
    cases event with
    | send data => exact models.send allowed ran
    | writer event => exact ⟨q,.nil q,models.writer allowed.1 allowed.2 ran⟩
    | onFdReadable stack results =>
      obtain ⟨t',_,q',ran',_,_,_,path,models'⟩ := models.readable heap allowed
      cases ran.symm.trans ran'
      exact ⟨q',path,models'⟩
    | setRemoteNodeName name =>
      cases ran
      exact ⟨q,.nil q,models.rename name⟩

/-- Every run of a connection is one of a queue of messages, its delegate calls those
messages, and all messages sent are among them once the link is drained. -/
theorem run_calls (heap : Nat → Nat → UInt8) (channel : NodeChannel) (labels : List Event) (t : Connection)
    (path : Path (step heap) Allowed (start channel) labels t) :
    ∃ q, Path Fifo.step (fun _ _ => True) .empty (labels.flatMap observe) q ∧
      t.calls.map DelegateCall.message = q.taken.map some ∧ q.all = t.sent ∧
      (t.link.Drained → t.calls.map DelegateCall.message = t.sent.map some) := by
  obtain ⟨q,path',models⟩ := (simulates_fifo heap).path path (models_start channel)
  refine ⟨q,path',models.taken,models.all,?_⟩
  intro drained
  rw [models.taken,← models.all,Fifo.all,models.drained drained,List.append_nil]

/-- A request of a port merge, cut short on its way out and on its way in. -/
def oneRequest : List Event :=
  [.send (.requestPortMerge ⟨⟨5,5⟩,[104,105]⟩),.writer .onFdWriteable,.writer .next,
    .writer (.send (.accepted 9)),.writer (.send (.accepted 90)),.writer .next]

theorem run_calls_oneRequest : ∃ t : Connection, t.calls = [.onRequestPortMerge ⟨7,7⟩ ⟨5,5⟩ [104,105]] ∧ ∃ q,
    Path Fifo.step (fun _ _ => True) .empty
      ((oneRequest ++ [Event.onFdReadable (fun _ _ => 0) [.data 7,.interrupted]]).flatMap observe) q ∧
      t.calls.map DelegateCall.message = q.taken.map some ∧ q.all = t.sent ∧
      (t.link.Drained → t.calls.map DelegateCall.message = t.sent.map some) := by
  obtain ⟨s,sent⟩ := Option.isSome_iff_exists.mp (show
    (oneRequest.foldlM (step fun _ _ => 0) (start ⟨⟨7,7⟩,fun _ _ => 0⟩)).isSome by decide +kernel)
  have arrived : Link.Arrived s.link.reader.incoming :=
    of_decide_eq_true (Path.view_of sent (fun s => decide (Link.Arrived s.link.reader.incoming)) (by decide +kernel))
  have received : (s.step (fun _ _ => 0) (.onFdReadable (fun _ _ => 0) [.data 7,.interrupted])).map calls =
      some [.onRequestPortMerge ⟨7,7⟩ ⟨5,5⟩ [104,105]] :=
    Path.view_of sent (fun s => (s.step (fun _ _ => 0) (.onFdReadable (fun _ _ => 0) [.data 7,.interrupted])).map calls)
      (by decide +kernel)
  obtain ⟨t,ran,calls⟩ := Option.map_eq_some_iff.mp received
  have sending : Path (step fun _ _ => 0) Allowed (start ⟨⟨7,7⟩,fun _ _ => 0⟩) oneRequest s := by
    apply Path.of_run _ sent
    simp [oneRequest,Allowed,Sendable,Message.Short,NodeChannel.Handled,Message.type,WriteEvent.protocols,
      Writer.Undisturbed]
  exact ⟨t,calls,run_calls _ _ _ t (sending.append (.one ⟨arrived,by simp [RecvResult.Goes]⟩ ran))⟩

end Queue

end Connection

end MojoImpl
