import MojoImpl.Channel.Serialize

/-! Dispatch of received protocols, from node_channel.cc: which delegate calls
`OnChannelMessage` makes, and when it ends in an exception or a null dereference instead. -/
namespace MojoImpl
open Foundation MojoImpl.ByteArray

/-- The calls of `NodeChannel::Delegate` that concern received messages. -/
inductive DelegateCall
  | onAcceptInvitee (fromNode inviterName token : NodeName)
  | onAcceptInvitation (fromNode token inviteeName : NodeName)
  | onRequestPortMerge (fromNode : NodeName) (connectorPortName : PortName)
      (messagePipeName : List UInt8)
  | onResponsePortMerge (fromNode : NodeName) (connectorPortName portName : PortName)
  | onUserMessage (fromNode : NodeName) (message : UserMessage)
  | onAcceptPeer (fromNode token peerName : NodeName) (portName : PortName)
  | onChannelError (name : NodeName)
  deriving DecidableEq, Repr

structure NodeChannel where
  remoteNodeName : NodeName
  heap : Nat → Nat → UInt8

namespace NodeChannel

def callback (s : NodeChannel) : Message → DelegateCall
  | .acceptInvitation data => .onAcceptInvitation s.remoteNodeName data.token data.inviteeName
  | .acceptInvitee data => .onAcceptInvitee s.remoteNodeName data.inviterName data.token
  | .requestPortMerge data =>
    .onRequestPortMerge s.remoteNodeName data.connectorPortName data.messagePipeName
  | .responsePortMerge data =>
    .onResponsePortMerge s.remoteNodeName data.connectorPortName data.portName
  | .userMessage data => .onUserMessage s.remoteNodeName data
  | .acceptPeer data =>
    .onAcceptPeer s.remoteNodeName data.token data.peerName data.portName

/-- The body of a case label: `data` is the object `Create` returned. -/
def received (s : NodeChannel) (data : Message) (protocol : Protocol) :
    Except Fault (List DelegateCall) := do
  let data ← Channel.deserializeMessage s.heap data protocol.data
  return [s.callback data]

def onChannelMessage (s : NodeChannel) (protocol : Protocol) : Except Fault (List DelegateCall) :=
  let message : Option Protocol := none
  match protocol.msgType with
  | some .acceptInvitation => s.received (.acceptInvitation .create) protocol
  | some .acceptInvitee => s.received (.acceptInvitee .create) protocol
  | some .requestPortMerge => s.received (.requestPortMerge .create) protocol
  | some .responsePortMerge => s.received (.responsePortMerge .create) protocol
  | some .userMessage => s.received (.userMessage .create) protocol
  | _ =>
    -- the log line reads the type of `message`, which nothing has assigned
    match message with
    | none => .error .nullDeref
    | some _ => .ok [.onChannelError s.remoteNodeName]

def Handled (type : Option MsgType) : Prop :=
  type = some .acceptInvitation ∨ type = some .acceptInvitee ∨ type = some .requestPortMerge ∨
    type = some .responsePortMerge ∨ type = some .userMessage

instance (type : Option MsgType) : Decidable (Handled type) :=
  inferInstanceAs (Decidable (_ ∨ _))

/-- `bytes` start with a message of the type `type` names. -/
def Decodes (type : Option MsgType) (bytes : List UInt8) (m : Message) : Prop :=
  Handled type ∧ type = some m.type ∧ (Message.format m.type).Starts m bytes

/-- One delegate call: the callback with the decoded fields, or `OnChannelError` when
nothing can be decoded from `bytes`. -/
def Answers (s : NodeChannel) (type : Option MsgType) (bytes : List UInt8)
    (outcome : Except Fault (List DelegateCall)) : Prop :=
  ∃ call, outcome = .ok [call] ∧ (∀ m, Decodes type bytes m → call = s.callback m) ∧
    ((¬ ∃ m, Decodes type bytes m) → call = .onChannelError s.remoteNodeName)

theorem starts_type {type : MsgType} {m : Message} {bytes : List UInt8}
    (starts : (Message.format type).Starts m bytes) : m.type = type := by
  cases type <;> cases m <;> first | rfl | (obtain ⟨⟨_,known,_⟩,_⟩ := starts; cases known) |
    exact starts.1.elim

theorem received_outcome (s : NodeChannel) (data : Message) (protocol : Protocol)
    (handled : Handled (some data.type)) :
    (∃ m, Decodes (some data.type) (rewrapped protocol.data) m ∧
        s.received data protocol = .ok [s.callback m]) ∨
      ((∀ m, ¬ Decodes (some data.type) (rewrapped protocol.data) m) ∧
        s.received data protocol = .error .outOfRange) := by
  rcases deserializeMessage_reads s.heap data protocol.data with ⟨m,starts,ran⟩ | ⟨absent,ran⟩
  · have same := starts_type starts
    refine .inl ⟨m,⟨handled,by rw [same],by rw [same]; exact starts⟩,?_⟩
    rw [received,ran]
    rfl
  · refine .inr ⟨?_,?_⟩
    · rintro m ⟨_,same,starts⟩
      rw [← Option.some.inj same] at starts
      exact absent m starts
    · rw [received,ran]
      rfl

theorem onChannelMessage_cases (s : NodeChannel) (protocol : Protocol) :
    (∃ data : Message, protocol.msgType = some data.type ∧ Handled protocol.msgType ∧
        s.onChannelMessage protocol = s.received data protocol) ∨
      (¬ Handled protocol.msgType ∧ s.onChannelMessage protocol = .error .nullDeref) := by
  unfold onChannelMessage
  split
  · next label => exact .inl ⟨.acceptInvitation .create,label,by rw [label]; decide,rfl⟩
  · next label => exact .inl ⟨.acceptInvitee .create,label,by rw [label]; decide,rfl⟩
  · next label => exact .inl ⟨.requestPortMerge .create,label,by rw [label]; decide,rfl⟩
  · next label => exact .inl ⟨.responsePortMerge .create,label,by rw [label]; decide,rfl⟩
  · next label => exact .inl ⟨.userMessage .create,label,by rw [label]; decide,rfl⟩
  · refine .inr ⟨?_,rfl⟩
    rintro (label | label | label | label | label) <;> contradiction

theorem Decodes.unique {type : Option MsgType} {bytes : List UInt8} {m m' : Message}
    (first : Decodes type bytes m) (second : Decodes type bytes m') : m = m' := by
  have same : m.type = m'.type := Option.some.inj (first.2.1.symm.trans second.2.1)
  have starts := first.2.2
  rw [same] at starts
  exact starts.unique second.2.2

theorem onChannelMessage_decodes {s : NodeChannel} {protocol : Protocol} {m : Message}
    (decodes : Decodes protocol.msgType (rewrapped protocol.data) m) :
    s.onChannelMessage protocol = .ok [s.callback m] := by
  rcases s.onChannelMessage_cases protocol with ⟨data,type,handled,ran⟩ | ⟨other,_⟩
  · rw [type] at decodes handled
    rcases s.received_outcome data protocol handled with ⟨m',decodes',ended⟩ | ⟨absent,_⟩
    · rw [ran,ended,decodes.unique decodes']
    · exact (absent m decodes).elim
  · exact (other decodes.1).elim

theorem onChannelMessage_undecoded {s : NodeChannel} {protocol : Protocol}
    (absent : ¬ ∃ m, Decodes protocol.msgType (rewrapped protocol.data) m) :
    s.onChannelMessage protocol =
      .error (if Handled protocol.msgType then .outOfRange else .nullDeref) := by
  rcases s.onChannelMessage_cases protocol with ⟨data,type,handled,ran⟩ | ⟨other,ran⟩
  · rw [if_pos handled,ran]
    rw [type] at absent handled
    rcases s.received_outcome data protocol handled with ⟨m,decodes,_⟩ | ⟨_,ended⟩
    · exact (absent ⟨m,decodes⟩).elim
    · exact ended
  · rw [if_neg other,ran]

theorem callback_injective (s : NodeChannel) : Function.Injective s.callback := by
  rintro (⟨_,_,_⟩|⟨_,_⟩|⟨_,_⟩|⟨_,_⟩|⟨_,_⟩|⟨_,_,_⟩) (⟨_,_,_⟩|⟨_,_⟩|⟨_,_⟩|⟨_,_⟩|⟨_,_⟩|⟨_,_,_⟩) same <;>
    cases same <;> rfl

theorem callback_ne_error (s : NodeChannel) (m : Message) (name : NodeName) :
    s.callback m ≠ .onChannelError name := by
  cases m <;> simp [callback]

theorem not_answers_error {s : NodeChannel} {type : Option MsgType} {bytes : List UInt8}
    (fault : Fault) : ¬ s.Answers type bytes (.error fault) := by
  rintro ⟨call,ended,_⟩
  cases ended

/-- Whatever bytes the content is taken to be decoded from, the outcome is right exactly
when the decoder is given the same message. -/
theorem answers_iff (s : NodeChannel) (protocol : Protocol) (bytes : List UInt8) :
    s.Answers protocol.msgType bytes (s.onChannelMessage protocol) ↔
      ∃ m, Decodes protocol.msgType bytes m ∧
        Decodes protocol.msgType (rewrapped protocol.data) m := by
  constructor
  · rintro ⟨call,ended,found,missing⟩
    by_cases given : ∃ m, Decodes protocol.msgType (rewrapped protocol.data) m
    · obtain ⟨m,decodes⟩ := given
      rw [onChannelMessage_decodes decodes] at ended
      have made : s.callback m = call := (List.cons.inj (Except.ok.inj ended)).1
      by_cases expected : ∃ m', Decodes protocol.msgType bytes m'
      · obtain ⟨m',decodes'⟩ := expected
        have same : m = m' := s.callback_injective (made.trans (found m' decodes'))
        exact ⟨m,same ▸ decodes',decodes⟩
      · exact (s.callback_ne_error m _ (made.trans (missing expected))).elim
    · rw [onChannelMessage_undecoded given] at ended
      cases ended
  · rintro ⟨m,decodes,given⟩
    refine ⟨s.callback m,onChannelMessage_decodes given,?_,fun none => (none ⟨m,decodes⟩).elim⟩
    intro m' decodes'
    rw [decodes.unique decodes']

/-- `OnChannelMessage` makes the one right call exactly when a message of a handled type
begins both the content and what the decoder is given of it. Where decoding is taken to be
what `DeserializeMessage` does, the second half is the whole condition. -/
theorem onChannelMessage_answers (s : NodeChannel) (protocol : Protocol) :
    (s.Answers protocol.msgType protocol.data (s.onChannelMessage protocol) ↔
      ∃ m, Decodes protocol.msgType protocol.data m ∧
        Decodes protocol.msgType (rewrapped protocol.data) m) ∧
    (s.Answers protocol.msgType (rewrapped protocol.data) (s.onChannelMessage protocol) ↔
      ∃ m, Decodes protocol.msgType (rewrapped protocol.data) m) := by
  have shifted := s.answers_iff protocol (rewrapped protocol.data)
  simp only [and_self] at shifted
  exact ⟨s.answers_iff protocol protocol.data,shifted⟩

/-- A type past the enumeration, and an announced user message with no content. -/
theorem onChannelMessage_fails :
    ¬ NodeChannel.Answers ⟨⟨1,1⟩,fun _ _ => 0⟩ none []
      (NodeChannel.onChannelMessage ⟨⟨1,1⟩,fun _ _ => 0⟩ ⟨0xcc,1,200,0,[]⟩) ∧
    ¬ NodeChannel.Answers ⟨⟨1,1⟩,fun _ _ => 0⟩ (some .userMessage) []
      (NodeChannel.onChannelMessage ⟨⟨1,1⟩,fun _ _ => 0⟩ ⟨0xcc,1,5,0,[]⟩) := by
  have unknown : NodeChannel.onChannelMessage ⟨⟨1,1⟩,fun _ _ => 0⟩ ⟨0xcc,1,200,0,[]⟩ =
      .error .nullDeref := by decide +kernel
  have truncated : NodeChannel.onChannelMessage ⟨⟨1,1⟩,fun _ _ => 0⟩ ⟨0xcc,1,5,0,[]⟩ =
      .error .outOfRange := by decide +kernel
  rw [unknown,truncated]
  exact ⟨not_answers_error _,not_answers_error _⟩

end NodeChannel

end MojoImpl
