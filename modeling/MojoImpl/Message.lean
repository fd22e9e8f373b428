import MojoImpl.ByteArray.Typed
import MojoImpl.Name

/-! The message classes of core/protocols, with the field order each of them puts on
the wire. `Message` is a pointer to `ProtocolInterface`, its functions the virtual calls. -/
namespace MojoImpl
open Foundation MojoImpl.ByteArray

structure UserMessage where
  fromPortName : PortName
  toPortName : PortName
  data : List UInt8
  deriving DecidableEq, Repr

structure RequestPortMergeProtocol where
  connectorPortName : PortName
  messagePipeName : List UInt8
  deriving DecidableEq, Repr

structure ResponsePortMergeProtocol where
  connectorPortName : PortName
  portName : PortName
  deriving DecidableEq, Repr

structure AcceptInviteeProtocol where
  token : NodeName
  inviterName : NodeName
  deriving DecidableEq, Repr

structure AcceptInvitationProtocol where
  token : NodeName
  inviteeName : NodeName
  deriving DecidableEq, Repr

structure AcceptPeerProtocol where
  token : NodeName
  peerName : NodeName
  portName : PortName
  deriving DecidableEq, Repr

def UserMessage.create : UserMessage := ⟨kInvalidPortName,kInvalidPortName,[]⟩
def RequestPortMergeProtocol.create : RequestPortMergeProtocol := ⟨kInvalidPortName,[]⟩
def ResponsePortMergeProtocol.create : ResponsePortMergeProtocol := ⟨kInvalidPortName,kInvalidPortName⟩
def AcceptInviteeProtocol.create : AcceptInviteeProtocol := ⟨kInvalidNodeName,kInvalidNodeName⟩
def AcceptInvitationProtocol.create : AcceptInvitationProtocol := ⟨kInvalidNodeName,kInvalidNodeName⟩
def AcceptPeerProtocol.create : AcceptPeerProtocol := ⟨kInvalidNodeName,kInvalidNodeName,kInvalidPortName⟩

inductive Message
  | userMessage (m : UserMessage)
  | requestPortMerge (m : RequestPortMergeProtocol)
  | responsePortMerge (m : ResponsePortMergeProtocol)
  | acceptInvitee (m : AcceptInviteeProtocol)
  | acceptInvitation (m : AcceptInvitationProtocol)
  | acceptPeer (m : AcceptPeerProtocol)
  deriving DecidableEq, Repr

inductive MsgType
  | headerType
  | acceptInvitee
  | acceptInvitation
  | requestPortMerge
  | responsePortMerge
  | userMessage
  | requestIntroduction
  | introduction
  | broadcastEvent
  | acceptPeer
  deriving DecidableEq, Repr

namespace MsgType

/-- The enumerators in order; the underlying value of each is its place. -/
def all : List MsgType :=
  [headerType,acceptInvitee,acceptInvitation,requestPortMerge,responsePortMerge,userMessage,
    requestIntroduction,introduction,broadcastEvent,acceptPeer]

def toByte (t : MsgType) : UInt8 := UInt8.ofNat (all.idxOf t)

/-- The enumerator a byte names; the cast of any other byte matches no case label. -/
def ofByte (byte : UInt8) : Option MsgType := all[byte.toNat]?

theorem ofByte_toByte (t : MsgType) : ofByte t.toByte = some t := by
  cases t <;> rfl

end MsgType

section Wire

def writeName (n : Name) : Action Unit := do
  writeFuint64 n.v1
  writeFuint64 n.v2

def readName : Action Name := do
  let v1 ← readFuint64
  let v2 ← readFuint64
  return ⟨v1,v2⟩

def nameFormat : Format Name := (uint64.seq fun _ => uint64).via (fun n => (n.v1,n.v2))
  (fun a b same => by
    obtain ⟨v1,v2⟩ := a
    simp only [Prod.mk.injEq] at same
    obtain ⟨rfl,rfl⟩ := same
    rfl)

theorem nameFormat_length (n : Name) : (nameFormat.print n).length = 16 := by
  simp [nameFormat,Format.via,Format.seq,uint64,Format.uint]

theorem appends_writeName (n : Name) : Appends (writeName n) (nameFormat.print n) :=
  (appends_writeFint 8 n.v1.toNat).bind (appends_writeFint 8 n.v2.toNat)

theorem reads_readName {s : ByteArray} (synced : s.Synced) : Reads readName nameFormat s := by
  have both := (reads_readFuint64 synced).pair (y := fun _ => readFuint64) (G := fun _ => uint64)
    (fun v1 starts => reads_readFuint64 (starts_synced synced starts))
  refine (both.map (fun p => (⟨p.1,p.2⟩ : Name)) _ _ (fun _ _ => rfl)).congr ?_
  simp only [readName,bind_assoc,pure_bind]

end Wire

namespace Message

def type : Message → MsgType
  | .userMessage _ => .userMessage
  | .requestPortMerge _ => .requestPortMerge
  | .responsePortMerge _ => .responsePortMerge
  | .acceptInvitee _ => .acceptInvitee
  | .acceptInvitation _ => .acceptInvitation
  | .acceptPeer _ => .acceptPeer

/-- The writes of `Encode` into the fresh buffer it returns. -/
def encode : Message → Action Unit
  | .userMessage m => do
    writeName m.fromPortName
    writeName m.toPortName
    writeStringF32 m.data
    setPosition 0
  | .requestPortMerge m => do
    writeName m.connectorPortName
    writeStringF64 m.messagePipeName
    setPosition 0
  | .responsePortMerge m => do
    writeName m.connectorPortName
    writeName m.portName
    setPosition 0
  | .acceptInvitee m => do
    writeName m.token
    writeName m.inviterName
    setPosition 0
  | .acceptInvitation m => do
    writeName m.token
    writeName m.inviteeName
    setPosition 0
  | .acceptPeer m => do
    writeName m.token
    writeName m.peerName
    writeName m.portName
    setPosition 0

/-- `Decode` into an object of the class of the argument. -/
def decode : Message → Action Message
  | .userMessage m => do
    let fromPortName ← readName
    let toPortName ← readName
    let data ← readStringF32
    return .userMessage { m with fromPortName, toPortName, data }
  | .requestPortMerge m => do
    let connectorPortName ← readName
    let messagePipeName ← readStringF64
    return .requestPortMerge { m with connectorPortName, messagePipeName }
  | .responsePortMerge m => do
    let connectorPortName ← readName
    let portName ← readName
    return .responsePortMerge { m with connectorPortName, portName }
  | .acceptInvitee m => do
    let token ← readName
    let inviterName ← readName
    return .acceptInvitee { m with token, inviterName }
  | .acceptInvitation m => do
    let token ← readName
    let inviteeName ← readName
    return .acceptInvitation { m with token, inviteeName }
  | .acceptPeer m => do
    let token ← readName
    let peerName ← readName
    let portName ← readName
    return .acceptPeer { m with token, peerName, portName }

/-- `Create` of the class of the argument: an object with the default fields. -/
def create : Message → Message
  | .userMessage _ => .userMessage .create
  | .requestPortMerge _ => .requestPortMerge .create
  | .responsePortMerge _ => .responsePortMerge .create
  | .acceptInvitee _ => .acceptInvitee .create
  | .acceptInvitation _ => .acceptInvitation .create
  | .acceptPeer _ => .acceptPeer .create

section Classes

def userMessageCase : Case (PortName × PortName × List UInt8) Message where
  into | .userMessage m => some (m.fromPortName,m.toPortName,m.data) | _ => none
  out p := .userMessage ⟨p.1,p.2.1,p.2.2⟩
  exact := by rintro (_|_|_|_|_|_) _ ⟨⟩; rfl
  known _ := rfl

def requestPortMergeCase : Case (PortName × List UInt8) Message where
  into | .requestPortMerge m => some (m.connectorPortName,m.messagePipeName) | _ => none
  out p := .requestPortMerge ⟨p.1,p.2⟩
  exact := by rintro (_|_|_|_|_|_) _ ⟨⟩; rfl
  known _ := rfl

def responsePortMergeCase : Case (PortName × PortName) Message where
  into | .responsePortMerge m => some (m.connectorPortName,m.portName) | _ => none
  out p := .responsePortMerge ⟨p.1,p.2⟩
  exact := by rintro (_|_|_|_|_|_) _ ⟨⟩; rfl
  known _ := rfl

def acceptInviteeCase : Case (NodeName × NodeName) Message where
  into | .acceptInvitee m => some (m.token,m.inviterName) | _ => none
  out p := .acceptInvitee ⟨p.1,p.2⟩
  exact := by rintro (_|_|_|_|_|_) _ ⟨⟩; rfl
  known _ := rfl

def acceptInvitationCase : Case (NodeName × NodeName) Message where
  into | .acceptInvitation m => some (m.token,m.inviteeName) | _ => none
  out p := .acceptInvitation ⟨p.1,p.2⟩
  exact := by rintro (_|_|_|_|_|_) _ ⟨⟩; rfl
  known _ := rfl

def acceptPeerCase : Case (NodeName × NodeName × PortName) Message where
  into | .acceptPeer m => some (m.token,m.peerName,m.portName) | _ => none
  out p := .acceptPeer ⟨p.1,p.2.1,p.2.2⟩
  exact := by rintro (_|_|_|_|_|_) _ ⟨⟩; rfl
  known _ := rfl

end Classes

/-- The wire format of the message class a type announces. -/
def format : MsgType → Format Message
  | .userMessage =>
    (nameFormat.seq fun _ => nameFormat.seq fun _ => Format.counted 4).part userMessageCase
  | .requestPortMerge => (nameFormat.seq fun _ => Format.counted 8).part requestPortMergeCase
  | .responsePortMerge => (nameFormat.seq fun _ => nameFormat).part responsePortMergeCase
  | .acceptInvitee => (nameFormat.seq fun _ => nameFormat).part acceptInviteeCase
  | .acceptInvitation => (nameFormat.seq fun _ => nameFormat).part acceptInvitationCase
  | .acceptPeer =>
    (nameFormat.seq fun _ => nameFormat.seq fun _ => nameFormat).part acceptPeerCase
  | .headerType | .requestIntroduction | .introduction | .broadcastEvent => Format.empty

def wire (m : Message) : List UInt8 := (format m.type).print m

theorem appends_wire (m : Message) :
    ∃ body, m.encode = (body >>= fun _ => setPosition 0) ∧ Appends body m.wire := by
  cases m with
  | userMessage m =>
    refine ⟨writeName m.fromPortName >>= fun _ => writeName m.toPortName >>= fun _ =>
      writeStringF32 m.data,by simp only [encode,bind_assoc],?_⟩
    exact (appends_writeName _).bind ((appends_writeName _).bind (appends_writeStringF32 _))
  | requestPortMerge m =>
    refine ⟨writeName m.connectorPortName >>= fun _ => writeStringF64 m.messagePipeName,
      by simp only [encode,bind_assoc],?_⟩
    exact (appends_writeName _).bind (appends_writeStringF64 _)
  | responsePortMerge m =>
    refine ⟨writeName m.connectorPortName >>= fun _ => writeName m.portName,
      by simp only [encode,bind_assoc],?_⟩
    exact (appends_writeName _).bind (appends_writeName _)
  | acceptInvitee m =>
    refine ⟨writeName m.token >>= fun _ => writeName m.inviterName,
      by simp only [encode,bind_assoc],?_⟩
    exact (appends_writeName _).bind (appends_writeName _)
  | acceptInvitation m =>
    refine ⟨writeName m.token >>= fun _ => writeName m.inviteeName,
      by simp only [encode,bind_assoc],?_⟩
    exact (appends_writeName _).bind (appends_writeName _)
  | acceptPeer m =>
    refine ⟨writeName m.token >>= fun _ => writeName m.peerName >>= fun _ => writeName m.portName,
      by simp only [encode,bind_assoc],?_⟩
    exact (appends_writeName _).bind ((appends_writeName _).bind (appends_writeName _))

/-- `Encode` of any message leaves its wire form to be read from the start. -/
theorem encode_fresh (m : Message) (heap : Nat → Nat → UInt8) :
    ∃ t, m.encode.run (ByteArray.create heap kBaseSize) = .ok () t ∧ t.Synced ∧
      t.unread = m.wire ∧ t.position = 0 ∧ t.baseSize = kBaseSize := by
  obtain ⟨body,split,appends⟩ := m.appends_wire
  obtain ⟨t,ran,holds,base⟩ := appends _ _ (create_holds heap kBaseSize (by decide))
  obtain ⟨u,sought,synced,unread,position,base'⟩ := holds.seek (v := 0) (Nat.zero_le _)
  exact ⟨u,by rw [split,run_bind_ok _ ran,sought],synced,unread,position,base'.trans base⟩

theorem reads_twoNames {s : ByteArray} (synced : s.Synced) :
    Reads (readName >>= fun a => readName >>= fun b => pure (a,b))
      (nameFormat.seq fun _ => nameFormat) s :=
  (reads_readName synced).pair (fun _ starts => reads_readName (starts_synced synced starts))

/-- `Decode` reads exactly the wire format of its class. The bound keeps the fixed part
of the largest class away from the end of the last chunk. -/
theorem reads_decode (like : Message) {s : ByteArray} (synced : s.Synced)
    (inside : s.position+36 < s.capacity) : Reads like.decode (format like.type) s := by
  have after {s : ByteArray} (synced : s.Synced) {a : Name} (starts : nameFormat.Starts a s.unread) :
      (s.moved (nameFormat.print a).length).Synced := starts_synced synced starts
  cases like with
  | userMessage m =>
    have body := (reads_readName synced).pair (fun a starts =>
      (reads_readName (after synced starts)).pair (y := fun _ => readStringF32) (fun b starts' =>
        reads_readStringF32 (after (after synced starts) starts')
          (by simp only [moved_position,moved_capacity,nameFormat_length]; omega)))
    refine (body.part userMessageCase).congr ?_
    simp only [decode,userMessageCase,bind_assoc,pure_bind]
  | requestPortMerge m =>
    have body := (reads_readName synced).pair (y := fun _ => readStringF64) (fun a starts =>
      reads_readStringF64 (after synced starts)
        (by simp only [moved_position,moved_capacity,nameFormat_length]; omega))
    refine (body.part requestPortMergeCase).congr ?_
    simp only [decode,requestPortMergeCase,bind_assoc,pure_bind]
  | responsePortMerge m =>
    refine ((reads_twoNames synced).part responsePortMergeCase).congr ?_
    simp only [decode,responsePortMergeCase,bind_assoc,pure_bind]
  | acceptInvitee m =>
    refine ((reads_twoNames synced).part acceptInviteeCase).congr ?_
    simp only [decode,acceptInviteeCase,bind_assoc,pure_bind]
  | acceptInvitation m =>
    refine ((reads_twoNames synced).part acceptInvitationCase).congr ?_
    simp only [decode,acceptInvitationCase,bind_assoc,pure_bind]
  | acceptPeer m =>
    have body := (reads_readName synced).pair
      (fun a starts => reads_twoNames (after synced starts))
    refine (body.part acceptPeerCase).congr ?_
    simp only [decode,acceptPeerCase,bind_assoc,pure_bind]

/-- The strings a message can hold: a user message counts its data in 32 bits, and no
`std::string` reaches 2^63 bytes. -/
def Sized : Message → Prop
  | .userMessage m => m.data.length < 2^32
  | .requestPortMerge m => m.messagePipeName.length < 2^63
  | _ => True

theorem Sized.valid {m : Message} (sized : m.Sized) : (format m.type).Valid m := by
  have name (n : Name) : nameFormat.Valid n := ⟨n.v1.toNat_lt,n.v2.toNat_lt⟩
  cases m with
  | userMessage m =>
    exact ⟨_,rfl,name _,name _,(Format.counted_valid _ _).mpr sized⟩
  | requestPortMerge m =>
    have fits : m.messagePipeName.length < 256^8 := Nat.lt_trans sized (by decide)
    exact ⟨_,rfl,name _,(Format.counted_valid _ _).mpr fits⟩
  | responsePortMerge m | acceptInvitee m | acceptInvitation m => exact ⟨_,rfl,name _,name _⟩
  | acceptPeer m => exact ⟨_,rfl,name _,name _,name _⟩

/-- `Decode` on the buffer that `Encode` returns fills any object of the same class with the
fields of the message and takes all of the data. -/
theorem decode_encode (heap : Nat → Nat → UInt8) (m like : Message) (sameClass : like.type = m.type)
    (sized : m.Sized) :
    ∃ s t, m.encode.run (ByteArray.create heap kBaseSize) = .ok () s ∧ like.decode.run s = .ok m t ∧
      t.position = t.size ∧ t.unread = [] := by
  obtain ⟨s,ran,synced,unread,position,base⟩ := m.encode_fresh heap
  have some_chunk : 0 < s.chunks.length := List.length_pos_of_ne_nil synced.root
  have inside : s.position+36 < s.capacity := by
    rw [synced.capacity,base,position]
    have least := Nat.mul_le_mul_left kBaseSize some_chunk
    exact Nat.lt_of_lt_of_le (by decide) least
  have starts : (format like.type).Starts m s.unread := by
    rw [sameClass,unread]
    exact ⟨sized.valid,List.prefix_rfl⟩
  have data := unread_length synced
  rcases reads_decode like synced inside with ⟨decoded,found,decodes⟩ | ⟨absent,_⟩
  · cases found.unique starts
    have printed : ((format like.type).print m).length = s.unread.length := by
      rw [sameClass,unread]
      rfl
    rw [printed] at decodes
    refine ⟨s,_,ran,decodes,?_,?_⟩
    · rw [moved_position,moved_size,data,position]
      omega
    · rw [unread_moved,List.drop_length]
  · exact absurd starts (absent m)

/-- An object that holds another message, and a string of none at all. -/
theorem decode_encode_emptyName :
    ∃ s t, (Message.requestPortMerge ⟨⟨1,2⟩,[]⟩).encode.run (ByteArray.create (fun _ _ => 0) kBaseSize) = .ok () s ∧
      (Message.requestPortMerge ⟨⟨3,4⟩,[5]⟩).decode.run s = .ok (.requestPortMerge ⟨⟨1,2⟩,[]⟩) t ∧
      t.position = t.size ∧ t.unread = [] :=
  decode_encode _ _ _ rfl (show 0 < 2^63 by decide)

end Message

end MojoImpl
