import MojoImpl.Protocol
import MojoImpl.ByteArray.Varint

/-! The static members of `Channel` that turn protocols and messages into strings and
back, and the `Serializer` they go through. -/
namespace MojoImpl
open Foundation MojoImpl.ByteArray

/-- What an action does on the buffer `std::make_shared<ByteArray>()` returns. -/
def onFresh {α : Type} (heap : Nat → Nat → UInt8) (x : Action α) : Except Fault α :=
  match x.run (ByteArray.create heap kBaseSize) with
  | .ok a _ => .ok a
  | .error fault _ => .error fault

namespace Serializer

def write (value : List UInt8) : Action Unit := writeStringVint value

def reset : Action Unit := setPosition 0

def offset (off : Nat) : Action Unit := fun s => setPosition (s.position + off) s

end Serializer

namespace Channel
variable (heap : Nat → Nat → UInt8)

def serializeProtocol (protocol : Protocol) : Except Fault (List UInt8) :=
  onFresh heap (do protocol.encode; ByteArray.toString)

def serializeMessage (message : Message) : Except Fault (List UInt8) :=
  onFresh heap (do message.encode; ByteArray.toString)

def serialize (protocol : Protocol) : Except Fault (List UInt8) := serializeProtocol heap protocol

/-- `decode` after the string is put in as a counted one and one byte is skipped. -/
def deserialize {α : Type} (decode : Action α) (rawData : List UInt8) : Except Fault α :=
  onFresh heap (do
    Serializer.write rawData
    Serializer.reset
    Serializer.offset 1
    decode)

def deserializeProtocol (rawData : List UInt8) : Except Fault Protocol :=
  deserialize heap Protocol.create.decode rawData

def deserializeMessage (message : Message) (rawData : List UInt8) : Except Fault Message :=
  deserialize heap message.decode rawData

end Channel

section Specifications
variable (heap : Nat → Nat → UInt8)

theorem onFresh_encoded {encode body : Action Unit} {bytes : List UInt8}
    (split : encode = (body >>= fun _ => setPosition 0)) (appends : Appends body bytes) :
    onFresh heap (do encode; ByteArray.toString) = .ok bytes := by
  obtain ⟨s,ran,holds,_⟩ := appends _ _ (create_holds heap kBaseSize (by decide))
  obtain ⟨t,sought,synced,unread,_,_⟩ := holds.seek (v := 0) (Nat.zero_le _)
  have encoded : encode.run (ByteArray.create heap kBaseSize) = .ok () t := by
    rw [split,run_bind_ok _ ran,sought]
  rw [onFresh,run_bind_ok _ encoded,toString_unread synced,unread]
  rfl

theorem serializeMessage_wire (message : Message) :
    Channel.serializeMessage heap message = .ok message.wire := by
  obtain ⟨_,split,appends⟩ := message.appends_wire
  rw [Channel.serializeMessage]
  exact onFresh_encoded heap split appends

theorem serialize_wire (protocol : Protocol) :
    Channel.serialize heap protocol = .ok protocol.wire := by
  obtain ⟨_,split,appends⟩ := protocol.appends_frame
  rw [Channel.serialize,Channel.serializeProtocol]
  exact onFresh_encoded heap split appends

/-- What the decoders are given: the string behind all but the first byte of its length. -/
def rewrapped (rawData : List UInt8) : List UInt8 :=
  (varint 9 (UInt64.ofNat rawData.length).toNat).tail ++ rawData

theorem rewrapped_short {rawData : List UInt8} (short : rawData.length < 128) :
    rewrapped rawData = rawData := by
  have same : (UInt64.ofNat rawData.length).toNat = rawData.length := by
    rw [UInt64.toNat_ofNat']
    exact Nat.mod_eq_of_lt (by omega)
  rw [rewrapped,same,varint_small short]
  rfl

theorem rewrapped_ready (rawData : List UInt8) :
    ∃ s, (Serializer.write rawData >>= fun _ => Serializer.reset >>= fun _ =>
        Serializer.offset 1).run (ByteArray.create heap kBaseSize) = .ok () s ∧
      s.Synced ∧ s.unread = rewrapped rawData ∧ s.position = 1 ∧ kBaseSize ≤ s.capacity := by
  obtain ⟨lead,digits,split⟩ := List.exists_cons_of_ne_nil
    (varint_ne_nil 9 (UInt64.ofNat rawData.length).toNat)
  obtain ⟨s,ran,holds,base⟩ :=
    appends_writeStringVint rawData _ _ (create_holds heap kBaseSize (by decide))
  rw [List.nil_append] at holds
  have size := holds.size
  rw [split,List.cons_append,List.length_cons] at size
  obtain ⟨t,rewound,synced,data,size',position,base'⟩ := holds.synced.seek (Nat.zero_le _)
  obtain ⟨u,skipped,synced',data',_,position',base''⟩ := synced.seek (v := 0+1) (by omega)
  refine ⟨u,?_,synced',?_,position',?_⟩
  · have once : (Serializer.offset 1).run t = .ok () u := by
      rw [← position] at skipped
      exact skipped
    rw [run_bind_ok _ (show (Serializer.write rawData).run _ = _ from ran),
      run_bind_ok _ (show Serializer.reset.run _ = _ from rewound),once]
  · rw [unread_taken,data',data,holds.data,position',rewrapped,split]
    rfl
  · have nodes := List.length_pos_of_ne_nil synced'.root
    rw [synced'.capacity,base'',base',base]
    exact Nat.le_mul_of_pos_right _ nodes

theorem deserialize_reads {α : Type} {decode : Action α} {F : Format α}
    (reads : ∀ s : ByteArray, s.Synced → s.position = 1 → kBaseSize ≤ s.capacity → Reads decode F s)
    (rawData : List UInt8) :
    (∃ a, F.Starts a (rewrapped rawData) ∧ Channel.deserialize heap decode rawData = .ok a) ∨
      ((∀ a, ¬ F.Starts a (rewrapped rawData)) ∧
        Channel.deserialize heap decode rawData = .error .outOfRange) := by
  obtain ⟨s,ready,synced,unread,position,capacity⟩ := rewrapped_ready heap rawData
  have split : Channel.deserialize heap decode rawData = onFresh heap
      ((Serializer.write rawData >>= fun _ => Serializer.reset >>= fun _ => Serializer.offset 1) >>=
        fun _ => decode) := by
    simp only [Channel.deserialize,bind_assoc]
  rw [split,onFresh,run_bind_ok _ ready,← unread]
  rcases reads s synced position capacity with ⟨a,starts,ran⟩ | ⟨absent,t,ran⟩
  · exact .inl ⟨a,starts,by rw [ran]⟩
  · exact .inr ⟨absent,by rw [ran]⟩

theorem deserializeMessage_reads (like : Message) (rawData : List UInt8) :
    (∃ m, (Message.format like.type).Starts m (rewrapped rawData) ∧
        Channel.deserializeMessage heap like rawData = .ok m) ∨
      ((∀ m, ¬ (Message.format like.type).Starts m (rewrapped rawData)) ∧
        Channel.deserializeMessage heap like rawData = .error .outOfRange) :=
  deserialize_reads heap (fun s synced position capacity =>
    Message.reads_decode like synced (by
      change 4096 ≤ _ at capacity
      omega)) rawData

theorem deserializeMessage_ok (like m : Message) (rawData : List UInt8) :
    Channel.deserializeMessage heap like rawData = .ok m ↔
      (Message.format like.type).Starts m (rewrapped rawData) := by
  rcases deserializeMessage_reads heap like rawData with ⟨m',starts,ran⟩ | ⟨absent,ran⟩
  · rw [ran,Except.ok.injEq]
    exact ⟨fun same => same ▸ starts,starts.unique⟩
  · rw [ran]
    exact ⟨fun same => (by cases same),fun starts => (absent m starts).elim⟩

end Specifications

end MojoImpl
