import MojoImpl.Channel.Serialize
import Mathlib.Tactic.IntervalCases

/-! When a serialized message is decoded to itself. The decoders are given the
string behind all but the first byte of its length, so they are right exactly when the
length has one byte. For a longer string a right answer would make the string periodic with
the period of the bytes left over, which its own length field contradicts. -/
namespace MojoImpl
open Foundation MojoImpl.ByteArray

section Periods

/-- A word that begins the word with `t` in front of it repeats `t`. -/
theorem prefix_period {w t : List UInt8} (starts : w <+: t ++ w) (some_byte : 0 < t.length)
    (i : Nat) (inside : i < w.length) : w[i]? = t[i % t.length]? := by
  induction i using Nat.strongRecOn with
  | ind i ih =>
    have here : w[i]? = (t++w)[i]? := by
      obtain ⟨rest,same⟩ := starts
      rw [← same,List.getElem?_append_left inside]
    by_cases first : i < t.length
    · rw [here,List.getElem?_append_left first,Nat.mod_eq_of_lt first]
    · have shift : i % t.length = (i-t.length) % t.length := Nat.mod_eq_sub_mod (by omega)
      rw [here,List.getElem?_append_right (by omega),ih _ (by omega) (by omega),shift]

/-- Eight continued groups against the same eight bytes as one number: read as base 128
they stand for less by more than the lowest group of the length can make up. -/
theorem groups_le {t : List UInt8} {k : Nat} (width : t.length+k = 8) (nonempty : t ≠ [])
    (continued : ∀ j, j+1 < t.length → ∃ byte, t[j]? = some byte ∧ 128 ≤ byte.toNat)
    (last : ∃ byte, t[t.length-1]? = some byte ∧ byte.toNat < 128) :
    128 * (groups t + 1) ≤ 2^k * (ofLittleEndian t + 1) := by
  induction t generalizing k with
  | nil => contradiction
  | cons byte rest ih =>
    have bound := byte.toNat_lt
    rw [List.length_cons] at width
    cases rest with
    | nil =>
      obtain ⟨top,found,small⟩ := last
      cases Option.some.inj found
      have room : k = 7 := by simp only [List.length_nil] at width; omega
      subst room
      simp only [groups,ofLittleEndian]
      omega
    | cons next rest =>
      obtain ⟨lead,found,marked⟩ := continued 0 (by simp)
      cases Option.some.inj found
      have below := ih (k := k+1) (by omega) (by simp)
        (fun j within => by simpa using continued (j+1) (by simpa using within))
        (by simpa using last)
      have half : 2^k ≤ 128 := Nat.pow_le_pow_right (by decide) (show k ≤ 7 by omega)
      have group : byte.toNat%128 = byte.toNat-128 := by omega
      have slack : 2^k * (255-byte.toNat) ≤ 128 * (255-byte.toNat) := Nat.mul_le_mul_right _ half
      have whole : 2^k * (byte.toNat + 256 * ofLittleEndian (next::rest) + 1) + 2^k * (255-byte.toNat) =
          128 * (2^(k+1) * (ofLittleEndian (next::rest) + 1)) := by
        have sum : byte.toNat + 256 * ofLittleEndian (next::rest) + 1 + (255-byte.toNat) =
            256 * (ofLittleEndian (next::rest) + 1) := by omega
        rw [← Nat.mul_add,sum,Nat.pow_succ]
        ring
      rw [groups,ofLittleEndian,group]
      omega

/-- The bytes left of a length of more than one byte: `s` groups, the last of them the top. -/
theorem tail_shape {value : Nat} (large : 128 ≤ value) (fits : value < 128^10) :
    ∃ s, (varint 9 value).tail.length = s ∧ 0 < s ∧ s ≤ 9 ∧ 128^s ≤ value ∧ value < 128^(s+1) ∧
      (∀ j, j+1 < s → ∃ byte, (varint 9 value).tail[j]? = some byte ∧ 128 ≤ byte.toNat) ∧
      ∃ byte, (varint 9 value).tail[s-1]? = some byte ∧ byte.toNat = value/128^s := by
  obtain ⟨s,length,bound,above,below,continued,byte,last,top⟩ := varint_shape fits
  have some_byte : 0 < s := by
    by_contra zero
    have none : s = 0 := by omega
    subst none
    omega
  refine ⟨s,by rw [List.length_tail,length]; rfl,some_byte,bound,below some_byte,above,?_,byte,?_,top⟩
  · intro j within
    rw [List.getElem?_tail]
    exact continued (j+1) within
  · rw [List.getElem?_tail,Nat.sub_add_cancel some_byte]
    exact last

theorem rewrapped_eq {w : List UInt8} (fits : w.length < 2^64) :
    rewrapped w = (varint 9 w.length).tail ++ w := by
  rw [rewrapped,UInt64.toNat_ofNat',Nat.mod_eq_of_lt fits]

theorem length_le_tail {value : Nat} (fits : value < 128^10)
    (eight : (varint 9 value).tail.length = 8) :
    value ≤ ofLittleEndian (varint 9 value).tail := by
  have large : 128 ≤ value := by
    by_contra small
    rw [varint_small (by omega)] at eight
    contradiction
  obtain ⟨s,length,some_byte,bound,below,above,continued,top,last,high⟩ := tail_shape large fits
  have width : s = 8 := by omega
  subst width
  have bytes := groups_le (k := 0) (by omega) (List.ne_nil_of_length_pos (by omega))
    (fun j within => continued j (by omega)) ⟨top,by rw [eight]; exact last,by rw [high]; omega⟩
  obtain ⟨lead,digits,split⟩ := List.exists_cons_of_ne_nil (varint_ne_nil 9 value)
  have whole := groups_varint fits
  rw [split] at whole bytes ⊢
  simp only [groups,List.tail_cons] at whole bytes ⊢
  omega

/-- What a right answer says of one byte of a long string: at a multiple of the period
it is the top group of the length, anywhere else a continued one. -/
theorem byte_of_prefix {w : List UInt8} {place : Nat} {byte : UInt8} (long : 128 ≤ w.length)
    (fits : w.length < 2^64) (starts : w <+: rewrapped w) (found : w[place]? = some byte) :
    ∃ s, (varint 9 w.length).tail.length = s ∧ 0 < s ∧ s ≤ 9 ∧ 128^s ≤ w.length ∧
      w.length < 128^(s+1) ∧ ((place+1)%s = 0 → byte.toNat = w.length/128^s) ∧
      ((place+1)%s ≠ 0 → 128 ≤ byte.toNat) := by
  obtain ⟨s,length,some_byte,bound,below,above,continued,top,last,value⟩ :=
    tail_shape long (by omega)
  obtain ⟨inside,_⟩ := List.getElem?_eq_some_iff.mp found
  rw [rewrapped_eq fits] at starts
  have period := prefix_period starts (by omega) place inside
  rw [found,length] at period
  have within := Nat.mod_lt place some_byte
  have step : (place+1)%s = (place%s+1)%s := (Nat.mod_add_mod place s 1).symm
  by_cases here : place%s+1 = s
  · have multiple : (place+1)%s = 0 := by rw [step,here,Nat.mod_self]
    rw [show place%s = s-1 by omega,last] at period
    exact ⟨s,length,some_byte,bound,below,above,fun _ => Option.some.inj period ▸ value,
      fun between => (between multiple).elim⟩
  · have between : (place+1)%s ≠ 0 := by
      rw [step,Nat.mod_eq_of_lt (by omega)]
      exact Nat.succ_ne_zero _
    obtain ⟨marked,found',high⟩ := continued (place%s) (by omega)
    rw [found'] at period
    exact ⟨s,length,some_byte,bound,below,above,fun multiple => (between multiple).elim,
      fun _ => Option.some.inj period ▸ high⟩

end Periods

namespace Message

/-- The messages whose serialized form has fewer than 128 bytes. -/
def Short : Message → Prop
  | .userMessage m => m.data.length < 92
  | .requestPortMerge m => m.messagePipeName.length < 104
  | _ => True

theorem userMessage_wire (m : UserMessage) : (Message.userMessage m).wire =
    nameFormat.print m.fromPortName ++ (nameFormat.print m.toPortName ++
      (littleEndian 4 m.data.length ++ m.data)) := rfl

theorem requestPortMerge_wire (m : RequestPortMergeProtocol) : (Message.requestPortMerge m).wire =
    nameFormat.print m.connectorPortName ++
      (littleEndian 8 m.messagePipeName.length ++ m.messagePipeName) := rfl

theorem userMessage_wire_length (m : UserMessage) :
    (Message.userMessage m).wire.length = 36+m.data.length := by
  simp only [userMessage_wire,List.length_append,nameFormat_length,littleEndian_length]
  omega

theorem requestPortMerge_wire_length (m : RequestPortMergeProtocol) :
    (Message.requestPortMerge m).wire.length = 24+m.messagePipeName.length := by
  simp only [requestPortMerge_wire,List.length_append,nameFormat_length,littleEndian_length]
  omega

theorem short_iff (m : Message) : m.Short ↔ m.wire.length < 128 := by
  cases m with
  | userMessage m => rw [userMessage_wire_length,Short]; omega
  | requestPortMerge m => rw [requestPortMerge_wire_length,Short]; omega
  | _ => simp [Short,wire,type,format,Format.part,Format.seq,responsePortMergeCase,acceptInviteeCase,
      acceptInvitationCase,acceptPeerCase,nameFormat_length]

theorem userMessage_top (m : UserMessage) :
    (Message.userMessage m).wire[35]? = some (UInt8.ofNat (m.data.length/256^3)) := by
  rw [userMessage_wire,List.getElem?_append_right (by simp [nameFormat_length]),
    List.getElem?_append_right (by simp [nameFormat_length]),
    List.getElem?_append_left (by simp [nameFormat_length])]
  simp only [nameFormat_length]
  exact littleEndian_digit 4 _ 3 (by decide)

theorem requestPortMerge_digit (m : RequestPortMergeProtocol) (j : Nat) (inside : j < 8) :
    (Message.requestPortMerge m).wire[16+j]? = (littleEndian 8 m.messagePipeName.length)[j]? := by
  rw [requestPortMerge_wire,List.getElem?_append_right (by simp [nameFormat_length]),
    List.getElem?_append_left (by simp [nameFormat_length]; omega)]
  simp only [nameFormat_length,Nat.add_sub_cancel_left]

theorem userMessage_not_prefix (m : UserMessage) (sized : m.data.length < 2^32)
    (long : 92 ≤ m.data.length) :
    ¬ (Message.userMessage m).wire <+: rewrapped (Message.userMessage m).wire := by
  intro starts
  have length := userMessage_wire_length m
  obtain ⟨s,_,some_byte,bound,below,above,top,_⟩ :=
    byte_of_prefix (by omega) (by omega) starts (userMessage_top m)
  have few : s ≤ 4 := by
    by_contra many
    have grows : 128^5 ≤ 128^s := Nat.pow_le_pow_right (by decide) (by omega)
    omega
  have small : m.data.length/256^3 < 256 := Nat.div_lt_of_lt_mul (by omega)
  rw [length,UInt8.toNat_ofNat',Nat.mod_eq_of_lt small] at top
  rw [length] at below above
  -- 36 is a multiple of every period there can be
  interval_cases s <;> simp at top <;> omega

theorem requestPortMerge_not_prefix (m : RequestPortMergeProtocol)
    (sized : m.messagePipeName.length < 2^63) (long : 104 ≤ m.messagePipeName.length) :
    ¬ (Message.requestPortMerge m).wire <+: rewrapped (Message.requestPortMerge m).wire := by
  intro starts
  have length := requestPortMerge_wire_length m
  have digit : (Message.requestPortMerge m).wire[23]? =
      some (UInt8.ofNat (m.messagePipeName.length/256^7)) := by
    rw [requestPortMerge_digit m 7 (by decide),littleEndian_digit 8 _ 7 (by decide)]
  obtain ⟨s,width,some_byte,bound,below,above,top,between⟩ :=
    byte_of_prefix (by omega) (by omega) starts digit
  have small : (UInt8.ofNat (m.messagePipeName.length/256^7)).toNat < 128 := by
    rw [UInt8.toNat_ofNat']
    omega
  by_cases eight : s = 8
  · -- the eight bytes left are then the length field itself
    rw [eight] at width
    have field : (varint 9 (Message.requestPortMerge m).wire.length).tail =
        littleEndian 8 m.messagePipeName.length := by
      apply List.ext_getElem?
      intro j
      by_cases inside : j < 8
      · rw [rewrapped_eq (by omega)] at starts
        have period := prefix_period starts (by omega) (16+j) (by omega)
        rw [requestPortMerge_digit m j inside,width] at period
        rw [period]
        congr 1
        omega
      · rw [List.getElem?_eq_none (by omega),
          List.getElem?_eq_none (by rw [littleEndian_length]; omega)]
    have less := length_le_tail (by omega) width
    rw [field,ofLittleEndian_littleEndian,Nat.mod_eq_of_lt (by omega),length] at less
    omega
  · rw [length] at top below above
    interval_cases s <;> simp at top between <;> omega

theorem starts_rewrapped {m : Message} (sized : m.Sized) :
    (format m.type).Starts m (rewrapped m.wire) ↔ m.Short := by
  constructor
  · intro starts
    cases m with
    | userMessage m =>
      by_contra long
      exact userMessage_not_prefix m sized (Nat.not_lt.mp long) starts.2
    | requestPortMerge m =>
      by_contra long
      exact requestPortMerge_not_prefix m sized (Nat.not_lt.mp long) starts.2
    | _ => trivial
  · intro short
    rw [rewrapped_short ((short_iff m).mp short)]
    exact ⟨sized.valid,List.prefix_rfl⟩

theorem create_type (m : Message) : m.create.type = m.type := by
  cases m <;> rfl

end Message

namespace Channel

/-- `DeserializeMessage` of what `SerializeMessage` returns fills a fresh object of the
class of `m` with the fields of `m`. -/
def RoundTrips (heap heap' : Nat → Nat → UInt8) (m : Message) : Prop :=
  ∃ rawData, serializeMessage heap m = .ok rawData ∧
    deserializeMessage heap' m.create rawData = .ok m

/-- A message survives its own serialization exactly when the serialized form has fewer
than 128 bytes. -/
theorem roundTrips_iff_short (heap heap' : Nat → Nat → UInt8) (m : Message) (sized : m.Sized) :
    RoundTrips heap heap' m ↔ m.Short := by
  rw [← Message.starts_rewrapped sized]
  simp only [RoundTrips,serializeMessage_wire,Except.ok.injEq,exists_eq_left',deserializeMessage_ok,
    Message.create_type]

theorem roundTrips_iff_short_merge :
    RoundTrips (fun _ _ => 0) (fun _ _ => 1) (.requestPortMerge ⟨⟨1,2⟩,List.replicate 103 65⟩) ↔
      (Message.requestPortMerge ⟨⟨1,2⟩,List.replicate 103 65⟩).Short :=
  roundTrips_iff_short _ _ _ (by change _ < _; decide +kernel)

theorem shifted_userMessage : deserializeMessage (fun _ _ => 0)
    (.userMessage .create)
    (Message.userMessage ⟨⟨1,2⟩,⟨3,4⟩,List.replicate 92 7⟩).wire = .error .outOfRange := by
  decide +kernel

/-- With 92 bytes of data the length is read one byte off, as 92 * 256. -/
theorem not_roundTrips_userMessage :
    ¬ RoundTrips (fun _ _ => 0) (fun _ _ => 0) (.userMessage ⟨⟨1,2⟩,⟨3,4⟩,List.replicate 92 7⟩) := by
  rintro ⟨rawData,serialized,decoded⟩
  rw [serializeMessage_wire] at serialized
  cases serialized
  rw [Message.create,shifted_userMessage] at decoded
  contradiction

end Channel

end MojoImpl
