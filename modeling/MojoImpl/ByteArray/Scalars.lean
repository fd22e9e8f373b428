import MojoImpl.ByteArray.Varint
import MojoImpl.Foundation.Zigzag

/-! The typed writers and readers of the remaining scalars. A `float` or a `double` is its
bit pattern, and signed arithmetic wraps around. -/
namespace MojoImpl.ByteArray
open Foundation

section Writers

def writeFint8 (value : Int8) : Action Unit := writeFint 1 value.toUInt8.toNat

def writeFint16 (value : Int16) : Action Unit := writeFint 2 value.toUInt16.toNat

def writeFuint16 (value : UInt16) : Action Unit := writeFint 2 value.toNat

def encodeZigzag32 (v : Int32) : UInt32 := UInt32.ofBitVec (encodeZigzag v.toBitVec)

def encodeZigzag64 (v : Int64) : UInt64 := UInt64.ofBitVec (encodeZigzag v.toBitVec)

def writeUint32 (value : UInt32) : Action Unit := write (varint 4 value.toNat)

def writeInt32 (value : Int32) : Action Unit := writeUint32 (encodeZigzag32 value)

def writeInt64 (value : Int64) : Action Unit := writeUint64 (encodeZigzag64 value)

def writeFloat (value : UInt32) : Action Unit := writeFuint32 value

def writeDouble (value : UInt64) : Action Unit := writeFuint64 value

def writeStringF16 (value : List UInt8) : Action Unit := do
  writeFuint16 (UInt16.ofNat value.length)
  write value

end Writers

section Readers

def readFint8 : Action Int8 := do
  let v ← readFint 1
  return (UInt8.ofNat v).toInt8

def readFint16 : Action Int16 := do
  let v ← readFint 2
  return (UInt16.ofNat v).toInt16

def readFuint16 : Action UInt16 := do
  let v ← readFint 2
  return UInt16.ofNat v

def readFint32 : Action Int32 := do
  let v ← readFint 4
  return (UInt32.ofNat v).toInt32

def readFint64 : Action Int64 := do
  let v ← readFint 8
  return (UInt64.ofNat v).toInt64

/-- The loop of `readUint32` and `readUint64`, `iterations` before its end. -/
def readGroups (bits : Nat) : Nat → Nat → BitVec bits → Action (BitVec bits)
  | 0, _, result => return result
  | iterations+1, i, result => do
    let b ← readFuint8
    if b.toNat < 0x80 then return result ||| BitVec.ofNat bits b.toNat <<< i
    else readGroups bits iterations (i+7) (result ||| BitVec.ofNat bits (b.toNat &&& 0x7f) <<< i)

def readUint32 : Action UInt32 := do
  let result ← readGroups 32 5 0 0
  return UInt32.ofBitVec result

def readUint64 : Action UInt64 := do
  let result ← readGroups 64 10 0 0
  return UInt64.ofBitVec result

def decodeZigzag32 (v : UInt32) : Int32 := Int32.ofBitVec (decodeZigzag v.toBitVec)

def decodeZigzag64 (v : UInt64) : Int64 := Int64.ofBitVec (decodeZigzag v.toBitVec)

def readInt32 : Action Int32 := do
  let v ← readUint32
  return decodeZigzag32 v

def readInt64 : Action Int64 := do
  let v ← readUint64
  return decodeZigzag64 v

def readFloat : Action UInt32 := readFuint32

def readDouble : Action UInt64 := readFuint64

def readStringF16 : Action (List UInt8) := do
  let len ← readFuint16
  read len.toNat

def readStringVint : Action (List UInt8) := do
  let len ← readUint64
  read len.toNat

end Readers

section Taking
variable {α β : Type}

/-- Where the unread bytes start with `bytes`, `x` returns `a` and passes over them. -/
def Takes (x : Action α) (bytes : List UInt8) (a : α) : Prop :=
  ∀ s : ByteArray, s.Synced → bytes <+: s.unread → x.run s = .ok a (s.moved bytes.length)

theorem Synced.moved_zero {s : ByteArray} (synced : s.Synced) : s.moved 0 = s := by
  rw [ByteArray.moved,Nat.add_zero,← synced.cur]

theorem takes_pure (a : α) : Takes (pure a) [] a := by
  intro s synced _
  change EStateM.Result.ok a s = .ok a (s.moved 0)
  rw [synced.moved_zero]

theorem Takes.bind {x : Action α} {y : α → Action β} {first second : List UInt8} {a : α} {b : β}
    (head : Takes x first a) (tail : Takes (y a) second b) : Takes (x >>= y) (first++second) b := by
  intro s synced starts
  have start : first <+: s.unread := (List.prefix_append _ _).trans starts
  have rest : second <+: (s.moved first.length).unread := by
    obtain ⟨more,split⟩ := starts
    rw [unread_moved,← split,List.append_assoc,List.drop_left]
    exact List.prefix_append _ _
  rw [run_bind_ok _ (head s synced start),tail _ (synced.moved start.length_le) rest,moved_moved,
    List.length_append]

theorem Takes.map {x : Action α} {bytes : List UInt8} {a : α} (takes : Takes x bytes a) (f : α → β) :
    Takes (x >>= fun a => pure (f a)) bytes (f a) := by
  have both := takes.bind (y := fun a => pure (f a)) (takes_pure (f a))
  rwa [List.append_nil] at both

theorem takes_read {bytes : List UInt8} (some_byte : bytes ≠ []) : Takes (read bytes.length) bytes bytes := by
  intro s synced starts
  have taken : s.unread.take bytes.length = bytes := (List.prefix_iff_eq_take.mp starts).symm
  rw [read_ok synced (List.length_pos_of_ne_nil some_byte) starts.length_le,taken]

theorem takes_readFint {w n : Nat} (some_byte : 0 < w) (small : n < 256^w) :
    Takes (readFint w) (littleEndian w n) n := by
  have sized : (littleEndian w n).length = w := littleEndian_length w n
  have long : littleEndian w n ≠ [] := by
    apply List.ne_nil_of_length_pos
    omega
  have whole := (takes_read long).map ofLittleEndian
  rwa [sized,ofLittleEndian_littleEndian,Nat.mod_eq_of_lt small] at whole

theorem takes_readFint8 (value : Int8) : Takes readFint8 (littleEndian 1 value.toUInt8.toNat) value := by
  have whole := (takes_readFint (w := 1) (by decide) value.toUInt8.toNat_lt).map (fun v => (UInt8.ofNat v).toInt8)
  rwa [UInt8.ofNat_toNat,Int8.toInt8_toUInt8] at whole

theorem takes_readFuint8 (value : UInt8) : Takes readFuint8 [value] value := by
  have whole := (takes_readFint (w := 1) (by decide) value.toNat_lt).map UInt8.ofNat
  rwa [UInt8.ofNat_toNat,littleEndian,UInt8.ofNat_toNat] at whole

theorem takes_readFint16 (value : Int16) : Takes readFint16 (littleEndian 2 value.toUInt16.toNat) value := by
  have whole := (takes_readFint (w := 2) (by decide) value.toUInt16.toNat_lt).map (fun v => (UInt16.ofNat v).toInt16)
  rwa [UInt16.ofNat_toNat,Int16.toInt16_toUInt16] at whole

theorem takes_readFuint16 (value : UInt16) : Takes readFuint16 (littleEndian 2 value.toNat) value := by
  have whole := (takes_readFint (w := 2) (by decide) value.toNat_lt).map UInt16.ofNat
  rwa [UInt16.ofNat_toNat] at whole

theorem takes_readFuint32 (value : UInt32) : Takes readFuint32 (littleEndian 4 value.toNat) value := by
  have whole := (takes_readFint (w := 4) (by decide) value.toNat_lt).map UInt32.ofNat
  rwa [UInt32.ofNat_toNat] at whole

theorem takes_readFuint64 (value : UInt64) : Takes readFuint64 (littleEndian 8 value.toNat) value := by
  have whole := (takes_readFint (w := 8) (by decide) value.toNat_lt).map UInt64.ofNat
  rwa [UInt64.ofNat_toNat] at whole

theorem group_joined {bits i : Nat} (group : Nat) {result : BitVec bits} (low : result.toNat < 2^i)
    (fits : group * 2^i + result.toNat < 2^bits) :
    (result ||| BitVec.ofNat bits group <<< i).toNat = group * 2^i + result.toNat := by
  have positive : 0 < 2^i := Nat.two_pow_pos i
  have top : group * 2^i < 2^bits := by omega
  have small : group < 2^bits := Nat.lt_of_le_of_lt (Nat.le_mul_of_pos_right group positive) top
  have joined := Nat.two_pow_add_eq_or_of_lt low group
  rw [BitVec.toNat_or,BitVec.toNat_shiftLeft,BitVec.toNat_ofNat,Nat.mod_eq_of_lt small,
    Nat.shiftLeft_eq,Nat.mod_eq_of_lt top,Nat.or_comm,Nat.mul_comm,← joined]

theorem takes_lastGroup {bits room i value : Nat} {result : BitVec bits} (iterations : Nat)
    (small : value < 128) (low : result.toNat < 2^i) (fits : value * 2^i + result.toNat < 2^bits) :
    Takes (readGroups bits (iterations+1) i result) (varint room value)
      (BitVec.ofNat bits (value * 2^i + result.toNat)) := by
  have byte : (UInt8.ofNat value).toNat = value := by
    rw [UInt8.toNat_ofNat']
    omega
  have joined : result ||| BitVec.ofNat bits value <<< i =
      BitVec.ofNat bits (value * 2^i + result.toNat) := by
    rw [← group_joined value low fits,BitVec.ofNat_toNat,BitVec.setWidth_eq]
  rw [varint_small small,readGroups,← List.append_nil [UInt8.ofNat value]]
  apply (takes_readFuint8 (UInt8.ofNat value)).bind
  rw [byte,if_pos small,joined]
  exact takes_pure _

theorem takes_readGroups {bits : Nat} (room i value : Nat) (result : BitVec bits)
    (groups : value < 128^(room+1)) (low : result.toNat < 2^i) (fits : value * 2^i + result.toNat < 2^bits) :
    Takes (readGroups bits (room+1) i result) (varint room value)
      (BitVec.ofNat bits (value * 2^i + result.toNat)) := by
  induction room generalizing i value result with
  | zero =>
    have small : value < 128 := by simpa using groups
    exact takes_lastGroup 0 small low fits
  | succ room ih =>
    by_cases small : value < 128
    · exact takes_lastGroup (room+1) small low fits
    · have pow : 2^(i+7) = 128 * 2^i := by
        rw [Nat.pow_add,Nat.mul_comm]
      have digits : value = value/128*128 + value%128 := by omega
      have parts : value * 2^i = value/128 * 2^(i+7) + value%128 * 2^i := by
        rw [pow,← Nat.mul_assoc,← Nat.add_mul,← digits]
      have byte : (UInt8.ofNat (value%128+128)).toNat = value%128+128 := by
        rw [UInt8.toNat_ofNat']
        omega
      have masked : value%128+128 &&& 0x7f = value%128 := by
        have mask := Nat.and_two_pow_sub_one_eq_mod (value%128+128) 7
        rw [show (2:Nat)^7-1 = 0x7f by decide] at mask
        rw [mask]
        omega
      have joined := group_joined (value%128) low (by omega)
      have below : value%128 * 2^i + result.toNat < 2^(i+7) := by
        have digit : (value%128+1) * 2^i ≤ 128 * 2^i := Nat.mul_le_mul_right _ (by omega)
        rw [Nat.add_mul,Nat.one_mul] at digit
        omega
      have rest : value/128 < 128^(room+1) := by
        rw [Nat.div_lt_iff_lt_mul (by decide),← Nat.pow_succ]
        exact groups
      rw [varint_step (Nat.not_lt.mp small),readGroups,parts,Nat.add_assoc,← joined]
      change Takes _ ([_] ++ varint room (value/128)) _
      apply (takes_readFuint8 _).bind
      rw [byte,if_neg (by omega),masked]
      apply ih _ _ _ rest
      · rw [joined]
        exact below
      · rw [joined]
        omega

theorem takes_readUint32 (value : UInt32) : Takes readUint32 (varint 4 value.toNat) value := by
  have bound := value.toNat_lt
  have whole := (takes_readGroups 4 0 value.toNat (0 : BitVec 32) (by omega) (by simp) (by simp; omega)).map
    UInt32.ofBitVec
  have same : UInt32.ofBitVec (BitVec.ofNat 32 (value.toNat * 2^0 + (0 : BitVec 32).toNat)) = value := by
    simp
  rwa [same] at whole

theorem takes_readUint64 (value : UInt64) : Takes readUint64 (varint 9 value.toNat) value := by
  have bound := value.toNat_lt
  have whole := (takes_readGroups 9 0 value.toNat (0 : BitVec 64) (by omega) (by simp) (by simp; omega)).map
    UInt64.ofBitVec
  have same : UInt64.ofBitVec (BitVec.ofNat 64 (value.toNat * 2^0 + (0 : BitVec 64).toNat)) = value := by
    simp
  rwa [same] at whole

theorem takes_readInt32 (value : Int32) :
    Takes readInt32 (varint 4 (encodeZigzag32 value).toNat) value := by
  have whole := (takes_readUint32 (encodeZigzag32 value)).map decodeZigzag32
  have back : decodeZigzag32 (encodeZigzag32 value) = value := by
    apply Int32.toBitVec_inj.mp
    exact decodeZigzag_encodeZigzag value.toBitVec
  rwa [back] at whole

theorem takes_readInt64 (value : Int64) :
    Takes readInt64 (varint 9 (encodeZigzag64 value).toNat) value := by
  have whole := (takes_readUint64 (encodeZigzag64 value)).map decodeZigzag64
  have back : decodeZigzag64 (encodeZigzag64 value) = value := by
    apply Int64.toBitVec_inj.mp
    exact decodeZigzag_encodeZigzag value.toBitVec
  rwa [back] at whole

end Taking

end MojoImpl.ByteArray
