import MojoImpl.ByteArray.Decoding

/-! Values written anywhere in a buffer, over what is there, and read back from the same
place: sequences of integers of varying length, and strings. -/
namespace MojoImpl.ByteArray
open Foundation

section Putting

/-- `x` returns with `bytes` put at the position, the position after them, and nothing
changed before. -/
def Puts (x : Action Unit) (bytes : List UInt8) : Prop :=
  ∀ s : ByteArray, s.Synced → ∃ t, x.run s = .ok () t ∧ t.Synced ∧ t.position = s.position+bytes.length ∧
    t.store.take t.position = s.store.take s.position ++ bytes

theorem puts_write (buf : List UInt8) : Puts (write buf) buf := by
  intro s synced
  obtain ⟨t,more,fits,ran,_,after,shows⟩ := write_flat synced buf
  have stored : t.store = splice (s.store++more) s.position buf := congrArg FlatBuffer.store shows
  have position : t.position = s.position+buf.length := congrArg FlatBuffer.position shows
  have total := synced.store_length
  have ordered := synced.ordered
  have inside := synced.inside
  refine ⟨t,ran,after,position,?_⟩
  rw [position,stored,take_splice _ _ _ (by rw [List.length_append]; omega),
    List.take_append_of_le_length (by omega)]

theorem Puts.bind {x y : Action Unit} {first second : List UInt8} (head : Puts x first) (tail : Puts y second) :
    Puts (x >>= fun _ => y) (first++second) := by
  intro s synced
  obtain ⟨t,ran,after,position,stored⟩ := head s synced
  obtain ⟨u,ran',after',position',stored'⟩ := tail t after
  refine ⟨u,by rw [run_bind_ok _ ran,ran'],after',?_,?_⟩
  · rw [position',position,List.length_append,Nat.add_assoc]
  · rw [stored',stored,List.append_assoc]

theorem puts_forM {β : Type} {f : β → Action Unit} {print : β → List UInt8} (l : List β)
    (each : ∀ b, Puts (f b) (print b)) : Puts (l.forM f) (l.flatMap print) := by
  induction l with
  | nil => exact puts_write []
  | cons b l ih =>
    rw [List.flatMap_cons]
    change Puts (f b >>= fun _ => l.forM f) _
    exact (each b).bind ih

/-- What was put at a place is what a reader finds that starts there, and it stops where
the writer stopped. -/
theorem Puts.readBack {α : Type} {x : Action Unit} {y : Action α} {bytes : List UInt8} {a : α} (puts : Puts x bytes)
    (takes : Takes y bytes a) {s : ByteArray} (synced : s.Synced) :
    ∃ t u v, x.run s = .ok () t ∧ (setPosition s.position).run t = .ok () u ∧ y.run u = .ok a v ∧
      v.position = t.position := by
  obtain ⟨t,ran,after,position,stored⟩ := puts s synced
  have ordered := after.ordered
  have inside := after.inside
  have low : s.position ≤ s.store.length := by
    rw [synced.store_length]
    exact Nat.le_trans synced.ordered synced.inside
  have start : bytes <+: (t.sought s.position).unread := by
    have size : (t.sought s.position).size = t.size := Nat.max_eq_left (by omega)
    have front : (t.store.take t.position).drop s.position = bytes := by
      rw [stored,List.drop_left' (by rw [List.length_take,Nat.min_eq_left low])]
    rw [unread_taken,size,← front]
    change (t.store.take t.position).drop s.position <+: (t.store.take t.size).drop s.position
    exact (List.take_prefix_take_left ordered).drop s.position
  have ran' := takes _ (after.sought (by omega)) start
  exact ⟨t,_,_,ran,setPosition_run after (by omega),ran',position.symm⟩

end Putting

section Integers

/-- The integers that are written with as many bytes as they need. -/
inductive Coding
  | uint32
  | int32
  | uint64
  | int64
  deriving DecidableEq, Repr

namespace Coding

@[reducible] def Value : Coding → Type
  | uint32 => UInt32
  | int32 => Int32
  | uint64 => UInt64
  | int64 => Int64

def write : (c : Coding) → c.Value → Action Unit
  | uint32, value => writeUint32 value
  | int32, value => writeInt32 value
  | uint64, value => writeUint64 value
  | int64, value => writeInt64 value

def read : (c : Coding) → Action c.Value
  | uint32 => readUint32
  | int32 => readInt32
  | uint64 => readUint64
  | int64 => readInt64

/-- The number whose groups are written. -/
def number : (c : Coding) → c.Value → Nat
  | uint32, value => value.toNat
  | int32, value => (encodeZigzag32 value).toNat
  | uint64, value => value.toNat
  | int64, value => (encodeZigzag64 value).toNat

/-- The length of the array `tmp`. -/
def room : Coding → Nat
  | uint32 | int32 => 5
  | uint64 | int64 => 10

def tmp (c : Coding) (value : c.Value) : List UInt8 := groupLoop (c.number value)

theorem number_lt (c : Coding) (value : c.Value) : c.number value < 128^c.room := by
  cases c with
  | uint32 => exact Nat.lt_trans value.toNat_lt (by decide)
  | int32 => exact Nat.lt_trans (encodeZigzag32 value).toNat_lt (by decide)
  | uint64 => exact Nat.lt_trans value.toNat_lt (by decide)
  | int64 => exact Nat.lt_trans (encodeZigzag64 value).toNat_lt (by decide)

theorem varint_tmp (c : Coding) (value : c.Value) :
    varint (c.room-1) (c.number value) = c.tmp value ∧ (c.tmp value).length ≤ c.room := by
  have room : c.room-1+1 = c.room := by cases c <;> rfl
  have fits := c.number_lt value
  rw [← room] at fits
  have loop := varint_groupLoop fits
  rwa [room] at loop

theorem write_tmp (c : Coding) (value : c.Value) :
    c.write value = ByteArray.write (c.tmp value) ∧ 1 ≤ (c.tmp value).length ∧ (c.tmp value).length ≤ c.room := by
  obtain ⟨same,short⟩ := c.varint_tmp value
  refine ⟨?_,?_,short⟩
  · rw [← same]
    cases c <;> rfl
  · rw [tmp,groupLoop]
    split <;> exact Nat.succ_pos _

theorem takes_read (c : Coding) (value : c.Value) : Takes c.read (c.tmp value) value := by
  rw [← (c.varint_tmp value).1]
  cases c with
  | uint32 => exact takes_readUint32 value
  | int32 => exact takes_readInt32 value
  | uint64 => exact takes_readUint64 value
  | int64 => exact takes_readInt64 value

end Coding

abbrev Coded := Sigma Coding.Value

def writeAll (values : List Coded) : Action Unit := values.forM fun value => value.1.write value.2

def readAll : List Coding → Action (List Coded)
  | [] => return []
  | c::rest => do
    let value ← c.read
    let values ← readAll rest
    return ⟨c,value⟩ :: values

theorem puts_writeAll (values : List Coded) :
    Puts (writeAll values) (values.flatMap fun value => value.1.tmp value.2) :=
  puts_forM values fun value => (value.1.write_tmp value.2).1 ▸ puts_write _

theorem takes_readAll (values : List Coded) :
    Takes (readAll (values.map Sigma.fst)) (values.flatMap fun value => value.1.tmp value.2) values := by
  induction values with
  | nil => exact takes_pure []
  | cons value values ih =>
    rw [List.map_cons,List.flatMap_cons]
    exact (value.1.takes_read value.2).bind (ih.map fun values => value::values)

/-- Integers written one after another are read back as they are, wherever the first one
goes, and each of them fits in the array it is built in. -/
theorem inUse_sequence (heap : Nat → Nat → UInt8) (b : Nat) (positive : 1 ≤ b) (s : ByteArray)
    (used : InUse heap b s) (values : List Coded) :
    (∃ t u v, (writeAll values).run s = .ok () t ∧ (setPosition s.position).run t = .ok () u ∧
      (readAll (values.map Sigma.fst)).run u = .ok values v ∧ v.position = t.position) ∧
    ∀ value ∈ values, value.1.write value.2 = write (value.1.tmp value.2) ∧
      1 ≤ (value.1.tmp value.2).length ∧ (value.1.tmp value.2).length ≤ value.1.room := by
  obtain ⟨synced,_⟩ := inUse_synced positive used
  exact ⟨(puts_writeAll values).readBack (takes_readAll values) synced,fun value _ => value.1.write_tmp value.2⟩

/-- The least value of 32 bits, and two of 64, over three bytes at offset 1 of chunks of two. -/
theorem inUse_sequence_least : ∃ s, InUse (fun _ _ => 0) 2 s ∧ s.position = 1 ∧
    ∃ t u v, (writeAll [⟨.int32,-2147483648⟩,⟨.uint64,300⟩,⟨.int64,-1⟩]).run s = .ok () t ∧
      (setPosition s.position).run t = .ok () u ∧
      (readAll [.int32,.uint64,.int64]).run u = .ok [⟨.int32,-2147483648⟩,⟨.uint64,300⟩,⟨.int64,-1⟩] v ∧
      v.position = t.position := by
  have used : InUse (fun _ _ => 0) 2 _ := .returned _ _ (.setPosition 1)
    (.returned _ _ (.write [7,8,9]) .create rfl) rfl
  exact ⟨_,used,rfl,(inUse_sequence (fun _ _ => 0) 2 (by decide) _ used _).1⟩

end Integers

section Strings

/-- What is written for a string: its length, cut to the width of the format, and all of it. -/
def StringFormat.encoded (f : StringFormat) (value : List UInt8) : List UInt8 :=
  match f with
  | .F16 => littleEndian 2 (UInt16.ofNat value.length).toNat ++ value
  | .F32 => littleEndian 4 (UInt32.ofNat value.length).toNat ++ value
  | .F64 => littleEndian 8 (UInt64.ofNat value.length).toNat ++ value
  | .Vint => varint 9 (UInt64.ofNat value.length).toNat ++ value

theorem puts_writeString (f : StringFormat) (value : List UInt8) : Puts (writeString f value) (f.encoded value) := by
  cases f with
  | F16 => exact (puts_write (littleEndian 2 _)).bind (puts_write value)
  | F32 => exact (puts_write (littleEndian 4 _)).bind (puts_write value)
  | F64 => exact (puts_write (littleEndian 8 _)).bind (puts_write value)
  | Vint => exact (puts_write (varint 9 _)).bind (puts_write value)

theorem takes_readString (f : StringFormat) {value : List UInt8} (some_byte : value ≠ [])
    (short : value.length < 2^32) (fits : f = .F16 → value.length < 2^16) : Takes (readString f) (f.encoded value) value := by
  have block {n : Nat} (same : n = value.length) : Takes (read n) value value := same ▸ takes_read some_byte
  cases f with
  | F16 =>
    exact (takes_readFuint16 _).bind (block (by rw [UInt16.toNat_ofNat']; exact Nat.mod_eq_of_lt (fits rfl)))
  | F32 =>
    exact (takes_readFuint32 _).bind (block (by rw [UInt32.toNat_ofNat']; exact Nat.mod_eq_of_lt short))
  | F64 =>
    exact (takes_readFuint64 _).bind (block (by rw [UInt64.toNat_ofNat']; omega))
  | Vint =>
    exact (takes_readUint64 _).bind (block (by rw [UInt64.toNat_ofNat']; omega))

/-- A reader of strings returns as many bytes as the data declares. -/
theorem readString_declared {s t : ByteArray} (synced : s.Synced) {f : StringFormat} {value : List UInt8}
    (ran : (readString f).run s = .ok value t) : ∃ k, f.declared s.unread = some (k,value.length) := by
  obtain ⟨stops,returns⟩ := declares_readLength synced f
  rw [readString_eq] at ran
  cases declared : f.declared s.unread with
  | none =>
    obtain ⟨u,thrown,_⟩ := stops.throws declared
    rw [run_bind_error _ thrown] at ran
    contradiction
  | some pair =>
    obtain ⟨k,n⟩ := pair
    obtain ⟨_,_,inside,first⟩ := returns k n declared
    have moved := synced.moved inside
    rw [run_bind_ok _ first] at ran
    by_cases zero : n = 0
    · rw [zero,read_zero moved] at ran
      split at ran
      · cases ran
        exact ⟨k,by rw [zero]; rfl⟩
      · contradiction
    · by_cases enough : n ≤ (s.moved k).unread.length
      · rw [read_ok moved (Nat.pos_of_ne_zero zero) enough] at ran
        cases ran
        exact ⟨k,by rw [List.length_take,Nat.min_eq_left enough]⟩
      · rw [read_short moved (Nat.not_le.mp enough)] at ran
        contradiction

theorem declared_F16 {bytes : List UInt8} {k n : Nat} (declared : StringFormat.F16.declared bytes = some (k,n)) :
    n < 2^16 := by
  simp only [StringFormat.declared] at declared
  split at declared
  · contradiction
  · next enough =>
    cases declared
    have there : 2 ≤ bytes.length := Nat.not_lt.mp enough
    have small := ofLittleEndian_lt (bytes.take 2)
    rwa [List.length_take,Nat.min_eq_left there] at small

/-- A string that is written can be read from where it starts, the reader stops where the
writer did, and what is written next is read next. -/
def ReadsBack (s : ByteArray) (f : StringFormat) (value : List UInt8) : Prop :=
  (∃ t u v, (writeString f value).run s = .ok () t ∧ (setPosition s.position).run t = .ok () u ∧
    (readString f).run u = .ok value v ∧ v.position = t.position) ∧
  ∀ (α : Type) (x : Action Unit) (y : Action α) (bytes : List UInt8) (a : α), Puts x bytes → Takes y bytes a →
    ∃ t u v, (writeString f value >>= fun _ => x).run s = .ok () t ∧ (setPosition s.position).run t = .ok () u ∧
      (readString f >>= fun first => y >>= fun next => pure (first,next)).run u = .ok (value,a) v ∧
      v.position = t.position

/-- With F16 the writer cuts the length, not the string. -/
theorem readsBack_F16 {s : ByteArray} (synced : s.Synced) {value : List UInt8} (back : s.ReadsBack .F16 value) :
    value.length < 2^16 := by
  obtain ⟨⟨t,u,v,ran,sought,returned,_⟩,_⟩ := back
  obtain ⟨t',ran',after,position,_⟩ := puts_writeString .F16 value s synced
  cases ran.symm.trans ran'
  have ordered := after.ordered
  have inside := after.inside
  have room : s.position ≤ t.capacity := by omega
  cases sought.symm.trans (setPosition_run after room)
  obtain ⟨k,declared⟩ := readString_declared (after.sought room) returned
  exact declared_F16 declared

/-- The strings that are read back are those whose length the prefix holds. -/
theorem inUse_readsBack (heap : Nat → Nat → UInt8) (b : Nat) (positive : 1 ≤ b) (s : ByteArray)
    (used : InUse heap b s) (f : StringFormat) (value : List UInt8) (some_byte : value ≠ [])
    (short : value.length < 2^32) : s.ReadsBack f value ↔ (f = .F16 → value.length < 2^16) := by
  obtain ⟨synced,_⟩ := inUse_synced positive used
  constructor
  · rintro back rfl
    exact readsBack_F16 synced back
  · intro fits
    have puts := puts_writeString f value
    have takes := takes_readString f some_byte short fits
    refine ⟨puts.readBack takes synced,?_⟩
    intro α x y bytes a putsNext takesNext
    exact (puts.bind putsNext).readBack (takes.bind (takesNext.map fun next => (value,next))) synced

theorem inUse_readsBack_short : ∃ s, InUse (fun _ _ => 0) 2 s ∧ s.position = 3 ∧ s.ReadsBack .F16 [1,2,3] := by
  have used : InUse (fun _ _ => 0) 2 _ := .returned _ _ (.write [7,8,9]) .create rfl
  exact ⟨_,used,rfl,(inUse_readsBack (fun _ _ => 0) 2 (by decide) _ used .F16 [1,2,3] (by decide) (by decide)).mpr
    fun _ => by decide⟩

/-- A string of 65536 bytes is written after a length of 0. -/
theorem not_readsBack_long :
    ¬∀ value : List UInt8, value ≠ [] → value.length < 2^32 → (create (fun _ _ => 0) 4096).ReadsBack .F16 value := by
  intro back
  have sized : (List.replicate (2^16) (0 : UInt8)).length = 2^16 := List.length_replicate
  have long : List.replicate (2^16) (0 : UInt8) ≠ [] := List.ne_nil_of_length_pos (by rw [sized]; decide)
  have small := readsBack_F16 (create_synced _ 4096 (by decide)) (back _ long (by rw [sized]; decide))
  rw [sized] at small
  exact Nat.lt_irrefl _ small

end Strings

end MojoImpl.ByteArray
