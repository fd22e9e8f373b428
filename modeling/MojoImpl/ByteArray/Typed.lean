import MojoImpl.ByteArray.Refinement
import MojoImpl.Foundation.Format

/-! The typed writers and readers over `write` and `read`. Multi-byte integers are in
memory order, which is little-endian on the hosts the library is built for. -/
namespace MojoImpl.ByteArray
open Foundation

section Writers

/-- `write(&value, sizeof(value))`. -/
def writeFint (w : Nat) (value : Nat) : Action Unit := write (littleEndian w value)

def writeFuint8 (value : UInt8) : Action Unit := writeFint 1 value.toNat

def writeFuint32 (value : UInt32) : Action Unit := writeFint 4 value.toNat

def writeFuint64 (value : UInt64) : Action Unit := writeFint 8 value.toNat

/-- The bytes put into `tmp`. The first argument is the room left there after the
current byte. -/
def varint : Nat → Nat → List UInt8
  | 0, value => [UInt8.ofNat value]
  | room+1, value =>
    if 0x80 ≤ value then UInt8.ofNat ((value &&& 0x7F) ||| 0x80) :: varint room (value >>> 7)
    else [UInt8.ofNat value]

def writeUint64 (value : UInt64) : Action Unit := write (varint 9 value.toNat)

def writeStringF32 (value : List UInt8) : Action Unit := do
  writeFuint32 (UInt32.ofNat value.length)
  write value

def writeStringF64 (value : List UInt8) : Action Unit := do
  writeFuint64 (UInt64.ofNat value.length)
  write value

def writeStringVint (value : List UInt8) : Action Unit := do
  writeUint64 (UInt64.ofNat value.length)
  write value

end Writers

section Readers

def readFint (w : Nat) : Action Nat := do
  let bytes ← read w
  return ofLittleEndian bytes

def readFuint8 : Action UInt8 := do
  let v ← readFint 1
  return UInt8.ofNat v

def readFuint32 : Action UInt32 := do
  let v ← readFint 4
  return UInt32.ofNat v

def readFuint64 : Action UInt64 := do
  let v ← readFint 8
  return UInt64.ofNat v

/-- A declared length no allocation can serve ends in an exception of `resize` instead
of the `out_of_range` that `read` then throws; the two are not told apart. -/
def readStringF32 : Action (List UInt8) := do
  let len ← readFuint32
  read len.toNat

def readStringF64 : Action (List UInt8) := do
  let len ← readFuint64
  read len.toNat

end Readers

section Appending

/-- The data of `s` is `bytes`, with the cursor at its end. -/
structure Holds (s : ByteArray) (bytes : List UInt8) : Prop where
  synced : s.Synced
  atEnd : s.position = s.size
  data : s.store.take s.size = bytes

theorem create_holds (heap : Nat → Nat → UInt8) (b : Nat) (positive : 0 < b) :
    (create heap b).Holds [] :=
  ⟨create_synced heap b positive,rfl,by simp [create]⟩

theorem Holds.size {s : ByteArray} {bytes : List UInt8} (holds : s.Holds bytes) :
    s.size = bytes.length := by
  have inside := holds.synced.inside
  have total := holds.synced.store_length
  rw [← holds.data,List.length_take,Nat.min_eq_left (by omega)]

/-- `x` returns with `bytes` appended to the data, wherever the data ends. -/
def Appends (x : Action Unit) (bytes : List UInt8) : Prop :=
  ∀ s held, s.Holds held → ∃ t, x.run s = .ok () t ∧ t.Holds (held++bytes) ∧ t.baseSize = s.baseSize

theorem appends_write (buf : List UInt8) : Appends (write buf) buf := by
  intro s held holds
  obtain ⟨t,more,fits,ran,base,synced,shows⟩ := write_flat holds.synced buf
  have stored : t.store = splice (s.store++more) s.position buf := congrArg FlatBuffer.store shows
  have position : t.position = s.position+buf.length := congrArg FlatBuffer.position shows
  have size : t.size = max s.size (s.position+buf.length) := congrArg FlatBuffer.size shows
  have atEnd := holds.atEnd
  have inside := holds.synced.inside
  have total := holds.synced.store_length
  have last : t.size = s.position+buf.length := by omega
  refine ⟨t,ran,⟨synced,by omega,?_⟩,base⟩
  rw [last,stored,take_splice _ _ _ (by rw [List.length_append]; omega),
    List.take_append_of_le_length (by omega),atEnd,holds.data]

theorem Appends.bind {x y : Action Unit} {a b : List UInt8} (first : Appends x a)
    (second : Appends y b) : Appends (x >>= fun _ => y) (a++b) := by
  intro s held holds
  obtain ⟨t,ran,holds',base⟩ := first s held holds
  obtain ⟨u,ran',holds'',base'⟩ := second t _ holds'
  exact ⟨u,by rw [run_bind_ok _ ran,ran'],by rwa [List.append_assoc] at holds'',base'.trans base⟩

theorem appends_writeFint (w value : Nat) : Appends (writeFint w value) (littleEndian w value) :=
  appends_write _

/-- A stored length keeps its low bytes only, as the printed one does. -/
theorem appends_writeStringF32 (value : List UInt8) :
    Appends (writeStringF32 value) ((Format.counted 4).print value) := by
  have length : littleEndian 4 (UInt32.ofNat value.length).toNat = littleEndian 4 value.length := by
    rw [UInt32.toNat_ofNat']
    exact littleEndian_mod 4 value.length
  rw [Format.counted_print,← length]
  exact (appends_writeFint _ _).bind (appends_write _)

theorem appends_writeStringF64 (value : List UInt8) :
    Appends (writeStringF64 value) ((Format.counted 8).print value) := by
  have length : littleEndian 8 (UInt64.ofNat value.length).toNat = littleEndian 8 value.length := by
    rw [UInt64.toNat_ofNat']
    exact littleEndian_mod 8 value.length
  rw [Format.counted_print,← length]
  exact (appends_writeFint _ _).bind (appends_write _)

theorem appends_writeStringVint (value : List UInt8) :
    Appends (writeStringVint value) (varint 9 (UInt64.ofNat value.length).toNat ++ value) :=
  (appends_write _).bind (appends_write _)

theorem unread_taken (s : ByteArray) : s.unread = (s.store.take s.size).drop s.position := by
  rw [unread,window,List.drop_take]

theorem Synced.seek {s : ByteArray} (synced : s.Synced) {v : Nat} (inside : v ≤ s.size) :
    ∃ t, (setPosition v).run s = .ok () t ∧ t.Synced ∧ t.store.take t.size = s.store.take s.size ∧
      t.size = s.size ∧ t.position = v ∧ t.baseSize = s.baseSize := by
  have bound := synced.inside
  have total := synced.store_length
  have ran := setPosition_flat synced v
  have low : v ≤ (s.flat synced).store.length := by
    change v ≤ s.store.length
    omega
  rw [FlatBuffer.seek,dif_pos low] at ran
  obtain ⟨t,ran,base,synced,shows⟩ := ran
  have stored : t.store = s.store := congrArg FlatBuffer.store shows
  have position : t.position = v := congrArg FlatBuffer.position shows
  have size : t.size = max s.size v := congrArg FlatBuffer.size shows
  rw [Nat.max_eq_left inside] at size
  exact ⟨t,ran,synced,by rw [stored,size],size,position,base⟩

theorem Holds.seek {s : ByteArray} {bytes : List UInt8} (holds : s.Holds bytes) {v : Nat}
    (inside : v ≤ bytes.length) :
    ∃ t, (setPosition v).run s = .ok () t ∧ t.Synced ∧ t.unread = bytes.drop v ∧ t.position = v ∧
      t.baseSize = s.baseSize := by
  obtain ⟨t,ran,synced,data,_,position,base⟩ := holds.synced.seek (holds.size ▸ inside)
  exact ⟨t,ran,synced,by rw [unread_taken,data,holds.data,position],position,base⟩

end Appending

section Reading

/-- From `s`, `x` reads the value the unread bytes start with and passes over it, or
throws when they start with none. -/
def Reads {α : Type} (x : Action α) (F : Format α) (s : ByteArray) : Prop :=
  (∃ a, F.Starts a s.unread ∧ x.run s = .ok a (s.moved (F.print a).length)) ∨
    ((∀ a, ¬ F.Starts a s.unread) ∧ ∃ t, x.run s = .error .outOfRange t)

theorem starts_synced {α : Type} {F : Format α} {s : ByteArray} {a : α} (synced : s.Synced)
    (starts : F.Starts a s.unread) : (s.moved (F.print a).length).Synced :=
  synced.moved starts.2.length_le

theorem reads_readFint {s : ByteArray} (synced : s.Synced) {w : Nat} (some_byte : 0 < w) :
    Reads (readFint w) (Format.uint w) s := by
  by_cases fits : w ≤ s.unread.length
  · left
    have sized : (s.unread.take w).length = w := by rw [List.length_take]; omega
    have printed : littleEndian w (ofLittleEndian (s.unread.take w)) = s.unread.take w := by
      have back := littleEndian_ofLittleEndian (s.unread.take w)
      rwa [sized] at back
    refine ⟨ofLittleEndian (s.unread.take w),⟨?_,?_⟩,?_⟩
    · have bound := ofLittleEndian_lt (s.unread.take w)
      rwa [sized] at bound
    · change littleEndian w _ <+: _
      rw [printed]
      exact List.take_prefix _ _
    · change (readFint w).run s = .ok _ (s.moved (littleEndian w _).length)
      rw [readFint,run_bind_ok _ (read_ok synced some_byte fits),littleEndian_length]
      rfl
  · right
    refine ⟨?_,s,?_⟩
    · rintro a ⟨_,starts⟩
      have long := starts.length_le
      change (littleEndian w a).length ≤ _ at long
      rw [littleEndian_length] at long
      omega
    · rw [readFint,run_bind_error _ (read_short synced (by omega))]

theorem Reads.map {α β : Type} {x : Action α} {F : Format α} {s : ByteArray} (reads : Reads x F s)
    (f : α → β) (into : β → α) (injective : Function.Injective into)
    (inverse : ∀ a, F.Valid a → into (f a) = a) :
    Reads (x >>= fun a => pure (f a)) (F.via into injective) s := by
  rcases reads with ⟨a,starts,ran⟩ | ⟨absent,t,ran⟩
  · have back := inverse a starts.1
    refine .inl ⟨f a,⟨?_,?_⟩,?_⟩
    · change F.Valid (into (f a))
      rw [back]
      exact starts.1
    · change F.print (into (f a)) <+: _
      rw [back]
      exact starts.2
    · change _ = EStateM.Result.ok _ (s.moved (F.print (into (f a))).length)
      rw [run_bind_ok _ ran,back]
      rfl
  · exact .inr ⟨fun b starts => absent (into b) starts,t,run_bind_error _ ran⟩

theorem Reads.part {α β : Type} {x : Action α} {F : Format α} {s : ByteArray} (reads : Reads x F s)
    (c : Case α β) : Reads (x >>= fun a => pure (c.out a)) (F.part c) s := by
  rcases reads with ⟨a,starts,ran⟩ | ⟨absent,t,ran⟩
  · refine .inl ⟨c.out a,(Format.part_starts _ _).mpr ⟨a,c.known a,starts⟩,?_⟩
    rw [Format.part_print (c.known a),run_bind_ok _ ran]
    rfl
  · refine .inr ⟨?_,t,run_bind_error _ ran⟩
    intro b starts
    obtain ⟨a,_,starts⟩ := (Format.part_starts _ _).mp starts
    exact absent a starts

theorem Reads.pair {α β : Type} {x : Action α} {y : α → Action β} {F : Format α}
    {G : α → Format β} {s : ByteArray} (first : Reads x F s)
    (second : ∀ a, F.Starts a s.unread → Reads (y a) (G a) (s.moved (F.print a).length)) :
    Reads (x >>= fun a => y a >>= fun b => pure (a,b)) (F.seq G) s := by
  rcases first with ⟨a,starts,ran⟩ | ⟨absent,t,ran⟩
  · rcases second a starts with ⟨b,starts',ran'⟩ | ⟨absent,t,ran'⟩
    · rw [unread_moved] at starts'
      refine .inl ⟨(a,b),(Format.seq_starts _ _ _ _ _).mpr ⟨starts,starts'⟩,?_⟩
      rw [run_bind_ok _ ran,run_bind_ok _ ran',moved_moved]
      simp [Format.seq]
    · refine .inr ⟨?_,t,by rw [run_bind_ok _ ran,run_bind_error _ ran']⟩
      rintro ⟨c,d⟩ both
      obtain ⟨head,tail⟩ := (Format.seq_starts _ _ _ _ _).mp both
      cases starts.unique head
      rw [← unread_moved] at tail
      exact absent d tail
  · refine .inr ⟨?_,t,run_bind_error _ ran⟩
    rintro ⟨c,d⟩ both
    exact absent c ((Format.seq_starts _ _ _ _ _).mp both).1

theorem Reads.congr {α : Type} {x y : Action α} {F : Format α} {s : ByteArray} (reads : Reads y F s)
    (same : x = y) : Reads x F s := same ▸ reads

/-- A block of the declared length. A length of zero is safe only before the end of the
last chunk. -/
theorem reads_block {s : ByteArray} (synced : s.Synced) (n : Nat)
    (inside : n = 0 → s.position < s.capacity) : Reads (read n) (Format.block n) s := by
  by_cases zero : n = 0
  · subst n
    have ran := read_zero synced
    rw [if_pos (inside rfl)] at ran
    refine .inl ⟨[],⟨rfl,List.nil_prefix⟩,ran.trans ?_⟩
    have same : s.moved 0 = s := by
      rw [moved,Nat.add_zero,← synced.cur]
    change EStateM.Result.ok [] s = .ok [] (s.moved 0)
    rw [same]
  by_cases fits : n ≤ s.unread.length
  · have sized : (s.unread.take n).length = n := by rw [List.length_take]; omega
    refine .inl ⟨s.unread.take n,⟨sized,List.take_prefix _ _⟩,?_⟩
    change _ = EStateM.Result.ok _ (s.moved (s.unread.take n).length)
    rw [read_ok synced (by omega) fits,sized]
  · refine .inr ⟨?_,s,read_short synced (by omega)⟩
    rintro l ⟨sized,starts⟩
    have long := starts.length_le
    change l.length = n at sized
    change l.length ≤ _ at long
    omega

def uint8 : Format UInt8 := (Format.uint 1).via UInt8.toNat (fun _ _ => UInt8.toNat.inj)

def uint32 : Format UInt32 := (Format.uint 4).via UInt32.toNat (fun _ _ => UInt32.toNat.inj)

def uint64 : Format UInt64 := (Format.uint 8).via UInt64.toNat (fun _ _ => UInt64.toNat.inj)

theorem reads_readFuint8 {s : ByteArray} (synced : s.Synced) : Reads readFuint8 uint8 s :=
  (reads_readFint synced (by decide)).map _ _ _
    (fun n small => by rw [UInt8.toNat_ofNat']; exact Nat.mod_eq_of_lt small)

theorem reads_readFuint32 {s : ByteArray} (synced : s.Synced) : Reads readFuint32 uint32 s :=
  (reads_readFint synced (by decide)).map _ _ _
    (fun n small => by rw [UInt32.toNat_ofNat']; exact Nat.mod_eq_of_lt small)

theorem reads_readFuint64 {s : ByteArray} (synced : s.Synced) : Reads readFuint64 uint64 s :=
  (reads_readFint synced (by decide)).map _ _ _
    (fun n small => by rw [UInt64.toNat_ofNat']; exact Nat.mod_eq_of_lt small)

theorem reads_counted {s : ByteArray} (synced : s.Synced) {w : Nat} {len : Action Nat}
    (length : Reads len (Format.uint w) s) (inside : s.position+w < s.capacity) :
    Reads (len >>= read) (Format.counted w) s := by
  rcases length with ⟨n,starts,ran⟩ | ⟨absent,t,ran⟩
  · have prefixed : ((Format.uint w).print n).length = w := littleEndian_length w n
    rcases reads_block (starts_synced synced starts) n (fun _ => by simpa [prefixed] using inside)
      with ⟨l,starts',ran'⟩ | ⟨absent,t,ran'⟩
    · have sized : l.length = n := starts'.1
      subst sized
      rw [unread_moved] at starts'
      refine .inl ⟨l,(Format.seq_starts (Format.uint w) Format.block _ _ _).mpr ⟨starts,starts'⟩,?_⟩
      rw [run_bind_ok _ ran,ran',moved_moved,← List.length_append]
      rfl
    · refine .inr ⟨fun l both => ?_,t,by rw [run_bind_ok _ ran,ran']⟩
      obtain ⟨head,tail⟩ := (Format.seq_starts (Format.uint w) Format.block _ _ _).mp both
      cases starts.unique head
      rw [← unread_moved] at tail
      exact absent l tail
  · refine .inr ⟨fun l both => ?_,t,run_bind_error _ ran⟩
    exact absent l.length ((Format.seq_starts (Format.uint w) Format.block _ _ _).mp both).1

/-- The length as the string readers use it, through a fixed-width integer and back. -/
theorem reads_length {s : ByteArray} (synced : s.Synced) {w : Nat} (some_byte : 0 < w)
    (cast : Nat → Nat) (exact : ∀ n, n < 256^w → cast n = n) :
    Reads (readFint w >>= fun n => pure (cast n)) (Format.uint w) s := by
  rcases reads_readFint synced some_byte with ⟨n,starts,ran⟩ | ⟨absent,t,ran⟩
  · refine .inl ⟨n,starts,?_⟩
    rw [run_bind_ok _ ran,exact n starts.1]
    rfl
  · exact .inr ⟨absent,t,run_bind_error _ ran⟩

theorem reads_readStringF32 {s : ByteArray} (synced : s.Synced) (inside : s.position+4 < s.capacity) :
    Reads readStringF32 (Format.counted 4) s := by
  have length := reads_length synced (w := 4) (by decide) (fun n => (UInt32.ofNat n).toNat)
    (fun n small => by rw [UInt32.toNat_ofNat']; exact Nat.mod_eq_of_lt small)
  refine (reads_counted synced length inside).congr ?_
  simp only [readStringF32,readFuint32,bind_assoc,pure_bind]

theorem reads_readStringF64 {s : ByteArray} (synced : s.Synced) (inside : s.position+8 < s.capacity) :
    Reads readStringF64 (Format.counted 8) s := by
  have length := reads_length synced (w := 8) (by decide) (fun n => (UInt64.ofNat n).toNat)
    (fun n small => by rw [UInt64.toNat_ofNat']; exact Nat.mod_eq_of_lt small)
  refine (reads_counted synced length inside).congr ?_
  simp only [readStringF64,readFuint64,bind_assoc,pure_bind]

end Reading

end MojoImpl.ByteArray
