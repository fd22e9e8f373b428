import MojoImpl.ByteArray.Scalars

/-! Reads of no byte. `read` looks at `m_cur->size` before its loop, so such a read is safe
exactly before the end of the last chunk, and a reader of an empty string inherits this. -/
namespace MojoImpl.ByteArray
open Foundation

inductive StringFormat
  | F16
  | F32
  | F64
  | Vint
  deriving DecidableEq, Repr

def writeString : StringFormat → List UInt8 → Action Unit
  | .F16 => writeStringF16
  | .F32 => writeStringF32
  | .F64 => writeStringF64
  | .Vint => writeStringVint

def readString : StringFormat → Action (List UInt8)
  | .F16 => readStringF16
  | .F32 => readStringF32
  | .F64 => readStringF64
  | .Vint => readStringVint

namespace StringFormat

def prefixLength : StringFormat → Nat
  | .F16 => 2
  | .F32 => 4
  | .F64 => 8
  | .Vint => 1

def encodedEmpty (f : StringFormat) : List UInt8 := List.replicate f.prefixLength 0

def readLength : StringFormat → Action Nat
  | .F16 => readFuint16 >>= fun len => pure len.toNat
  | .F32 => readFuint32 >>= fun len => pure len.toNat
  | .F64 => readFuint64 >>= fun len => pure len.toNat
  | .Vint => readUint64 >>= fun len => pure len.toNat

end StringFormat

/-- The empty string is written as its length alone. -/
theorem appends_encodedEmpty (f : StringFormat) : Appends (writeString f []) f.encodedEmpty := by
  cases f with
  | F16 => exact (appends_writeFint 2 0).bind (appends_write [])
  | F32 => exact (appends_writeFint 4 0).bind (appends_write [])
  | F64 => exact (appends_writeFint 8 0).bind (appends_write [])
  | Vint => exact (appends_write (varint 9 0)).bind (appends_write [])

theorem readString_eq (f : StringFormat) : readString f = f.readLength >>= read := by
  cases f <;>
    simp only [readString,StringFormat.readLength,readStringF16,readStringF32,readStringF64,
      readStringVint,bind_assoc,pure_bind]

theorem takes_readLength (f : StringFormat) : Takes f.readLength f.encodedEmpty 0 := by
  cases f with
  | F16 => exact (takes_readFuint16 0).map UInt16.toNat
  | F32 => exact (takes_readFuint32 0).map UInt32.toNat
  | F64 => exact (takes_readFuint64 0).map UInt64.toNat
  | Vint => exact (takes_readUint64 0).map UInt64.toNat

variable {s : ByteArray}

theorem readString_empty (synced : s.Synced) (f : StringFormat) (starts : f.encodedEmpty <+: s.unread) :
    (readString f).run s =
      if s.position+f.prefixLength < s.capacity then .ok [] (s.moved f.prefixLength)
      else .error .nullDeref (s.moved f.prefixLength) := by
  have sized : f.encodedEmpty.length = f.prefixLength := List.length_replicate
  have first := takes_readLength f s synced starts
  have moved := synced.moved starts.length_le
  rw [sized] at first moved
  rw [readString_eq,run_bind_ok _ first,read_zero moved,moved_position,moved_capacity]

theorem read_completes_iff (synced : s.Synced) {n : Nat} (within : n ≤ s.getReadSize) :
    (∃ bytes t, (read n).run s = .ok bytes t) ↔ 0 < n ∨ s.position < s.capacity := by
  by_cases zero : n = 0
  · subst n
    rw [read_zero synced]
    constructor
    · rintro ⟨bytes,t,ran⟩
      by_contra full
      rw [if_neg (fun partly => full (.inr partly))] at ran
      contradiction
    · intro partly
      rw [if_pos (partly.resolve_left (Nat.lt_irrefl 0))]
      exact ⟨_,_,rfl⟩
  · have some_byte : 0 < n := Nat.pos_of_ne_zero zero
    rw [getReadSize_eq synced,← unread_length synced] at within
    exact ⟨fun _ => .inl some_byte,fun _ => ⟨_,_,read_ok synced some_byte within⟩⟩

/-- In every state, a read of bytes that are there completes exactly when it is of some
byte or starts before the end of the last chunk; an empty string is read back exactly
when its length ends before that. -/
theorem reachable_emptyReads (heap : Nat → Nat → UInt8) (b : Nat) (positive : 1 ≤ b) (s : ByteArray)
    (reached : Reachable heap b s) :
    (∀ n ≤ s.getReadSize,
      (∃ bytes t, (read n).run s = .ok bytes t) ↔ 0 < n ∨ s.position < s.capacity) ∧
    ∀ f : StringFormat, f.encodedEmpty <+: s.unread →
      ((∃ t, (readString f).run s = .ok [] t) ↔ s.position+f.prefixLength < s.capacity) := by
  obtain ⟨synced,_⟩ := reachable_synced positive reached
  refine ⟨fun n within => read_completes_iff synced within,?_⟩
  intro f starts
  rw [readString_empty synced f starts]
  constructor
  · rintro ⟨t,ran⟩
    by_contra full
    rw [if_neg full] at ran
    contradiction
  · intro partly
    rw [if_pos partly]
    exact ⟨_,rfl⟩

/-- An empty string of format F16 with a byte to spare behind its length. -/
theorem reachable_emptyReads_spare :
    ∃ s, Reachable (fun _ _ => 0) 3 s ∧ ∃ t, (readString .F16).run s = .ok [] t := by
  have reached : Reachable (fun _ _ => 0) 3 _ :=
    .returned _ _ (.setPosition 0) (.returned _ _ (.write [0,0]) .create rfl) rfl
  refine ⟨_,reached,?_⟩
  exact ((reachable_emptyReads (fun _ _ => 0) 3 (by decide) _ reached).2 .F16 ⟨[],rfl⟩).mpr (by decide)

/-- One byte written into a chunk of one: the cursor is null, and a read of nothing
looks through it. -/
theorem reachable_nullRead :
    ¬∀ s, Reachable (fun _ _ => 0) 1 s → ∀ n ≤ s.getReadSize, ∃ bytes t, (read n).run s = .ok bytes t := by
  intro safe
  obtain ⟨bytes,t,ran⟩ := safe _ (.returned _ _ (.write [7]) .create rfl) 0 (Nat.zero_le _)
  contradiction

end MojoImpl.ByteArray
