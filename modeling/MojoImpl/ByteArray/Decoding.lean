import MojoImpl.ByteArray.Regions
import MojoImpl.ByteArray.EmptyReads
import Mathlib.Algebra.BigOperators.Ring.Finset
import Mathlib.Tactic.Ring

/-! What the readers of a varying number of bytes do on any data: how many bytes they take,
what they return, and what is left of the buffer when the data ends too soon. -/
namespace MojoImpl.ByteArray
open Foundation
variable {s : ByteArray}

section Groups

/-- The number of bytes that the groups at the front take when there are `limit` of them
at most, and nothing when the bytes end before. -/
def groupCount : Nat → List UInt8 → Option Nat
  | 0, _ => some 0
  | _+1, [] => none
  | limit+1, byte::rest => if byte.toNat < 0x80 then some 1 else (groupCount limit rest).map (· + 1)

theorem groupCount_le {limit k : Nat} {bytes : List UInt8} (count : groupCount limit bytes = some k) :
    k ≤ limit ∧ k ≤ bytes.length := by
  induction limit generalizing bytes k with
  | zero =>
    cases count
    exact ⟨Nat.le_refl 0,Nat.zero_le _⟩
  | succ limit ih =>
    cases bytes with
    | nil => contradiction
    | cons byte rest =>
      rw [groupCount] at count
      split at count
      · cases count
        exact ⟨Nat.succ_pos limit,Nat.succ_pos rest.length⟩
      · obtain ⟨j,fewer,rfl⟩ := Option.map_eq_some_iff.mp count
        obtain ⟨few,inside⟩ := ih fewer
        exact ⟨Nat.succ_le_succ few,Nat.succ_le_succ inside⟩

theorem groupCount_pos {limit k : Nat} {bytes : List UInt8} (count : groupCount (limit+1) bytes = some k) :
    0 < k := by
  cases bytes with
  | nil => contradiction
  | cons byte rest =>
    rw [groupCount] at count
    split at count
    · cases count
      exact Nat.one_pos
    · obtain ⟨j,_,rfl⟩ := Option.map_eq_some_iff.mp count
      exact Nat.succ_pos j

theorem or_shifted {bits i n : Nat} (low : n < 2^i) (group : Nat) :
    BitVec.ofNat bits n ||| BitVec.ofNat bits group <<< i = BitVec.ofNat bits (n + 2^i*group) := by
  have shifted : BitVec.ofNat bits group <<< i = BitVec.ofNat bits (2^i*group) := by
    apply BitVec.eq_of_toNat_eq
    rw [BitVec.toNat_shiftLeft,BitVec.toNat_ofNat,BitVec.toNat_ofNat,Nat.shiftLeft_eq,Nat.mod_mul_mod,
      Nat.mul_comm]
  rw [shifted,Nat.add_comm n,Nat.two_pow_add_eq_or_of_lt low,BitVec.ofNat_or,BitVec.or_comm]

/-- The accumulated number `n` may have outgrown the word; its low bits are what is kept. -/
theorem readGroups_run {bits limit i n : Nat} (synced : s.Synced) (low : n < 2^i) :
    (readGroups bits limit i (BitVec.ofNat bits n)).run s =
      match groupCount limit s.unread with
      | some k => .ok (BitVec.ofNat bits (n + 2^i*groups (s.unread.take k))) (s.moved k)
      | none => .error .outOfRange (s.moved s.unread.length) := by
  induction limit generalizing s i n with
  | zero =>
    change EStateM.Result.ok (BitVec.ofNat bits n) s = .ok (BitVec.ofNat bits (n + 2^i*groups [])) (s.moved 0)
    rw [groups,Nat.mul_zero,Nat.add_zero,synced.moved_zero]
  | succ limit ih =>
    obtain ⟨bytes,data⟩ : ∃ bytes, s.unread = bytes := ⟨_,rfl⟩
    rw [readGroups,data]
    cases bytes with
    | nil =>
      have short : readFuint8.run s = .error .outOfRange s :=
        run_bind_error _ (run_bind_error _ (read_short synced (by rw [data]; exact Nat.one_pos)))
      rw [run_bind_error _ short,groupCount,List.length_nil,synced.moved_zero]
    | cons byte rest =>
      have first : readFuint8.run s = .ok byte (s.moved 1) :=
        takes_readFuint8 byte s synced (by rw [data]; exact ⟨rest,rfl⟩)
      have next : (s.moved 1).Synced := synced.moved (by rw [data]; exact Nat.succ_pos _)
      have left : (s.moved 1).unread = rest := by
        rw [unread_moved,data]
        rfl
      rw [run_bind_ok _ first,groupCount]
      by_cases last : byte.toNat < 0x80
      · simp only [last,if_true,or_shifted low,List.take_succ_cons,List.take_zero,groups,Nat.mul_zero,
          Nat.add_zero]
        rw [Nat.mod_eq_of_lt last]
        rfl
      · have masked : byte.toNat &&& 0x7f = byte.toNat%128 := Nat.and_two_pow_sub_one_eq_mod _ 7
        have pow : 2^(i+7) = 2^i*128 := Nat.pow_add 2 i 7
        have digit : 2^i*(byte.toNat%128+1) ≤ 2^i*128 := Nat.mul_le_mul_left _ (by omega)
        rw [Nat.mul_add_one] at digit
        have tail := ih (s := s.moved 1) (i := i+7) (n := n + 2^i*(byte.toNat%128)) next (by omega)
        rw [left] at tail
        simp only [last,if_false,or_shifted low,masked,tail]
        cases groupCount limit rest with
        | none => simp only [Option.map_none,moved_moved,List.length_cons,Nat.add_comm]
        | some k =>
          have sum : n + 2^i*(byte.toNat%128) + 2^(i+7)*groups (rest.take k) =
              n + 2^i*(byte.toNat%128 + 128*groups (rest.take k)) := by
            rw [pow]
            ring
          simp only [Option.map_some,moved_moved,List.take_succ_cons,groups,sum,Nat.add_comm]

/-- A byte below 0x80 is among the first `limit`, or so many bytes are there. -/
def Enough (limit : Nat) (bytes : List UInt8) : Prop :=
  (∃ j < limit, ∃ byte, bytes[j]? = some byte ∧ byte.toNat < 0x80) ∨ limit ≤ bytes.length

/-- The first `j` bytes, as far as they are there, are not the last of their groups. -/
def Continued (j : Nat) (bytes : List UInt8) : Prop := ∀ i < j, ∀ byte, bytes[i]? = some byte → 0x80 ≤ byte.toNat

/-- `k` is one more than the least place of a byte below 0x80 among the first `limit`, or
it is `limit` where there is none. -/
def Ends (limit : Nat) (bytes : List UInt8) (k : Nat) : Prop :=
  (∃ j < limit, k = j+1 ∧ (∃ byte, bytes[j]? = some byte ∧ byte.toNat < 0x80) ∧ Continued j bytes) ∨
    (k = limit ∧ Continued limit bytes)

theorem Continued.zero (bytes : List UInt8) : Continued 0 bytes := fun i below => absurd below (Nat.not_lt_zero i)

theorem Continued.cons {j : Nat} {byte : UInt8} {bytes : List UInt8} (first : 0x80 ≤ byte.toNat)
    (rest : Continued j bytes) : Continued (j+1) (byte::bytes) := by
  intro i below c found
  cases i with
  | zero => exact Option.some.inj found ▸ first
  | succ i => exact rest i (Nat.lt_of_succ_lt_succ below) c found

theorem enough_iff {limit : Nat} {bytes : List UInt8} :
    Enough limit bytes ↔ ∃ k, groupCount limit bytes = some k := by
  induction limit generalizing bytes with
  | zero => exact ⟨fun _ => ⟨0,rfl⟩,fun _ => .inr (Nat.zero_le _)⟩
  | succ limit ih =>
    cases bytes with
    | nil => simp [Enough,groupCount]
    | cons byte rest =>
      rw [groupCount]
      by_cases last : byte.toNat < 0x80
      · rw [if_pos last]
        exact ⟨fun _ => ⟨1,rfl⟩,fun _ => .inl ⟨0,Nat.succ_pos limit,byte,rfl,last⟩⟩
      · have more : Enough (limit+1) (byte::rest) ↔ Enough limit rest := by
          unfold Enough
          rw [Nat.exists_lt_succ_left]
          simp [last]
        rw [if_neg last,more,ih]
        simp only [Option.map_eq_some_iff]
        exact ⟨fun ⟨k,count⟩ => ⟨k+1,k,count,rfl⟩,fun ⟨_,k,count,_⟩ => ⟨k,count⟩⟩

theorem groupCount_ends {limit k : Nat} {bytes : List UInt8} (count : groupCount limit bytes = some k) :
    Ends limit bytes k := by
  induction limit generalizing bytes k with
  | zero =>
    cases count
    exact .inr ⟨rfl,.zero bytes⟩
  | succ limit ih =>
    cases bytes with
    | nil => contradiction
    | cons byte rest =>
      rw [groupCount] at count
      split at count
      · next last =>
        cases count
        exact .inl ⟨0,Nat.succ_pos limit,rfl,⟨byte,rfl,last⟩,.zero _⟩
      · next continued =>
        have first : 0x80 ≤ byte.toNat := Nat.not_lt.mp continued
        obtain ⟨m,fewer,rfl⟩ := Option.map_eq_some_iff.mp count
        rcases ih fewer with ⟨j,below,rfl,last,before⟩ | ⟨rfl,before⟩
        · exact .inl ⟨j+1,Nat.succ_lt_succ below,rfl,last,before.cons first⟩
        · exact .inr ⟨rfl,before.cons first⟩

theorem groups_take (bytes : List UInt8) (k : Nat) :
    groups (bytes.take k) = ∑ i ∈ Finset.range k, (bytes.getD i 0).toNat%128 * 128^i := by
  induction k generalizing bytes with
  | zero => rfl
  | succ k ih =>
    rw [Finset.sum_range_succ']
    cases bytes with
    | nil => simp [groups]
    | cons byte rest =>
      have step (i : Nat) : ((byte::rest).getD (i+1) 0).toNat%128 * 128^(i+1) =
          128*((rest.getD i 0).toNat%128 * 128^i) := by
        rw [List.getD_cons_succ,Nat.pow_succ]
        ring
      rw [List.take_succ_cons,groups,ih]
      simp only [step,← Finset.mul_sum,List.getD_cons_zero,Nat.pow_zero,Nat.mul_one,Nat.add_comm]

/-- The reader takes the groups at the front, `limit` bytes of them at most, and returns the
number they stand for; where they end too soon it throws. -/
def ReadsGroups {α : Type} (x : Action α) (ofNat : Nat → α) (limit : Nat) (s : ByteArray) : Prop :=
  (Enough limit s.unread → ∃ k ≤ limit, Ends limit s.unread k ∧
    x.run s = .ok (ofNat (∑ i ∈ Finset.range k, (s.unread.getD i 0).toNat%128 * 128^i)) (s.moved k)) ∧
  (¬ Enough limit s.unread → s.unread.length < limit ∧ x.run s = .error .outOfRange (s.moved s.unread.length))

theorem readGroups_reads {α : Type} {bits limit : Nat} {x : Action α} {cast : BitVec bits → α} {ofNat : Nat → α}
    (same : x = readGroups bits limit 0 0 >>= fun v => pure (cast v)) (number : ∀ n, cast (BitVec.ofNat bits n) = ofNat n)
    (synced : s.Synced) : ReadsGroups x ofNat limit s := by
  have ran : (readGroups bits limit 0 0).run s = _ := readGroups_run (n := 0) synced (Nat.two_pow_pos 0)
  rw [same]
  constructor
  · intro enough
    obtain ⟨k,count⟩ := enough_iff.mp enough
    rw [count] at ran
    refine ⟨k,(groupCount_le count).1,groupCount_ends count,?_⟩
    rw [run_bind_ok _ ran,Nat.pow_zero,Nat.one_mul,Nat.zero_add,number,groups_take]
    rfl
  · intro few
    have count : groupCount limit s.unread = none := by
      rw [Option.eq_none_iff_forall_ne_some]
      exact fun k count => few (enough_iff.mpr ⟨k,count⟩)
    rw [count] at ran
    exact ⟨Nat.not_le.mp fun long => few (.inr long),run_bind_error _ ran⟩

/-- The two unsigned readers on any data. `UInt32.ofNat` and `UInt64.ofNat` keep the low bits. -/
theorem inUse_readsGroups (heap : Nat → Nat → UInt8) (b : Nat) (positive : 1 ≤ b) (s : ByteArray)
    (used : InUse heap b s) :
    ReadsGroups readUint32 UInt32.ofNat 5 s ∧ ReadsGroups readUint64 UInt64.ofNat 10 s := by
  obtain ⟨synced,_⟩ := inUse_synced positive used
  exact ⟨readGroups_reads rfl (fun _ => rfl) synced,readGroups_reads rfl (fun _ => rfl) synced⟩

/-- Five bytes that all announce another one, across chunks of two. -/
theorem inUse_readsGroups_overlong : ∃ s, InUse (fun _ _ => 0) 2 s ∧ s.unread = [255,255,255,255,255] ∧
    ReadsGroups readUint32 UInt32.ofNat 5 s := by
  have used : InUse (fun _ _ => 0) 2 _ := .returned _ _ (.setPosition 0)
    (.returned _ _ (.write [255,255,255,255,255]) .create rfl) rfl
  exact ⟨_,used,rfl,(inUse_readsGroups (fun _ _ => 0) 2 (by decide) _ used).1⟩

end Groups

section Failing
variable {α β : Type}

/-- `x` throws exactly when the data is too short. Then it has changed nothing if not even
its first `read`, of `first` bytes, was served, and something otherwise. -/
structure Stops (x : Action α) (short : Prop) (first : Nat) (s : ByteArray) : Prop where
  throws : short → ∃ t, x.run s = .error .outOfRange t ∧
    (s.unread.length < first → t = s) ∧ (first ≤ s.unread.length → t ≠ s)
  serves : ¬ short → ∀ t, x.run s ≠ .error .outOfRange t

theorem Stops.untouched_iff {x : Action α} {short : Prop} {first : Nat} (stops : Stops x short first s) :
    (∀ t, x.run s = .error .outOfRange t → t = s) ↔ s.unread.length < first ∨ ¬ short := by
  constructor
  · intro untouched
    by_contra both
    obtain ⟨served,tooShort⟩ := not_or.mp both
    obtain ⟨t,ran,_,changed⟩ := stops.throws (Classical.not_not.mp tooShort)
    exact changed (Nat.not_lt.mp served) (untouched t ran)
  · intro either t ran
    by_cases tooShort : short
    · obtain ⟨u,ran',same,_⟩ := stops.throws tooShort
      rw [ran] at ran'
      injection ran' with _ last
      rw [last]
      exact same (either.resolve_right fun enough => enough tooShort)
    · exact absurd ran (stops.serves tooShort t)

theorem Stops.map {x : Action α} {short : Prop} {first : Nat} (stops : Stops x short first s) (f : α → β) :
    Stops (x >>= fun a => pure (f a)) short first s where
  throws tooShort := by
    obtain ⟨t,ran,rest⟩ := stops.throws tooShort
    exact ⟨t,run_bind_error _ ran,rest⟩
  serves enough t ran := by
    rw [EStateM.run_bind] at ran
    split at ran
    · contradiction
    · next e u first =>
      injection ran with thrown last
      rw [thrown,last] at first
      exact stops.serves enough t first

theorem moved_ne {k : Nat} (some_byte : 0 < k) : s.moved k ≠ s := by
  intro same
  have position : s.position+k = s.position := congrArg ByteArray.position same
  omega

theorem read_serves (synced : s.Synced) {n : Nat} (enough : n ≤ s.unread.length) (t : ByteArray) :
    (read n).run s ≠ .error .outOfRange t := by
  by_cases zero : n = 0
  · rw [zero,read_zero synced]
    split <;> exact fun same => nomatch same
  · rw [read_ok synced (Nat.pos_of_ne_zero zero) enough]
    exact fun same => nomatch same

theorem stops_readFint (synced : s.Synced) (w : Nat) : Stops (readFint w) (s.unread.length < w) w s := by
  have raw : Stops (read w) (s.unread.length < w) w s :=
    ⟨fun short => ⟨s,read_short synced short,fun _ => rfl,fun served => absurd short (Nat.not_lt.mpr served)⟩,
      fun enough => read_serves synced (Nat.not_lt.mp enough)⟩
  exact raw.map ofLittleEndian

theorem ReadsGroups.stops {x : Action α} {ofNat : Nat → α} {limit : Nat} (synced : s.Synced)
    (reads : ReadsGroups x ofNat limit s) : Stops x (¬ Enough limit s.unread) 1 s where
  throws few := by
    refine ⟨_,(reads.2 few).2,?_,moved_ne⟩
    intro none_left
    rw [Nat.lt_one_iff.mp none_left,synced.moved_zero]
  serves enough t ran := by
    obtain ⟨k,_,_,ran'⟩ := reads.1 (Classical.not_not.mp enough)
    rw [ran] at ran'
    contradiction

/-- The length that the data declares for a string, after the number of bytes it takes. -/
def StringFormat.declared (f : StringFormat) (bytes : List UInt8) : Option (Nat × Nat) :=
  match f with
  | .F16 | .F32 | .F64 =>
    if bytes.length < f.prefixLength then none
    else some (f.prefixLength,ofLittleEndian (bytes.take f.prefixLength))
  | .Vint => (groupCount 10 bytes).map fun k => (k,groups (bytes.take k) % 2^64)

/-- A length is read as it is declared. -/
structure Declares (len : Action Nat) (declared : Option (Nat × Nat)) (first : Nat) (s : ByteArray) : Prop where
  stops : Stops len (declared = none) first s
  returns : ∀ k n, declared = some (k,n) → 0 < k ∧ first ≤ k ∧ k ≤ s.unread.length ∧ len.run s = .ok n (s.moved k)

theorem declares_fixed (synced : s.Synced) {len : Action Nat} {w : Nat} (cast : Nat → Nat) (some_byte : 0 < w)
    (same : len = readFint w >>= fun v => pure (cast v)) (exact : ∀ n, n < 256^w → cast n = n) :
    Declares len (if s.unread.length < w then none else some (w,ofLittleEndian (s.unread.take w))) w s := by
  rw [same]
  by_cases short : s.unread.length < w
  · have stops := (stops_readFint synced w).map cast
    rw [if_pos short]
    exact ⟨⟨fun _ => stops.throws short,fun some => absurd rfl some⟩,fun k n found => nomatch found⟩
  · have enough : w ≤ s.unread.length := Nat.not_lt.mp short
    have small := ofLittleEndian_lt (s.unread.take w)
    rw [List.length_take,Nat.min_eq_left enough] at small
    have ran : (readFint w).run s = .ok (ofLittleEndian (s.unread.take w)) (s.moved w) :=
      run_bind_ok _ (read_ok synced some_byte enough)
    have whole : (readFint w >>= fun v => pure (cast v)).run s = .ok (ofLittleEndian (s.unread.take w)) (s.moved w) := by
      rw [run_bind_ok _ ran,exact _ small]
      rfl
    rw [if_neg short]
    refine ⟨⟨fun none => (nomatch none),fun _ t thrown => ?_⟩,?_⟩
    · rw [whole] at thrown
      contradiction
    · intro k n found
      cases found
      exact ⟨some_byte,Nat.le_refl w,enough,whole⟩

theorem declares_groups (synced : s.Synced) :
    Declares (readUint64 >>= fun len => pure len.toNat)
      ((groupCount 10 s.unread).map fun k => (k,groups (s.unread.take k) % 2^64)) 1 s := by
  have reads : ReadsGroups readUint64 UInt64.ofNat 10 s := readGroups_reads rfl (fun _ => rfl) synced
  have stops := (reads.stops synced).map UInt64.toNat
  have enough : Enough 10 s.unread ↔ ∃ k, groupCount 10 s.unread = some k := enough_iff
  cases count : groupCount 10 s.unread with
  | none =>
    have few : ¬ Enough 10 s.unread := by
      rw [enough,count]
      exact fun ⟨k,same⟩ => nomatch same
    exact ⟨⟨fun _ => stops.throws few,fun some => absurd rfl some⟩,fun k n found => nomatch found⟩
  | some k =>
    have ran : (readGroups 64 10 0 0).run s = _ := readGroups_run (n := 0) synced (Nat.two_pow_pos 0)
    rw [count] at ran
    have whole : (readUint64 >>= fun len => pure len.toNat).run s =
        .ok (groups (s.unread.take k) % 2^64) (s.moved k) := by
      rw [readUint64,bind_assoc,run_bind_ok _ ran,pure_bind,Nat.pow_zero,Nat.one_mul,Nat.zero_add]
      rfl
    refine ⟨⟨fun none => (nomatch none),fun _ t thrown => ?_⟩,?_⟩
    · rw [whole] at thrown
      contradiction
    · intro j n found
      cases found
      exact ⟨groupCount_pos count,groupCount_pos count,(groupCount_le count).2,whole⟩

theorem declares_readLength (synced : s.Synced) (f : StringFormat) :
    Declares f.readLength (f.declared s.unread) f.prefixLength s := by
  cases f with
  | F16 =>
    refine declares_fixed synced (w := 2) (fun n => (UInt16.ofNat n).toNat) (by decide) ?_
      (fun n small => by rw [UInt16.toNat_ofNat']; exact Nat.mod_eq_of_lt small)
    simp only [StringFormat.readLength,readFuint16,bind_assoc,pure_bind]
  | F32 =>
    refine declares_fixed synced (w := 4) (fun n => (UInt32.ofNat n).toNat) (by decide) ?_
      (fun n small => by rw [UInt32.toNat_ofNat']; exact Nat.mod_eq_of_lt small)
    simp only [StringFormat.readLength,readFuint32,bind_assoc,pure_bind]
  | F64 =>
    refine declares_fixed synced (w := 8) (fun n => (UInt64.ofNat n).toNat) (by decide) ?_
      (fun n small => by rw [UInt64.toNat_ofNat']; exact Nat.mod_eq_of_lt small)
    simp only [StringFormat.readLength,readFuint64,bind_assoc,pure_bind]
  | Vint => exact declares_groups synced

/-- The data ends inside the length or inside the string it declares. -/
def StringFormat.Short (f : StringFormat) (bytes : List UInt8) : Prop :=
  ∀ k n, f.declared bytes = some (k,n) → bytes.length < k+n

theorem stops_readString (synced : s.Synced) (f : StringFormat) :
    Stops (readString f) (f.Short s.unread) f.prefixLength s := by
  obtain ⟨stops,returns⟩ := declares_readLength synced f
  rw [readString_eq]
  cases declared : f.declared s.unread with
  | none =>
    obtain ⟨t,ran,rest⟩ := stops.throws declared
    have short : f.Short s.unread := fun k n found => nomatch declared.symm.trans found
    exact ⟨fun _ => ⟨t,run_bind_error _ ran,rest⟩,fun enough => absurd short enough⟩
  | some pair =>
    obtain ⟨k,n⟩ := pair
    obtain ⟨some_byte,whole,inside,ran⟩ := returns k n declared
    have moved := synced.moved inside
    have left : (s.moved k).unread.length = s.unread.length-k := by rw [unread_moved,List.length_drop]
    constructor
    · intro short
      have few := short k n declared
      refine ⟨s.moved k,?_,fun unserved => absurd inside (by omega),fun _ => moved_ne some_byte⟩
      rw [run_bind_ok _ ran,read_short moved (by omega)]
    · intro enough t thrown
      rw [run_bind_ok _ ran] at thrown
      refine read_serves moved ?_ t thrown
      by_contra few
      refine enough fun k' n' found => ?_
      cases declared.symm.trans found
      omega

inductive Reader
  | readFint8
  | readFuint8
  | readFint16
  | readFuint16
  | readFint32
  | readFuint32
  | readFint64
  | readFuint64
  | readInt32
  | readUint32
  | readInt64
  | readUint64
  | readString (f : StringFormat)
  deriving DecidableEq, Repr

namespace Reader

@[reducible] def Value : Reader → Type
  | readFint8 => Int8
  | readFuint8 => UInt8
  | readFint16 => Int16
  | readFuint16 => UInt16
  | readFint32 => Int32
  | readFuint32 => UInt32
  | readFint64 => Int64
  | readFuint64 => UInt64
  | readInt32 => Int32
  | readUint32 => UInt32
  | readInt64 => Int64
  | readUint64 => UInt64
  | readString _ => List UInt8

def action : (r : Reader) → Action r.Value
  | readFint8 => ByteArray.readFint8
  | readFuint8 => ByteArray.readFuint8
  | readFint16 => ByteArray.readFint16
  | readFuint16 => ByteArray.readFuint16
  | readFint32 => ByteArray.readFint32
  | readFuint32 => ByteArray.readFuint32
  | readFint64 => ByteArray.readFint64
  | readFuint64 => ByteArray.readFuint64
  | readInt32 => ByteArray.readInt32
  | readUint32 => ByteArray.readUint32
  | readInt64 => ByteArray.readInt64
  | readUint64 => ByteArray.readUint64
  | readString f => ByteArray.readString f

/-- The number of bytes the reader asks for first. -/
def first : Reader → Nat
  | readFint8 | readFuint8 => 1
  | readFint16 | readFuint16 => 2
  | readFint32 | readFuint32 => 4
  | readFint64 | readFuint64 => 8
  | readInt32 | readUint32 | readInt64 | readUint64 => 1
  | readString f => f.prefixLength

/-- The data is too short for the reader. -/
def Short : Reader → List UInt8 → Prop
  | readInt32 | readUint32 => fun bytes => ¬ Enough 5 bytes
  | readInt64 | readUint64 => fun bytes => ¬ Enough 10 bytes
  | readString f => f.Short
  | r => fun bytes => bytes.length < r.first

theorem stops (synced : s.Synced) (r : Reader) : Stops r.action (r.Short s.unread) r.first s := by
  have groups32 : ReadsGroups ByteArray.readUint32 UInt32.ofNat 5 s := readGroups_reads rfl (fun _ => rfl) synced
  have groups64 : ReadsGroups ByteArray.readUint64 UInt64.ofNat 10 s := readGroups_reads rfl (fun _ => rfl) synced
  cases r with
  | readFint8 => exact (stops_readFint synced 1).map _
  | readFuint8 => exact (stops_readFint synced 1).map _
  | readFint16 => exact (stops_readFint synced 2).map _
  | readFuint16 => exact (stops_readFint synced 2).map _
  | readFint32 => exact (stops_readFint synced 4).map _
  | readFuint32 => exact (stops_readFint synced 4).map _
  | readFint64 => exact (stops_readFint synced 8).map _
  | readFuint64 => exact (stops_readFint synced 8).map _
  | readInt32 => exact (groups32.stops synced).map _
  | readUint32 => exact groups32.stops synced
  | readInt64 => exact (groups64.stops synced).map _
  | readUint64 => exact groups64.stops synced
  | readString f => exact stops_readString synced f

end Reader

/-- A reader that throws leaves the buffer as it was exactly when the data ends before the
first bytes it asks for; a reader that is served these and then throws has passed over them. -/
theorem inUse_untouched (heap : Nat → Nat → UInt8) (b : Nat) (positive : 1 ≤ b) (s : ByteArray)
    (used : InUse heap b s) (r : Reader) :
    (∀ t, r.action.run s = .error .outOfRange t → t = s) ↔
      s.unread.length < r.first ∨ ¬ r.Short s.unread := by
  obtain ⟨synced,_⟩ := inUse_synced positive used
  exact (r.stops synced).untouched_iff

/-- One byte where a length takes two. -/
theorem inUse_untouched_oneByte : ∃ s, InUse (fun _ _ => 0) 4 s ∧ s.unread = [7] ∧
    ∀ t, (readString .F16).run s = .error .outOfRange t → t = s := by
  have used : InUse (fun _ _ => 0) 4 _ :=
    .returned _ _ (.setPosition 0) (.returned _ _ (.write [7]) .create rfl) rfl
  refine ⟨_,used,rfl,?_⟩
  exact (inUse_untouched (fun _ _ => 0) 4 (by decide) _ used (.readString .F16)).mpr (.inl (by decide))

/-- A length of three and one byte after it: the length is gone when the reader throws. -/
theorem inUse_touched : ¬∀ s, InUse (fun _ _ => 0) 4 s → ∀ r : Reader,
    ∀ t, r.action.run s = .error .outOfRange t → t = s := by
  intro untouched
  have used : InUse (fun _ _ => 0) 4 _ :=
    .returned _ _ (.setPosition 0) (.returned _ _ (.write [3,0,9]) .create rfl) rfl
  have same := untouched _ used (.readString .F16) _ rfl
  have position := congrArg ByteArray.position same
  contradiction

end Failing

end MojoImpl.ByteArray
