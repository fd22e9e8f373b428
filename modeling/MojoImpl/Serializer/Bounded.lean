import MojoImpl.Serializer.Values
import MojoImpl.ByteArray.Decoding

/-! How long `operator>>` works on a container. The count comes from the data, but each read of
an element takes at least one byte, so the data that is left bounds the reads. -/
namespace MojoImpl.Serializer
open Foundation MojoImpl.ByteArray

section Meters
variable {α β : Type}

/-- `x` takes `cost` bytes at least and returns, or throws with so many bytes but one at least there. -/
def Meters (cost : ByteArray → Nat) (x : Action α) : Prop :=
  ∀ s : ByteArray, s.Synced →
    (∃ a k, cost s ≤ k ∧ k ≤ s.unread.length ∧ x.run s = .ok a (s.moved k)) ∨
    (cost s ≤ s.unread.length+1 ∧ ∃ t, x.run s = .error .outOfRange t)

/-- A reader of one value: it takes some byte. -/
abbrev Reads (x : Action α) : Prop := Meters (fun _ => 1) x

theorem Meters.map {cost : ByteArray → Nat} {x : Action α} (meters : Meters cost x) (f : α → β) :
    Meters cost (x >>= fun a => pure (f a)) := by
  intro s synced
  rcases meters s synced with ⟨a,k,paid,inside,ran⟩ | ⟨paid,t,ran⟩
  · refine .inl ⟨f a,k,paid,inside,?_⟩
    rw [run_bind_ok _ ran]
    rfl
  · exact .inr ⟨paid,t,run_bind_error _ ran⟩

theorem Meters.fewer {cost fewer : ByteArray → Nat} {x : Action α} (meters : Meters cost x)
    (less : ∀ s, fewer s ≤ cost s) : Meters fewer x := by
  intro s synced
  have paid := less s
  rcases meters s synced with ⟨a,k,least,inside,ran⟩ | ⟨least,t,ran⟩
  · exact .inl ⟨a,k,Nat.le_trans paid least,inside,ran⟩
  · exact .inr ⟨Nat.le_trans paid least,t,ran⟩

/-- The reads that a pair of readers begins. -/
def bothCost (x : Action α) (s : ByteArray) : Nat :=
  match x.run s with
  | .ok _ _ => 2
  | .error _ _ => 1

theorem bothCost_pos (x : Action α) (s : ByteArray) : 1 ≤ bothCost x s := by
  unfold bothCost
  split <;> decide

theorem Meters.both {γ : Type} {x : Action α} {y : Action β} (first : Reads x) (second : Reads y) (f : α → β → γ) :
    Meters (bothCost x) (do
      let a ← x
      let b ← y
      return f a b) := by
  intro s synced
  rcases first s synced with ⟨a,k,paid,inside,ran⟩ | ⟨paid,t,ran⟩
  · have cost : bothCost x s = 2 := by rw [bothCost,ran]
    have left : (s.moved k).unread.length = s.unread.length-k := by rw [unread_moved,List.length_drop]
    have paid : 1 ≤ k := paid
    rw [cost]
    rcases second _ (synced.moved inside) with ⟨b,j,paid',inside',ran'⟩ | ⟨paid',t,ran'⟩
    · have paid' : 1 ≤ j := paid'
      refine .inl ⟨f a b,k+j,by omega,by omega,?_⟩
      rw [run_bind_ok _ ran,run_bind_ok _ ran',moved_moved]
      rfl
    · exact .inr ⟨by omega,t,by rw [run_bind_ok _ ran,run_bind_error _ ran']⟩
  · have cost : bothCost x s = 1 := by rw [bothCost,ran]
    rw [cost]
    exact .inr ⟨paid,t,run_bind_error _ ran⟩

theorem reads_read {w : Nat} (some_byte : 0 < w) : Reads (ByteArray.read w) := by
  intro s synced
  by_cases enough : w ≤ s.unread.length
  · exact .inl ⟨_,w,some_byte,enough,read_ok synced some_byte enough⟩
  · exact .inr ⟨Nat.succ_pos _,s,read_short synced (Nat.not_le.mp enough)⟩

theorem reads_readGroups (bits : Nat) {limit : Nat} (some_group : 0 < limit) :
    Reads (readGroups bits limit 0 0) := by
  intro s synced
  have ran : (readGroups bits limit 0 0).run s = _ := readGroups_run (n := 0) synced (Nat.two_pow_pos 0)
  obtain ⟨m,rfl⟩ := Nat.exists_eq_succ_of_ne_zero (Nat.ne_of_gt some_group)
  cases count : groupCount (m+1) s.unread with
  | none =>
    rw [count] at ran
    exact .inr ⟨Nat.succ_pos _,_,ran⟩
  | some k =>
    rw [count] at ran
    exact .inl ⟨_,k,groupCount_pos count,(groupCount_le count).2,ran⟩

theorem reads_readScalar {kind : Scalar} (sized : kind ≠ .string) : Reads (readScalar kind) := by
  have fixed {w : Nat} (some_byte : 0 < w) : Reads (readFint w) := (reads_read some_byte).map ofLittleEndian
  have groups32 : Reads readUint32 := (reads_readGroups 32 (by decide)).map UInt32.ofBitVec
  have groups64 : Reads readUint64 := (reads_readGroups 64 (by decide)).map UInt64.ofBitVec
  cases kind with
  | bool => exact ((fixed (w := 1) (by decide)).map fun v => (UInt8.ofNat v).toInt8).map fun t => t != 0
  | float => exact (fixed (w := 4) (by decide)).map UInt32.ofNat
  | double => exact (fixed (w := 8) (by decide)).map UInt64.ofNat
  | int8 => exact (fixed (w := 1) (by decide)).map fun v => (UInt8.ofNat v).toInt8
  | uint8 => exact (fixed (w := 1) (by decide)).map UInt8.ofNat
  | int16 => exact (fixed (w := 2) (by decide)).map fun v => (UInt16.ofNat v).toInt16
  | uint16 => exact (fixed (w := 2) (by decide)).map UInt16.ofNat
  | int32 => exact groups32.map decodeZigzag32
  | uint32 => exact groups32
  | int64 => exact groups64.map decodeZigzag64
  | uint64 => exact groups64
  | string => exact absurd rfl sized

end Meters

section Elements
variable {α β : Type}

/-- The elements that `size` reads in a row return. -/
def elements (x : Action β) : Nat → Action (List β)
  | 0 => return []
  | size+1 => do
    let e ← x
    let rest ← elements x size
    return e::rest

/-- The reads begun in the loop over `size` elements. -/
def readsBegun (cost : ByteArray → Nat) (x : Action β) : Nat → ByteArray → Nat
  | 0, _ => 0
  | size+1, s =>
    match x.run s with
    | .ok _ t => cost s + readsBegun cost x size t
    | .error _ _ => cost s

theorem readsBegun_le {cost : ByteArray → Nat} {x : Action β} (meters : Meters cost x) (size : Nat) {s : ByteArray}
    (synced : s.Synced) : readsBegun cost x size s ≤ s.unread.length+1 := by
  induction size generalizing s with
  | zero => exact Nat.zero_le _
  | succ size ih =>
    rw [readsBegun]
    rcases meters s synced with ⟨a,k,paid,inside,ran⟩ | ⟨paid,t,ran⟩
    · have rest := ih (synced.moved inside)
      rw [unread_moved,List.length_drop] at rest
      rw [ran]
      dsimp only
      omega
    · rw [ran]
      exact paid

theorem elements_ends {cost : ByteArray → Nat} {x : Action β} (meters : Meters cost x) (size : Nat) {s : ByteArray}
    (synced : s.Synced) :
    (∃ es t, (elements x size).run s = .ok es t) ∨ ∃ t, (elements x size).run s = .error .outOfRange t := by
  induction size generalizing s with
  | zero => exact .inl ⟨[],s,rfl⟩
  | succ size ih =>
    rw [elements]
    rcases meters s synced with ⟨a,k,-,inside,ran⟩ | ⟨-,t,ran⟩
    · rcases ih (synced.moved inside) with ⟨es,t,rest⟩ | ⟨t,rest⟩
      · refine .inl ⟨a::es,t,?_⟩
        rw [run_bind_ok _ ran,run_bind_ok _ rest]
        rfl
      · exact .inr ⟨t,by rw [run_bind_ok _ ran,run_bind_error _ rest]⟩
    · exact .inr ⟨t,run_bind_error _ ran⟩

theorem readsBegun_returned {x : Action β} {size : Nat} {s t : ByteArray} {es : List β}
    (ran : (elements x size).run s = .ok es t) : readsBegun (fun _ => 1) x size s = size ∧ es.length = size := by
  induction size generalizing s es with
  | zero =>
    cases ran
    exact ⟨rfl,rfl⟩
  | succ size ih =>
    obtain ⟨e,u,first,more⟩ := run_bind_returned ran
    obtain ⟨rest,u',others,last⟩ := run_bind_returned more
    cases last
    obtain ⟨begun,counted⟩ := ih others
    have one_more : readsBegun (fun _ => 1) x (size+1) s = 1 + readsBegun (fun _ => 1) x size u := by
      rw [readsBegun,first]
    exact ⟨by rw [one_more,begun,Nat.add_comm],congrArg (· + 1) counted⟩

/-- The loop that puts each element away is the reads, and then all that is put away. -/
theorem times_elements (x : Action β) (add : α → β → α) (size : Nat) (v : α) :
    times (fun v => x >>= fun e => pure (add v e)) size v =
      elements x size >>= fun es => pure (es.foldl add v) := by
  induction size generalizing v with
  | zero => rfl
  | succ size ih => simp only [times,elements,bind_assoc,pure_bind,ih,List.foldl_cons]

end Elements

section Containers
variable {α β : Type}

/-- `whole` reads a count and then that many elements by `x`, each put away by `add`. With `r`
bytes left after the count it begins at most `r+1` reads, of whole elements as of their parts,
and either it returns after all of the elements, or it throws `out_of_range`. -/
def Bounded (cost : ByteArray → Nat) (x : Action β) (add : α → β → α) (whole : Action α) (v : α) (s : ByteArray) : Prop :=
  (∃ t, (readScalar .uint64).run s = .error .outOfRange t ∧ whole.run s = .error .outOfRange t) ∨
  ∃ (size : UInt64) (t : ByteArray), (readScalar .uint64).run s = .ok size t ∧
    readsBegun (fun _ => 1) x size.toNat t ≤ t.unread.length+1 ∧
    readsBegun cost x size.toNat t ≤ t.unread.length+1 ∧
    ((∃ es u, (elements x size.toNat).run t = .ok es u ∧ es.length = size.toNat ∧
        readsBegun (fun _ => 1) x size.toNat t = size.toNat ∧ whole.run s = .ok (es.foldl add v) u) ∨
      ∃ u, (elements x size.toNat).run t = .error .outOfRange u ∧ whole.run s = .error .outOfRange u)

theorem Meters.bounded {cost : ByteArray → Nat} {x : Action β} (meters : Meters cost x) (reads : Reads x)
    {add : α → β → α} {whole : Action α} {v : α} {s : ByteArray} (synced : s.Synced)
    (loop : whole = (readScalar .uint64 : Action UInt64) >>= fun size =>
      times (fun v => x >>= fun e => pure (add v e)) size.toNat v) : Bounded cost x add whole v s := by
  have count : Reads (readScalar .uint64) := reads_readScalar (by decide)
  rw [loop]
  rcases count s synced with ⟨size,k,-,inside,ran⟩ | ⟨-,t,ran⟩
  · have moved := synced.moved inside
    refine .inr ⟨size,_,ran,readsBegun_le reads _ moved,readsBegun_le meters _ moved,?_⟩
    rw [run_bind_ok _ ran,times_elements]
    rcases elements_ends meters size.toNat moved with ⟨es,u,read⟩ | ⟨u,stopped⟩
    · refine .inl ⟨es,u,read,(readsBegun_returned read).2,(readsBegun_returned read).1,?_⟩
      rw [run_bind_ok _ read]
      rfl
    · exact .inr ⟨u,stopped,run_bind_error _ stopped⟩
  · exact .inl ⟨t,ran,run_bind_error _ ran⟩

theorem foldl_emplace_vector (same : SameElement) {t : Ty} (v es : List t.Value) :
    es.foldl (emplace same .vector) v = v ++ es := by
  induction es generalizing v with
  | nil => rw [List.foldl_nil,List.append_nil]
  | cons e es ih =>
    have placed : emplace same .vector v e = v ++ [e] := rfl
    rw [List.foldl_cons,placed,ih,List.append_assoc]
    rfl

/-- The reads of a pair, key and value. -/
def readPair (key value : Scalar) : Action (key.Value × value.Value) := do
  let a ← readScalar key
  let b ← readScalar value
  return (a,b)

end Containers

end MojoImpl.Serializer
