import MojoImpl.ByteArray.Scalars

/-! Writing a value and reading it back as streams of bytes. The writer side also knows how
much is allocated, since a reader may run into the end of the last chunk. -/
namespace MojoImpl.ByteArray
open Foundation

section Packing

/-- No chunk is allocated that holds no data, apart from the first. -/
def Tight (s : ByteArray) : Prop := s.capacity = s.baseSize ∨ s.capacity < s.size+s.baseSize

theorem addCapacity_capacity {s : ByteArray} (synced : s.Synced) (n : Nat) :
    (s.addCapacity n).capacity = s.capacity ∨ (s.addCapacity n).capacity < s.position+n+s.baseSize := by
  have room := getCapacity_eq synced
  have low : s.position ≤ s.capacity := Nat.le_trans synced.ordered synced.inside
  have positive := synced.base
  by_cases zero : n = 0
  · exact .inl (congrArg capacity (if_pos zero))
  by_cases enough : n ≤ s.getCapacity
  · left
    rw [addCapacity,if_neg zero,if_pos enough]
  · right
    obtain ⟨count,count_def⟩ : ∃ count, count = (n-s.getCapacity+s.baseSize-1)/s.baseSize := ⟨_,rfl⟩
    obtain ⟨_,_,_,_,capacity,_⟩ := appendNodes_fields count s
    have grown : (s.addCapacity n).capacity = s.capacity+s.baseSize*count := by
      simp only [addCapacity,zero,enough,if_false,← count_def]
      split <;> exact capacity
    have fits : s.baseSize*count ≤ n-s.getCapacity+s.baseSize-1 := by
      rw [count_def]
      exact Nat.mul_div_le _ _
    omega

theorem write_capacity {s t : ByteArray} {buf : List UInt8} (ran : (write buf).run s = .ok () t) :
    t.capacity = (s.addCapacity buf.length).capacity := by
  simp only [EStateM.run,write] at ran
  split at ran
  · next empty =>
    cases ran
    rw [addCapacity,if_pos empty]
  · split at ran
    · contradiction
    · split at ran
      · contradiction
      · cases ran
        rfl

theorem setPosition_capacity {s t : ByteArray} {v : Nat} (ran : (setPosition v).run s = .ok () t) :
    t.capacity = s.capacity := by
  simp only [EStateM.run,setPosition] at ran
  split at ran
  · contradiction
  · split at ran
    · contradiction
    · cases ran
      rfl

/-- The data of `s` is `bytes`, and no more is allocated for it than need be. -/
structure Packs (s : ByteArray) (bytes : List UInt8) : Prop extends s.Holds bytes where
  tight : s.Tight

theorem create_packs (heap : Nat → Nat → UInt8) (b : Nat) (positive : 0 < b) : (create heap b).Packs [] where
  toHolds := create_holds heap b positive
  tight := .inl rfl

/-- The cursor of a packed buffer is null exactly when the data fills its chunks. -/
theorem Packs.full_iff {s : ByteArray} {bytes : List UInt8} (packs : s.Packs bytes) :
    bytes.length = s.capacity ↔ 0 < bytes.length ∧ s.baseSize ∣ bytes.length := by
  have size := packs.size
  have inside := packs.synced.inside
  have chunks := packs.synced.capacity
  have some_chunk : 0 < s.chunks.length := List.length_pos_of_ne_nil packs.synced.root
  have positive := packs.synced.base
  constructor
  · intro full
    rw [full,chunks]
    exact ⟨Nat.mul_pos positive some_chunk,Nat.dvd_mul_right _ _⟩
  · rintro ⟨some_byte,k,whole⟩
    rcases packs.tight with one | tight
    · have least : s.baseSize ≤ bytes.length := Nat.le_of_dvd some_byte ⟨k,whole⟩
      omega
    · have below : s.baseSize*s.chunks.length < s.baseSize*(k+1) := by
        rw [Nat.mul_add_one,← whole]
        omega
      have few : s.chunks.length ≤ k := Nat.lt_succ_iff.mp (Nat.lt_of_mul_lt_mul_left below)
      have least : s.baseSize*s.chunks.length ≤ s.baseSize*k := Nat.mul_le_mul_left _ few
      omega

/-- `x` returns with `bytes` appended to the data and no more allocated than need be. -/
def Packing (x : Action Unit) (bytes : List UInt8) : Prop :=
  ∀ s held, s.Packs held → ∃ t, x.run s = .ok () t ∧ t.Packs (held++bytes) ∧ t.baseSize = s.baseSize

theorem packing_write (buf : List UInt8) : Packing (write buf) buf := by
  intro s held packs
  obtain ⟨t,ran,holds,base⟩ := appends_write buf s held packs.toHolds
  refine ⟨t,ran,⟨holds,?_⟩,base⟩
  have capacity := write_capacity ran
  have grown := addCapacity_capacity packs.synced buf.length
  have size := holds.size
  have before := packs.size
  have atEnd := packs.atEnd
  rw [List.length_append] at size
  rw [Tight,capacity,base]
  rcases grown with same | grown
  · rcases packs.tight with one | tight
    · exact .inl (same.trans one)
    · right
      omega
  · right
    omega

theorem Packing.bind {x y : Action Unit} {a b : List UInt8} (first : Packing x a) (second : Packing y b) :
    Packing (x >>= fun _ => y) (a++b) := by
  intro s held packs
  obtain ⟨t,ran,packs',base⟩ := first s held packs
  obtain ⟨u,ran',packs'',base'⟩ := second t _ packs'
  exact ⟨u,by rw [run_bind_ok _ ran,ran'],by rwa [List.append_assoc] at packs'',base'.trans base⟩

theorem packing_forM {β : Type} (f : β → Action Unit) (print : β → List UInt8) (l : List β)
    (each : ∀ b ∈ l, Packing (f b) (print b)) : Packing (l.forM f) (l.flatMap print) := by
  induction l with
  | nil => exact packing_write []
  | cons b l ih =>
    rw [List.flatMap_cons]
    change Packing (f b >>= fun _ => l.forM f) _
    exact (each b (by simp)).bind (ih (fun c member => each c (by simp [member])))

end Packing

section Consuming
variable {α β : Type}

/-- `x` reads `a` off the bytes, unless they end at the end of the last chunk and `x` is
one that must not stop there. -/
def Consumes (x : Action α) (bytes : List UInt8) (a : α) (trap : Prop) : Prop :=
  ∀ s : ByteArray, s.Synced → bytes <+: s.unread →
    (¬(trap ∧ s.position+bytes.length = s.capacity) → x.run s = .ok a (s.moved bytes.length)) ∧
    (trap ∧ s.position+bytes.length = s.capacity → ∃ t, x.run s = .error .nullDeref t)

theorem prefix_inside {s : ByteArray} {bytes : List UInt8} (synced : s.Synced) (starts : bytes <+: s.unread) :
    s.position+bytes.length ≤ s.capacity := by
  have long := starts.length_le
  have ordered := synced.ordered
  have inside := synced.inside
  rw [unread_length synced] at long
  omega

theorem Takes.consumes {x : Action α} {bytes : List UInt8} {a : α} (takes : Takes x bytes a) :
    Consumes x bytes a False :=
  fun s synced starts => ⟨fun _ => takes s synced starts,fun both => both.1.elim⟩

theorem Consumes.congr {x : Action α} {bytes : List UInt8} {a : α} {trap trap' : Prop}
    (consumes : Consumes x bytes a trap) (same : trap ↔ trap') : Consumes x bytes a trap' := by
  rwa [propext same] at consumes

theorem rest_starts {s : ByteArray} {first second : List UInt8} (starts : first++second <+: s.unread) :
    second <+: (s.moved first.length).unread := by
  obtain ⟨more,split⟩ := starts
  rw [unread_moved,← split,List.append_assoc,List.drop_left]
  exact List.prefix_append _ _

theorem Takes.then {x : Action α} {y : α → Action β} {first second : List UInt8} {a : α} {b : β}
    {trap : Prop} (head : Takes x first a) (tail : Consumes (y a) second b trap) :
    Consumes (x >>= y) (first++second) b trap := by
  intro s synced starts
  have start : first <+: s.unread := (List.prefix_append _ _).trans starts
  have after := tail _ (synced.moved start.length_le) (rest_starts starts)
  rw [run_bind_ok _ (head s synced start),List.length_append,← Nat.add_assoc,← moved_moved]
  exact after

theorem Consumes.before {x : Action α} {bytes : List UInt8} {a : α} {trap : Prop}
    (consumes : Consumes x bytes a trap) {s : ByteArray} (synced : s.Synced) {more : List UInt8}
    (long : more ≠ []) (starts : bytes++more <+: s.unread) : x.run s = .ok a (s.moved bytes.length) := by
  have start : bytes <+: s.unread := (List.prefix_append _ _).trans starts
  have inside := prefix_inside synced starts
  have some_byte := List.length_pos_of_ne_nil long
  rw [List.length_append] at inside
  apply (consumes s synced start).1
  rintro ⟨_,full⟩
  omega

theorem Consumes.bind {x : Action α} {y : α → Action β} {first second : List UInt8} {a : α} {b : β}
    {trap trap' : Prop} (head : Consumes x first a trap) (tail : Consumes (y a) second b trap')
    (long : second ≠ []) : Consumes (x >>= y) (first++second) b trap' := by
  intro s synced starts
  have start : first <+: s.unread := (List.prefix_append _ _).trans starts
  have after := tail _ (synced.moved start.length_le) (rest_starts starts)
  rw [run_bind_ok _ (head.before synced long starts),List.length_append,← Nat.add_assoc,← moved_moved]
  exact after

theorem Consumes.map {x : Action α} {bytes : List UInt8} {a : α} {trap : Prop}
    (consumes : Consumes x bytes a trap) (f : α → β) :
    Consumes (x >>= fun a => pure (f a)) bytes (f a) trap := by
  intro s synced starts
  obtain ⟨free,trapped⟩ := consumes s synced starts
  constructor
  · intro clear
    rw [run_bind_ok _ (free clear)]
    rfl
  · intro caught
    obtain ⟨t,ran⟩ := trapped caught
    exact ⟨t,run_bind_error _ ran⟩

/-- What one reader reads off the same bytes is one value. -/
theorem Consumes.unique {x : Action α} {p q bytes : List UInt8} {a b : α} {trap trap' : Prop}
    (first : Consumes x p a trap) (second : Consumes x q b trap') (starts : p <+: bytes)
    (starts' : q <+: bytes) : a = b := by
  -- a byte more keeps both of them off the end of the last chunk
  obtain ⟨s,_,holds,_⟩ := appends_write (bytes++[0]) _ _ (create_holds (fun _ _ => 0) kBaseSize (by decide))
  obtain ⟨u,_,synced,unread,_⟩ := holds.seek (Nat.zero_le _)
  rw [List.nil_append,List.drop_zero] at unread
  obtain ⟨rest,rfl⟩ := starts
  obtain ⟨rest',split⟩ := starts'
  have padded (more : List UInt8) : more++[0] ≠ [] := List.append_ne_nil_of_right_ne_nil more (List.cons_ne_nil 0 [])
  have ran := first.before synced (padded rest) (by rw [unread,List.append_assoc])
  have ran' := second.before synced (padded rest') (by rw [unread,← split,List.append_assoc])
  rw [ran] at ran'
  injection ran'

/-- A block that may be empty must not be looked for at the end of the last chunk. -/
theorem consumes_read (bytes : List UInt8) : Consumes (read bytes.length) bytes bytes (bytes = []) := by
  by_cases empty : bytes = []
  · subst empty
    intro s synced starts
    have inside := prefix_inside synced starts
    have ran : (read ([] : List UInt8).length).run s = _ := read_zero synced
    rw [List.length_nil,Nat.add_zero] at inside ⊢
    constructor
    · intro clear
      have partly : s.position < s.capacity := Nat.lt_of_le_of_ne inside (fun full => clear ⟨rfl,full⟩)
      rw [List.length_nil,if_pos partly] at ran
      rw [ran,synced.moved_zero]
    · rintro ⟨_,full⟩
      rw [List.length_nil,if_neg (by omega)] at ran
      exact ⟨s,ran⟩
  · exact (takes_read empty).consumes.congr ⟨False.elim,empty⟩

theorem consumes_readStringVint (value : List UInt8) (short : value.length < 2^64) :
    Consumes readStringVint (varint 9 (UInt64.ofNat value.length).toNat ++ value) value (value = []) := by
  have length : (UInt64.ofNat value.length).toNat = value.length := by
    rw [UInt64.toNat_ofNat']
    exact Nat.mod_eq_of_lt short
  apply (takes_readUint64 _).then
  rw [length]
  exact consumes_read value

/-- The loop of the container readers: `size` rounds on the same variable. -/
def times (f : α → Action α) : Nat → α → Action α
  | 0, v => return v
  | size+1, v => do
    let v ← f v
    times f size v

/-- One round for each element of `l`. The last one decides what must not be there. -/
theorem consumes_times (f : α → Action α) (add : α → β → α) (print : β → List UInt8) (trap : β → Prop)
    (long : ∀ b, print b ≠ []) (l : List β) (v : α)
    (each : ∀ b ∈ l, ∀ v, Consumes (f v) (print b) (add v b) (trap b)) :
    Consumes (times f l.length v) (l.flatMap print) (l.foldl add v) (∃ b ∈ l.getLast?, trap b) := by
  induction l generalizing v with
  | nil => exact (takes_pure v).consumes.congr (by simp)
  | cons b l ih =>
    have head := each b (by simp) v
    rw [List.flatMap_cons,List.length_cons,times,List.foldl_cons]
    rcases l with _ | ⟨c,l⟩
    · have only := head.map (fun v => v)
      rw [List.flatMap_nil,List.append_nil]
      exact only.congr (by simp)
    · have rest := ih (add v b) (fun d member => each d (by simp [member]))
      rw [List.getLast?_cons_cons]
      apply head.bind rest
      rw [List.flatMap_cons]
      intro none
      exact long c (List.append_eq_nil_iff.mp none).1

theorem times_keeps {f : α → Action α} (keeps : α → Prop)
    (round : ∀ v s w t, keeps v → (f v).run s = .ok w t → keeps w) {size : Nat} {v w : α} {s t : ByteArray}
    (before : keeps v) (ran : (times f size v).run s = .ok w t) : keeps w := by
  induction size generalizing v s with
  | zero =>
    cases ran
    exact before
  | succ size ih =>
    obtain ⟨u,r,first,rest⟩ := run_bind_returned ran
    exact ih (round _ _ _ _ before first) rest

end Consuming

end MojoImpl.ByteArray
