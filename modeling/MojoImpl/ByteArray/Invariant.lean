import MojoImpl.ByteArray.Chunks
import MojoImpl.Foundation.Action
import MojoImpl.Foundation.FlatBuffer

/-! The cursor invariant of the chunked buffer and what each primitive does under it.
Every primitive is described through the flat store, the chunks laid end to end. -/
namespace MojoImpl.ByteArray
open Foundation

/-- `m_position` and `m_cur` name the same place: the node holding the byte at the
position, or null exactly when the position is the end of the last node. -/
structure Synced (s : ByteArray) : Prop where
  base : 0 < s.baseSize
  node : ∀ c ∈ s.chunks, c.length = s.baseSize
  capacity : s.capacity = s.baseSize * s.chunks.length
  ordered : s.position ≤ s.size
  inside : s.size ≤ s.capacity
  cur : s.cur = nodeAt s.chunks (s.position / s.baseSize)
  root : s.chunks ≠ []

def store (s : ByteArray) : List UInt8 := s.chunks.flatten

theorem flatten_length {b : Nat} (nodes : List (List UInt8)) (node : ∀ c ∈ nodes, c.length = b) :
    nodes.flatten.length = b * nodes.length := by
  induction nodes with
  | nil => simp
  | cons c rest ih =>
    have first := node c (by simp)
    have others := ih (fun d member => node d (by simp [member]))
    rw [List.flatten_cons,List.length_append,first,others,List.length_cons,Nat.mul_succ]
    omega

theorem Synced.store_length {s : ByteArray} (synced : s.Synced) : s.store.length = s.capacity := by
  rw [store,flatten_length _ synced.node,synced.capacity]

theorem nodeAt_inside {nodes : List (List UInt8)} {k : Nat} (inside : k < nodes.length) :
    nodeAt nodes k = some k := if_pos inside

theorem nodeAt_past {nodes : List (List UInt8)} {k : Nat} (past : nodes.length ≤ k) :
    nodeAt nodes k = none := if_neg (Nat.not_lt.mpr past)

theorem position_node {s : ByteArray} (synced : s.Synced) :
    s.position / s.baseSize < s.chunks.length ↔ s.position < s.capacity := by
  rw [synced.capacity,Nat.div_lt_iff_lt_mul synced.base,Nat.mul_comm]

/-- The flat store from the current node on is the store from the last node
boundary before the position. -/
theorem drop_flatten {b : Nat} (nodes : List (List UInt8)) (i : Nat)
    (node : ∀ c ∈ nodes, c.length = b) : (nodes.drop i).flatten = nodes.flatten.drop (b * i) := by
  induction nodes generalizing i with
  | nil => simp
  | cons c rest ih =>
    cases i with
    | zero => simp
    | succ i =>
      have first := node c (by simp)
      have split : b * (i+1) = c.length + b * i := by rw [first,Nat.mul_succ]; omega
      rw [List.drop_succ_cons,ih i (fun d member => node d (by simp [member])),
        List.flatten_cons,split,List.drop_append]
      simp

theorem writeLoop_spec {b : Nat} (positive : 0 < b) (nodes : List (List UInt8)) (npos : Nat)
    (buf : List UInt8) (node : ∀ c ∈ nodes, c.length = b) (offset : npos < b)
    (some_byte : buf ≠ []) (fits : npos+buf.length ≤ nodes.flatten.length) :
    ∃ out, writeLoop nodes npos buf = some (out,(npos+buf.length)/b) ∧
      out.flatten = splice nodes.flatten npos buf ∧ out.length = nodes.length ∧
      ∀ c ∈ out, c.length = b := by
  have nonempty : 0 < buf.length := List.length_pos_iff.mpr some_byte
  induction nodes generalizing npos buf with
  | nil =>
    rw [List.flatten_nil,List.length_nil] at fits
    omega
  | cons c rest ih =>
    have first : c.length = b := node c (by simp)
    have others : ∀ d ∈ rest, d.length = b := fun d member => node d (by simp [member])
    by_cases within : buf.length ≤ b-npos
    · refine ⟨splice c npos buf :: rest,?_,?_,by simp,?_⟩
      · have hops : (if b = npos+buf.length then 1 else 0) = (npos+buf.length)/b := by
          split
          · next full => rw [← full,Nat.div_self positive]
          · next short => rw [Nat.div_eq_of_lt (by omega)]
        simp only [writeLoop,first,within,if_true,hops]
      · rw [List.flatten_cons,List.flatten_cons,splice_append_left _ _ _ _ (by omega)]
      · intro d member
        rcases List.mem_cons.mp member with rfl | inside
        · rw [splice_length _ _ _ (by omega),first]
        · exact others d inside
    · -- the node is filled to its end and the loop goes on at offset 0 of the next one
      have rest_size : (buf.drop (b-npos)).length = buf.length-(b-npos) := List.length_drop
      have enough : 0+(buf.drop (b-npos)).length ≤ rest.flatten.length := by
        rw [List.flatten_cons,List.length_append,first] at fits
        omega
      obtain ⟨out,found,flat,count,sizes⟩ := ih 0 (buf.drop (b-npos)) others positive
        (List.ne_nil_of_length_pos (by omega)) enough (by omega)
      refine ⟨splice c npos (buf.take (b-npos)) :: out,?_,?_,by simp [count],?_⟩
      · have hops : (0+(buf.drop (b-npos)).length)/b+1 = (npos+buf.length)/b := by
          rw [rest_size,← Nat.add_div_right _ positive]
          congr 1
          omega
        simp only [writeLoop,first,within,if_false,found,bind,Option.bind,hops]
      · rw [List.flatten_cons,List.flatten_cons,flat,
          splice_append_split c rest.flatten npos buf (by omega) (by omega),first]
      · intro d member
        rcases List.mem_cons.mp member with rfl | inside
        · rw [splice_length _ _ _ (by rw [List.length_take]; omega),first]
        · exact sizes d inside

theorem readLoop_spec {b : Nat} (positive : 0 < b) (nodes : List (List UInt8)) (npos size : Nat)
    (node : ∀ c ∈ nodes, c.length = b) (offset : npos < b) (some_byte : 0 < size)
    (fits : npos+size ≤ nodes.flatten.length) :
    readLoop nodes npos size = some (window nodes.flatten npos size,(npos+size)/b) := by
  induction nodes generalizing npos size with
  | nil =>
    rw [List.flatten_nil,List.length_nil] at fits
    omega
  | cons c rest ih =>
    have first : c.length = b := node c (by simp)
    have others : ∀ d ∈ rest, d.length = b := fun d member => node d (by simp [member])
    by_cases within : size ≤ b-npos
    · have hops : (if b = npos+size then 1 else 0) = (npos+size)/b := by
        split
        · next full => rw [← full,Nat.div_self positive]
        · next short => rw [Nat.div_eq_of_lt (by omega)]
      simp only [readLoop,first,within,if_true,hops]
      rw [List.flatten_cons,window_append_left _ _ _ _ (by omega)]
    · have enough : 0+(size-(b-npos)) ≤ rest.flatten.length := by
        rw [List.flatten_cons,List.length_append,first] at fits
        omega
      have tail := ih 0 (size-(b-npos)) others positive (by omega) enough
      have hops : (0+(size-(b-npos)))/b+1 = (npos+size)/b := by
        rw [← Nat.add_div_right _ positive]
        congr 1
        omega
      simp only [readLoop,first,within,if_false,tail,bind,Option.bind,hops]
      rw [List.flatten_cons,window_append_split c rest.flatten npos size (by omega) (by omega),first]

theorem seekLoop_spec {b : Nat} (positive : 0 < b) (nodes : List (List UInt8)) (v : Nat)
    (node : ∀ c ∈ nodes, c.length = b) (root : nodes ≠ []) (fits : v ≤ nodes.flatten.length) :
    seekLoop nodes v = some (v/b) := by
  induction nodes generalizing v with
  | nil => contradiction
  | cons c rest ih =>
    have first : c.length = b := node c (by simp)
    have others : ∀ d ∈ rest, d.length = b := fun d member => node d (by simp [member])
    rw [List.flatten_cons,List.length_append,first] at fits
    by_cases past : b < v
    · have more : rest ≠ [] := by
        rintro rfl
        simp at fits
        omega
      have tail := ih (v-b) others more (by omega)
      have hops : (v-b)/b+1 = v/b := by
        rw [← Nat.add_div_right _ positive]
        congr 1
        omega
      simp only [seekLoop,first,past,if_true,tail,Option.map_some,hops]
    · have hops : (if v = b then 1 else 0) = v/b := by
        split
        · next full => rw [full,Nat.div_self positive]
        · next short => rw [Nat.div_eq_of_lt (by omega)]
      simp only [seekLoop,first,past,if_false,hops]

def flat (s : ByteArray) (synced : s.Synced) : FlatBuffer UInt8 where
  store := s.store
  position := s.position
  size := s.size
  ordered := synced.ordered
  inside := by rw [synced.store_length]; exact synced.inside

/-- The bytes from the position to the end of the data. -/
def unread (s : ByteArray) : List UInt8 := window s.store s.position (s.size-s.position)

theorem unread_length {s : ByteArray} (synced : s.Synced) : s.unread.length = s.size-s.position :=
  (s.flat synced).unread_length

theorem getReadSize_eq {s : ByteArray} (synced : s.Synced) : s.getReadSize = s.size-s.position :=
  if_pos synced.ordered

theorem getCapacity_eq {s : ByteArray} (synced : s.Synced) :
    s.getCapacity = s.capacity-s.position :=
  if_pos (Nat.le_trans synced.ordered synced.inside)

theorem node_length (heap : Nat → Nat → UInt8) (k size : Nat) : (ByteArray.node heap k size).length = size := by
  simp [ByteArray.node]

theorem create_synced (heap : Nat → Nat → UInt8) (b : Nat) (positive : 0 < b) :
    (create heap b).Synced where
  base := positive
  node := by simp [create,node_length]
  capacity := by simp [create]
  ordered := Nat.le_refl _
  inside := Nat.zero_le _
  cur := by simp [create,nodeAt]
  root := by simp [create]

section Growth

theorem appendNodes_fields (count : Nat) (s : ByteArray) :
    ∃ more : List (List UInt8), more.length = count ∧ (∀ c ∈ more, c.length = s.baseSize) ∧
      (appendNodes count s).chunks = s.chunks ++ more ∧
      (appendNodes count s).capacity = s.capacity + s.baseSize * count ∧
      (appendNodes count s).baseSize = s.baseSize ∧
      (appendNodes count s).position = s.position ∧
      (appendNodes count s).size = s.size ∧ (appendNodes count s).cur = s.cur := by
  induction count generalizing s with
  | zero => exact ⟨[],rfl,by simp,by simp [appendNodes],by simp [appendNodes],rfl,rfl,rfl,rfl⟩
  | succ count ih =>
    obtain ⟨more,size,nodes,chunks,capacity,base,position,data,cur⟩ := ih s.appendNode
    refine ⟨ByteArray.node s.heap s.allocated s.baseSize :: more,by simp [size],?_,?_,?_,base,position,data,cur⟩
    · intro c member
      rcases List.mem_cons.mp member with rfl | inside
      · exact node_length _ _ _
      · exact nodes c inside
    · simp only [appendNodes,chunks]
      simp [appendNode]
    · have next : s.appendNode.capacity = s.capacity+s.baseSize := rfl
      have same : s.appendNode.baseSize = s.baseSize := rfl
      rw [appendNodes,capacity,next,same,Nat.mul_succ]
      omega

/-- Growing keeps the data and the cursor, and afterwards the position has room for
`n` more bytes. A null `m_cur` is moved to the first new node. -/
theorem addCapacity_spec {s : ByteArray} (synced : s.Synced) (n : Nat) :
    ∃ more : List UInt8, (s.addCapacity n).Synced ∧ (s.addCapacity n).baseSize = s.baseSize ∧
      (s.addCapacity n).position = s.position ∧ (s.addCapacity n).size = s.size ∧
      (s.addCapacity n).store = s.store ++ more ∧
      s.position+n ≤ (s.addCapacity n).capacity := by
  have room := getCapacity_eq synced
  have low : s.position ≤ s.capacity := Nat.le_trans synced.ordered synced.inside
  by_cases zero : n = 0
  · have same : s.addCapacity n = s := if_pos zero
    refine ⟨[],?_⟩
    rw [same,List.append_nil,zero]
    exact ⟨synced,rfl,rfl,rfl,rfl,low⟩
  by_cases enough : n ≤ s.getCapacity
  · have same : s.addCapacity n = s := by rw [addCapacity,if_neg zero,if_pos enough]
    refine ⟨[],?_⟩
    rw [same,List.append_nil]
    exact ⟨synced,rfl,rfl,rfl,rfl,by omega⟩
  obtain ⟨count,count_def⟩ : ∃ count, count = (n-s.getCapacity+s.baseSize-1)/s.baseSize := ⟨_,rfl⟩
  have positive := synced.base
  have covered : n-s.getCapacity ≤ s.baseSize*count := by
    have division := Nat.div_add_mod (n-s.getCapacity+s.baseSize-1) s.baseSize
    have remainder := Nat.mod_lt (n-s.getCapacity+s.baseSize-1) positive
    rw [← count_def] at division
    omega
  have some_node : 0 < count := Nat.pos_of_ne_zero (by rintro rfl; omega)
  obtain ⟨more,more_count,nodes,chunks,capacity,base,position,data,cur⟩ := appendNodes_fields count s
  have shape : (s.addCapacity n).chunks = s.chunks ++ more ∧
      (s.addCapacity n).capacity = s.capacity+s.baseSize*count ∧
      (s.addCapacity n).baseSize = s.baseSize ∧ (s.addCapacity n).position = s.position ∧
      (s.addCapacity n).size = s.size ∧
      (s.addCapacity n).cur = if s.getCapacity = 0 then nodeAt (s.chunks++more) s.chunks.length
        else s.cur := by
    simp only [addCapacity,zero,enough,if_false,← count_def]
    split <;> simp only [chunks,capacity,base,position,data,cur,true_and]
  obtain ⟨chunks,capacity,base,position,data,cur⟩ := shape
  refine ⟨more.flatten,⟨by rw [base]; exact positive,?_,?_,?_,?_,?_,?_⟩,base,position,data,?_,?_⟩
  · intro c member
    rw [chunks] at member
    rw [base]
    exact (List.mem_append.mp member).elim (synced.node c) (nodes c)
  · rw [capacity,base,chunks,synced.capacity,List.length_append,more_count,Nat.mul_add]
  · rw [position,data]
    exact synced.ordered
  · rw [data,capacity]
    exact Nat.le_add_right_of_le synced.inside
  · rw [cur,position,base,chunks]
    split
    · next full =>
      -- the old position was the end of the last node, so `m_cur` was null
      have last : s.position = s.baseSize*s.chunks.length := by rw [← synced.capacity]; omega
      rw [last,Nat.mul_div_cancel_left _ positive]
    · next partly =>
      have inside := (position_node synced).mpr (by omega)
      rw [synced.cur,nodeAt_inside inside,
        nodeAt_inside (by rw [List.length_append]; exact Nat.lt_add_right _ inside)]
  · rw [chunks]
    simp [synced.root]
  · rw [store,store,chunks,List.flatten_append]
  · rw [capacity]
    omega

end Growth

section Cursor

/-- The state after the cursor has passed `n` bytes. -/
def moved (s : ByteArray) (n : Nat) : ByteArray :=
  { s with position := s.position+n, cur := nodeAt s.chunks ((s.position+n)/s.baseSize) }

@[simp] theorem moved_position (s : ByteArray) (n : Nat) : (s.moved n).position = s.position+n := rfl
@[simp] theorem moved_size (s : ByteArray) (n : Nat) : (s.moved n).size = s.size := rfl
@[simp] theorem moved_capacity (s : ByteArray) (n : Nat) : (s.moved n).capacity = s.capacity := rfl
@[simp] theorem moved_store (s : ByteArray) (n : Nat) : (s.moved n).store = s.store := rfl

@[simp] theorem moved_moved (s : ByteArray) (n m : Nat) : (s.moved n).moved m = s.moved (n+m) := by
  simp [moved,Nat.add_assoc]

theorem Synced.moved {s : ByteArray} (synced : s.Synced) {n : Nat} (fits : n ≤ s.unread.length) :
    (s.moved n).Synced := by
  have size := unread_length synced
  have ordered := synced.ordered
  exact { base := synced.base, node := synced.node, capacity := synced.capacity
          ordered := by rw [moved_position,moved_size]; omega
          inside := synced.inside, cur := rfl, root := synced.root }

theorem unread_moved (s : ByteArray) (n : Nat) : (s.moved n).unread = s.unread.drop n := by
  rw [unread,unread,window_drop,moved_store,moved_position,moved_size,Nat.sub_add_eq]

theorem position_mod (s : ByteArray) :
    s.position = s.baseSize*(s.position/s.baseSize)+s.position%s.baseSize :=
  (Nat.div_add_mod _ _).symm

theorem window_from_node {s : ByteArray} (synced : s.Synced) (n : Nat) :
    window (s.chunks.drop (s.position/s.baseSize)).flatten (s.position%s.baseSize) n =
      window s.store s.position n := by
  rw [drop_flatten _ _ synced.node,window,window,List.drop_drop,← position_mod s,store]

theorem hops_from_node {s : ByteArray} (synced : s.Synced) (n : Nat) :
    s.position/s.baseSize+(s.position%s.baseSize+n)/s.baseSize = (s.position+n)/s.baseSize := by
  have place := position_mod s
  calc s.position/s.baseSize+(s.position%s.baseSize+n)/s.baseSize
      = (s.position%s.baseSize+n+s.baseSize*(s.position/s.baseSize))/s.baseSize := by
        rw [Nat.add_mul_div_left _ _ synced.base,Nat.add_comm]
    _ = (s.position+n)/s.baseSize := by
        congr 1
        omega

theorem readLoop_cursor {s : ByteArray} (synced : s.Synced) {n : Nat} (some_byte : 0 < n)
    (fits : n ≤ s.unread.length) :
    s.cur = some (s.position/s.baseSize) ∧
      readLoop (s.chunks.drop (s.position/s.baseSize)) (s.position%s.baseSize) n =
        some (s.unread.take n,(s.position%s.baseSize+n)/s.baseSize) := by
  have size := unread_length synced
  have bound := synced.inside
  have inside := (position_node synced).mpr (by omega)
  have enough : s.position%s.baseSize+n ≤ (s.chunks.drop (s.position/s.baseSize)).flatten.length := by
    have total := synced.store_length
    have split := position_mod s
    rw [store] at total
    rw [drop_flatten _ _ synced.node,List.length_drop]
    omega
  refine ⟨by rw [synced.cur,nodeAt_inside inside],?_⟩
  rw [readLoop_spec synced.base _ _ n (fun c member => synced.node c (List.mem_of_mem_drop member))
    (Nat.mod_lt _ synced.base) some_byte enough,window_from_node synced,unread,
    window_take _ _ _ _ (by omega)]

theorem read_ok {s : ByteArray} (synced : s.Synced) {n : Nat} (some_byte : 0 < n)
    (fits : n ≤ s.unread.length) : (read n).run s = .ok (s.unread.take n) (s.moved n) := by
  have size := unread_length synced
  obtain ⟨cur,loop⟩ := readLoop_cursor synced some_byte fits
  have long : ¬ s.getReadSize < n := by rw [getReadSize_eq synced]; omega
  have nonzero : n ≠ 0 := by omega
  simp only [EStateM.run,read,long,nonzero,if_false,cur,loop,hops_from_node synced]
  rfl

theorem read_short {s : ByteArray} (synced : s.Synced) {n : Nat} (short : s.unread.length < n) :
    (read n).run s = .error .outOfRange s := by
  have size := unread_length synced
  have few : s.getReadSize < n := by rw [getReadSize_eq synced]; omega
  simp only [EStateM.run,read,few,if_true]

/-- Asking for no byte still looks through `m_cur`. -/
theorem read_zero {s : ByteArray} (synced : s.Synced) :
    (read 0).run s = if s.position < s.capacity then .ok [] s else .error .nullDeref s := by
  split
  · next partly =>
    have inside := (position_node synced).mpr partly
    simp [EStateM.run,read,synced.cur,nodeAt_inside inside]
  · next full =>
    have past := Nat.not_lt.mp (mt (position_node synced).mp full)
    simp [EStateM.run,read,synced.cur,nodeAt_past past]

end Cursor

end MojoImpl.ByteArray
