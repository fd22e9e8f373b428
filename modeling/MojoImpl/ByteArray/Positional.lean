import MojoImpl.ByteArray.Regions
import MojoImpl.ByteArray.Typed

/-! The overloads that take a position. Each of them still uses the current one: `read`
starts in the current chunk, and `getReadBuffers` cuts the length to what is left after it. -/
namespace MojoImpl.ByteArray
open Foundation
variable {s : ByteArray}

section Reading

/-- Where in the store the positional `read` starts. -/
def startAt (s : ByteArray) (position : Nat) : Nat :=
  s.baseSize*(s.position/s.baseSize) + position%s.baseSize

theorem readLoop_past {b : Nat} {nodes : List (List UInt8)} {npos size : Nat}
    (node : ∀ c ∈ nodes, c.length = b) (offset : npos ≤ b) (past : nodes.flatten.length < npos+size) :
    readLoop nodes npos size = none := by
  induction nodes generalizing npos size with
  | nil => rfl
  | cons c rest ih =>
    have first : c.length = b := node c (by simp)
    rw [List.flatten_cons,List.length_append,first] at past
    have more : ¬ size ≤ b-npos := by omega
    have tail : readLoop rest 0 (size-(b-npos)) = none :=
      ih (fun d member => node d (by simp [member])) (Nat.zero_le b) (by omega)
    simp only [readLoop,first,more,if_false,tail,bind,Option.bind]

theorem flatten_from (synced : s.Synced) (k : Nat) : (s.chunks.drop k).flatten = s.store.drop (s.baseSize*k) :=
  drop_flatten s.chunks k synced.node

theorem window_from (synced : s.Synced) (k i n : Nat) :
    window (s.chunks.drop k).flatten i n = window s.store (s.baseSize*k+i) n := by
  rw [flatten_from synced,window,window,List.drop_drop]

theorem readAt_run (synced : s.Synced) {n : Nat} (some_byte : 1 ≤ n) (p : Nat) :
    (readAt n p).run s =
      if sizeSub s.size p < n then .error .outOfRange s
      else if s.startAt p + n ≤ s.capacity then .ok (window s.store (s.startAt p) n) s
      else .error .nullDeref s := by
  have nonzero : n ≠ 0 := by omega
  have total := synced.store_length
  have offset : p%s.baseSize < s.baseSize := Nat.mod_lt _ synced.base
  have nodes : ∀ c ∈ s.chunks.drop (s.position/s.baseSize), c.length = s.baseSize :=
    fun c member => synced.node c (List.mem_of_mem_drop member)
  have left : (s.chunks.drop (s.position/s.baseSize)).flatten.length =
      s.capacity-s.baseSize*(s.position/s.baseSize) := by
    rw [flatten_from synced,List.length_drop,total]
  by_cases short : sizeSub s.size p < n
  · simp only [EStateM.run,readAt,short,if_true]
  by_cases fits : s.startAt p + n ≤ s.capacity
  · have inside : s.position/s.baseSize < s.chunks.length := by
      by_contra past
      have least := Nat.mul_le_mul_left s.baseSize (Nat.not_lt.mp past)
      rw [← synced.capacity] at least
      unfold startAt at fits
      omega
    have loop := readLoop_spec synced.base _ (p%s.baseSize) n nodes offset some_byte
      (by rw [left]; unfold startAt at fits; omega)
    rw [window_from synced] at loop
    rw [if_neg short,if_pos fits]
    simp only [EStateM.run,readAt,short,nonzero,if_false,synced.cur,nodeAt_inside inside,loop,startAt]
  · -- the loop runs off the last node, if there is one to start in
    have loop : readLoop (s.chunks.drop (s.position/s.baseSize)) (p%s.baseSize) n = none := by
      apply readLoop_past nodes (Nat.le_of_lt offset)
      rw [left]
      unfold startAt at fits
      omega
    have cur := synced.cur
    unfold nodeAt at cur
    split at cur <;> simp only [EStateM.run,readAt,short,nonzero,fits,if_false,cur,loop]

/-- `read(buf, n, p)` gives the bytes at `p`, as `read(buf, n)` does from there, or throws
where they are not all data. That it takes them from their places shows in an array of this shape
whatever bytes its chunks hold. -/
def ReadsAt (s : ByteArray) (n p : Nat) : Prop :=
  if p+n ≤ s.size then
    ∀ chunks : List (List UInt8), chunks.map List.length = s.chunks.map List.length →
      (readAt n p).run { s with chunks } = .ok (window chunks.flatten p n) { s with chunks } ∧
      ∃ t, (setPosition p >>= fun _ => read n).run { s with chunks } = .ok (window chunks.flatten p n) t
  else (readAt n p).run s = .error .outOfRange s

theorem seek_read (synced : s.Synced) {n p : Nat} (some_byte : 1 ≤ n) (inside : p+n ≤ s.size) :
    ∃ t, (setPosition p >>= fun _ => read n).run s = .ok (window s.store p n) t := by
  obtain ⟨t,sought,synced',data,size,position,_⟩ := synced.seek (v := p) (by omega)
  have unread : t.unread = (s.store.take s.size).drop p := by rw [unread_taken,data,position]
  have long := unread_length synced'
  have bytes : t.unread.take n = window s.store p n := by
    rw [unread,window,List.drop_take,List.take_take,Nat.min_eq_left (by omega)]
  exact ⟨_,by rw [run_bind_ok _ sought,read_ok synced' some_byte (by omega),bytes]⟩

theorem Synced.withChunks (synced : s.Synced) {chunks : List (List UInt8)}
    (shape : chunks.map List.length = s.chunks.map List.length) : Synced { s with chunks } := by
  have count : chunks.length = s.chunks.length := by
    have lengths := congrArg List.length shape
    rwa [List.length_map,List.length_map] at lengths
  refine ⟨synced.base,?_,?_,synced.ordered,synced.inside,?_,?_⟩
  · intro c member
    have listed : c.length ∈ s.chunks.map List.length := shape ▸ List.mem_map_of_mem member
    obtain ⟨d,there,same⟩ := List.mem_map.mp listed
    exact same.symm.trans (synced.node d there)
  · change s.capacity = s.baseSize*chunks.length
    rw [count]
    exact synced.capacity
  · change s.cur = nodeAt chunks (s.position/s.baseSize)
    rw [synced.cur,nodeAt,nodeAt,count]
  · change chunks ≠ []
    exact List.ne_nil_of_length_pos (count ▸ List.length_pos_iff.mpr synced.root)

theorem flatten_getElem {b : Nat} {nodes : List (List UInt8)} (node : ∀ c ∈ nodes, c.length = b) {k i : Nat}
    (inside : k < nodes.length) (offset : i < b) : nodes.flatten[b*k+i]? = nodes[k][i]? := by
  have first : nodes[k].length = b := node _ (List.getElem_mem inside)
  rw [← List.getElem?_drop,← drop_flatten nodes k node,List.drop_eq_getElem_cons inside,List.flatten_cons,
    List.getElem?_append_left (by omega)]

theorem window_first (l : List UInt8) (i : Nat) {n : Nat} (some_byte : 1 ≤ n) : (window l i n)[0]? = l[i]? := by
  rw [window,List.getElem?_take_of_lt some_byte,List.getElem?_drop,Nat.add_zero]

/-- Chunks of the same lengths in which only those of one number hold other bytes than 0. -/
def marked (chunks : List (List UInt8)) (k : Nat) : List (List UInt8) :=
  chunks.mapIdx fun j c => List.replicate c.length (if j = k then 1 else 0)

theorem marked_lengths (chunks : List (List UInt8)) (k : Nat) :
    (marked chunks k).map List.length = chunks.map List.length := by
  apply List.ext_getElem
  · simp [marked]
  · intro j left right
    simp [marked]

/-- The walk from the current chunk takes what is at the offset of `p` there, so the bytes at
`p` only when that is the chunk of `p`. -/
theorem startAt_place (synced : s.Synced) {n p : Nat} (some_byte : 1 ≤ n) (inside : p+n ≤ s.size)
    (fits : s.startAt p+n ≤ s.capacity)
    (same : ∀ chunks : List (List UInt8), chunks.map List.length = s.chunks.map List.length →
      window chunks.flatten (s.startAt p) n = window chunks.flatten p n) :
    p/s.baseSize = s.position/s.baseSize := by
  have shape := marked_lengths s.chunks (p/s.baseSize)
  have synced' := synced.withChunks shape
  have capacity : s.capacity = s.baseSize*(marked s.chunks (p/s.baseSize)).length := synced'.capacity
  have offset : p%s.baseSize < s.baseSize := Nat.mod_lt _ synced.base
  have below (k : Nat) (reached : s.baseSize*k+p%s.baseSize+n ≤ s.capacity) :
      k < (marked s.chunks (p/s.baseSize)).length := by
    by_contra past
    have least := Nat.mul_le_mul_left s.baseSize (Nat.not_lt.mp past)
    omega
  have byte (k : Nat) (there : k < (marked s.chunks (p/s.baseSize)).length) :
      (marked s.chunks (p/s.baseSize)).flatten[s.baseSize*k+p%s.baseSize]? =
        some (if k = p/s.baseSize then 1 else 0) := by
    rw [flatten_getElem synced'.node there offset]
    have long := synced'.node _ (List.getElem_mem there)
    rw [List.getElem?_eq_getElem (by rw [long]; exact offset)]
    simp [marked]
  have bound := synced.inside
  have place : p = s.baseSize*(p/s.baseSize)+p%s.baseSize := (Nat.div_add_mod p s.baseSize).symm
  have first := congrArg (fun l => l[0]?) (same _ shape)
  rw [window_first _ _ some_byte,window_first _ _ some_byte,startAt,byte _ (below _ fits)] at first
  have there := byte (p/s.baseSize) (below _ (by omega))
  rw [← place] at there
  rw [there,if_pos rfl] at first
  by_contra other
  rw [if_neg (fun same => other same.symm)] at first
  contradiction

/-- The positional `read` is right in the current chunk. Past the data it throws unless the
difference to `m_size` wraps around. -/
theorem inUse_readsAt (heap : Nat → Nat → UInt8) (b : Nat) (positive : 1 ≤ b) (s : ByteArray)
    (used : InUse heap b s) (n p : Nat) (some_byte : 1 ≤ n) :
    s.ReadsAt n p ↔
      if p+n ≤ s.size then p/b = s.position/b else s.size < p → s.size + 2^64 - p < n := by
  obtain ⟨synced,rfl⟩ := inUse_synced positive used
  unfold ReadsAt
  by_cases inside : p+n ≤ s.size
  · have enough : ¬ sizeSub s.size p < n := by
      rw [sizeSub,if_pos (by omega)]
      omega
    have ran {chunks : List (List UInt8)} (shape : chunks.map List.length = s.chunks.map List.length) :
        (readAt n p).run { s with chunks } =
          if s.startAt p+n ≤ s.capacity then .ok (window chunks.flatten (s.startAt p) n) { s with chunks }
          else .error .nullDeref { s with chunks } := by
      have walked := readAt_run (synced.withChunks shape) some_byte p
      rwa [if_neg (show ¬ sizeSub ({ s with chunks } : ByteArray).size p < n from enough)] at walked
    rw [if_pos inside,if_pos inside]
    constructor
    · intro right
      have fits : s.startAt p+n ≤ s.capacity := by
        by_contra past
        have read := (right s.chunks rfl).1
        rw [ran rfl,if_neg past] at read
        contradiction
      refine startAt_place synced some_byte inside fits fun chunks shape => ?_
      have read := (right chunks shape).1
      rw [ran shape,if_pos fits] at read
      injection read
    · intro here chunks shape
      have place : s.startAt p = p := by
        rw [startAt,← here]
        exact Nat.div_add_mod p s.baseSize
      have bound := synced.inside
      rw [ran shape,place,if_pos (by omega)]
      exact ⟨rfl,seek_read (synced.withChunks shape) some_byte inside⟩
  · rw [if_neg inside,if_neg inside,readAt_run synced some_byte p]
    by_cases short : sizeSub s.size p < n
    · rw [if_pos short]
      refine ⟨fun _ past => ?_,fun _ => rfl⟩
      rwa [sizeSub,if_neg (by omega)] at short
    · rw [if_neg short]
      unfold sizeSub at short
      constructor
      · intro same
        split at same <;> cases same
      · intro wrapped
        split at short
        · omega
        · exact absurd (wrapped (by omega)) short

/-- Reading at a place in the current chunk, before the position. -/
theorem inUse_readsAt_sameChunk : ∃ s, InUse (fun _ _ => 0) 4 s ∧ s.position = 3 ∧ s.ReadsAt 2 1 := by
  have used : InUse (fun _ _ => 0) 4 _ := .returned _ _ (.write [5,6,7]) .create rfl
  exact ⟨_,used,rfl,(inUse_readsAt (fun _ _ => 0) 4 (by decide) _ used 2 1 (by decide)).mpr (by decide)⟩

/-- Three bytes in chunks of two: from the second chunk, the byte at 0 is not the one read. -/
theorem inUse_readsAt_otherChunk :
    ¬∀ s, InUse (fun _ _ => 0) 2 s → ∀ n p, 1 ≤ n → s.ReadsAt n p := by
  intro right
  have read := right _ (.returned _ _ (.write [5,6,7]) .create rfl) 1 0 (by decide) _ rfl
  exact nomatch read.1

end Reading

section Regions

/-- The regions of `m` bytes at `p`, walked to from `m_root`. -/
def regionsAt (s : ByteArray) (p m : Nat) : Option (List Region) :=
  if m = 0 then some []
  else regionLoop (s.chunks.drop (p/s.baseSize)) (p/s.baseSize) (p%s.baseSize) m

theorem regionsAt_some (synced : s.Synced) {p m : Nat} (fits : p+m ≤ s.capacity) :
    ∃ regions, s.regionsAt p m = some regions ∧ covered s.chunks regions = window s.store p m ∧
      Within s.baseSize s.chunks (p+m) regions := by
  by_cases none_asked : m = 0
  · refine ⟨[],if_pos none_asked,?_,fun _ member => nomatch member⟩
    rw [none_asked,window,List.take_zero]
    rfl
  · have split := Nat.div_add_mod p s.baseSize
    have total := synced.store_length
    obtain ⟨regions,loop,bytes,within⟩ := regionLoop_spec synced.node (p/s.baseSize) (p%s.baseSize) m
      (Nat.mod_lt _ synced.base) (Nat.pos_of_ne_zero none_asked)
      (by rw [flatten_from synced,List.length_drop]; omega)
    rw [window_from synced,split] at bytes
    rw [split] at within
    exact ⟨regions,by rw [regionsAt,if_neg none_asked,loop],bytes,within⟩

theorem cut_length (synced : s.Synced) (len : Nat) :
    (if s.getReadSize < len then s.getReadSize else len) = min len (s.size-s.position) := by
  rw [getReadSize_eq synced]
  split <;> omega

theorem getReadBuffersAt_run (synced : s.Synced) (buffers : List Region) (len p : Nat) :
    (getReadBuffersAt buffers len p).run s =
      match s.regionsAt p (min len (s.size-s.position)) with
      | some regions => .ok (min len (s.size-s.position),buffers++regions) s
      | none => .error .nullDeref s := by
  simp only [EStateM.run,getReadBuffersAt,cut_length synced]
  unfold regionsAt
  split
  · next none_asked => simp only [none_asked,List.append_nil]
  · split <;> simp only [*]

theorem getReadBuffers_run (synced : s.Synced) (buffers : List Region) (len : Nat) :
    (getReadBuffers buffers len).run s =
      match s.regionsAt s.position (min len (s.size-s.position)) with
      | some regions => .ok (min len (s.size-s.position),buffers++regions) s
      | none => .error .nullDeref s := by
  have cur := synced.cur
  unfold nodeAt at cur
  simp only [EStateM.run,getReadBuffers,cut_length synced,cur]
  unfold regionsAt
  split
  · next none_asked => simp only [none_asked,List.append_nil]
  · by_cases inside : s.position/s.baseSize < s.chunks.length
    · simp only [inside,if_true]
      split <;> simp only [*]
    · have past : s.chunks.drop (s.position/s.baseSize) = [] := List.drop_eq_nil_of_le (Nat.not_lt.mp inside)
      simp only [inside,if_false,past,regionLoop]

/-- `getReadBuffers(buffers, len, p)` hands out the data at `p`, `len` bytes of it at most, as
`getReadBuffers(buffers, len)` does from there. -/
def HandsOutAt (s : ByteArray) (len p : Nat) : Prop :=
  ∃ regions,
    (∀ buffers, (getReadBuffersAt buffers len p).run s = .ok (min len (s.size-p),buffers++regions) s) ∧
    (∃ t, (setPosition p).run s = .ok () t ∧
      ∀ buffers, (getReadBuffers buffers len).run t = .ok (min len (s.size-p),buffers++regions) t) ∧
    covered s.chunks regions = window s.store p (min len (s.size-p)) ∧
    Within s.baseSize s.chunks s.size regions

/-- The positional overload is right for the current position, and elsewhere for a length
that is left after both places. -/
theorem inUse_handsOutAt (heap : Nat → Nat → UInt8) (b : Nat) (positive : 1 ≤ b) (s : ByteArray)
    (used : InUse heap b s) (len p : Nat) (inside : p ≤ s.size) :
    s.HandsOutAt len p ↔ p = s.position ∨ (len ≤ s.size-p ∧ len ≤ s.size-s.position) := by
  obtain ⟨synced,_⟩ := inUse_synced positive used
  have ordered := synced.ordered
  have bound := synced.inside
  have same_cut : min len (s.size-s.position) = min len (s.size-p) ↔
      p = s.position ∨ (len ≤ s.size-p ∧ len ≤ s.size-s.position) := by omega
  rw [← same_cut]
  constructor
  · rintro ⟨regions,ran,_⟩
    have returned := ran []
    rw [getReadBuffersAt_run synced] at returned
    split at returned
    · injection returned with pair
      exact congrArg Prod.fst pair
    · contradiction
  · intro same
    obtain ⟨regions,found,bytes,within⟩ := regionsAt_some synced (p := p) (m := min len (s.size-p)) (by omega)
    refine ⟨regions,?_,⟨s.sought p,setPosition_run synced (by omega),?_⟩,bytes,?_⟩
    · intro buffers
      rw [getReadBuffersAt_run synced,same,found]
    · intro buffers
      have size : (s.sought p).size = s.size := Nat.max_eq_left inside
      have there : (s.sought p).regionsAt (s.sought p).position (min len (s.size-(s.sought p).position)) =
        some regions := found
      rw [getReadBuffers_run (synced.sought (by omega)),size,there]
      rfl
    · intro r member
      obtain ⟨long,chunk,one,limit⟩ := within r member
      exact ⟨long,chunk,one,by omega⟩

/-- A byte that is left both after the position and at the place asked for. -/
theorem inUse_handsOutAt_short : ∃ s, InUse (fun _ _ => 0) 2 s ∧ s.position = 2 ∧ s.HandsOutAt 1 0 := by
  have used : InUse (fun _ _ => 0) 2 _ :=
    .returned _ _ (.setPosition 2) (.returned _ _ (.write [5,6,7]) .create rfl) rfl
  exact ⟨_,used,rfl,(inUse_handsOutAt (fun _ _ => 0) 2 (by decide) _ used 1 0 (by decide)).mpr (by decide)⟩

/-- At the end of the data nothing is left to be handed out, wherever it is asked for. -/
theorem inUse_handsOutAt_atEnd :
    ¬∀ s, InUse (fun _ _ => 0) 2 s → ∀ len p, p ≤ s.size → s.HandsOutAt len p := by
  intro right
  obtain ⟨regions,ran,_⟩ := right _ (.returned _ _ (.write [5,6,7]) .create rfl) 1 0 (by decide)
  exact nomatch ran []

end Regions

end MojoImpl.ByteArray
