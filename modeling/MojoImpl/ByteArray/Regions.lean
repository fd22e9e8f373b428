import MojoImpl.ByteArray.Refinement

/-! The calls that hand out regions of the chunks instead of copying bytes, and the states
a buffer gets into when its callers use them too. -/
namespace MojoImpl.ByteArray
open Foundation

/-- An `iovec` into a chunk: `iov_base` is the chunk and the offset in it. -/
structure Region where
  chunk : Nat
  offset : Nat
  len : Nat
  deriving DecidableEq, Repr

/-- The loop of the three calls, over the nodes from the `i`-th on. -/
def regionLoop : List (List UInt8) → Nat → Nat → Nat → Option (List Region)
  | [], _, _, _ => none
  | node::next, i, npos, len =>
    let ncap := node.length - npos
    if len ≤ ncap then some [⟨i,npos,len⟩]
    else do
      let rest ← regionLoop next (i+1) 0 (len-ncap)
      some (⟨i,npos,ncap⟩ :: rest)

def getReadBuffers (buffers : List Region) (len : Nat) : Action (Nat × List Region) := fun s =>
  let len := if s.getReadSize < len then s.getReadSize else len
  if len = 0 then .ok (0,buffers) s else
  match s.cur with
  | none => .error .nullDeref s
  | some i =>
    match regionLoop (s.chunks.drop i) i (s.position % s.baseSize) len with
    | none => .error .nullDeref s
    | some regions => .ok (len,buffers++regions) s

/-- The overload with a position. The length is cut to what is left after the current
position, and the walk starts from `m_root`. -/
def getReadBuffersAt (buffers : List Region) (len position : Nat) : Action (Nat × List Region) := fun s =>
  let len := if s.getReadSize < len then s.getReadSize else len
  if len = 0 then .ok (0,buffers) s else
  let count := position / s.baseSize
  match regionLoop (s.chunks.drop count) count (position % s.baseSize) len with
  | none => .error .nullDeref s
  | some regions => .ok (len,buffers++regions) s

def getWriteBuffers (buffers : List Region) (len : Nat) : Action (Nat × List Region) := fun s =>
  if len = 0 then .ok (0,buffers) s else
  let s := s.addCapacity len
  match s.cur with
  | none => .error .nullDeref s
  | some i =>
    match regionLoop (s.chunks.drop i) i (s.position % s.baseSize) len with
    | none => .error .nullDeref s
    | some regions => .ok (len,buffers++regions) s

/-- The bytes that regions cover, one region after the other. -/
def covered (chunks : List (List UInt8)) (regions : List Region) : List UInt8 :=
  regions.flatMap fun r => window (chunks.getD r.chunk []) r.offset r.len

/-- Somebody who was handed out a region copies bytes into it. -/
def fill (s : ByteArray) (r : Region) (bytes : List UInt8) : ByteArray :=
  { s with chunks := s.chunks.modify r.chunk fun node => splice node r.offset bytes }

section Walking

/-- Regions in the chunks, each of some bytes and inside one chunk, that end by `limit`. -/
def Within (b : Nat) (chunks : List (List UInt8)) (limit : Nat) (regions : List Region) : Prop :=
  ∀ r ∈ regions, 0 < r.len ∧ r.chunk < chunks.length ∧ r.offset+r.len ≤ b ∧
    b*r.chunk+r.offset+r.len ≤ limit

theorem regionLoop_spec {b : Nat} {chunks : List (List UInt8)} (node : ∀ c ∈ chunks, c.length = b)
    (i npos len : Nat) (offset : npos < b) (some_byte : 0 < len)
    (fits : npos+len ≤ (chunks.drop i).flatten.length) :
    ∃ regions, regionLoop (chunks.drop i) i npos len = some regions ∧
      covered chunks regions = window (chunks.drop i).flatten npos len ∧
      Within b chunks (b*i+npos+len) regions := by
  obtain ⟨nodes,from_i⟩ : ∃ nodes, nodes = chunks.drop i := ⟨_,rfl⟩
  rw [← from_i] at fits ⊢
  induction nodes generalizing i npos len with
  | nil =>
    rw [List.flatten_nil,List.length_nil] at fits
    omega
  | cons c rest ih =>
    have inside : i < chunks.length := by
      have some_node : 0 < (chunks.drop i).length := by
        rw [← from_i]
        exact Nat.succ_pos _
      rw [List.length_drop] at some_node
      omega
    have here : chunks[i]? = some c := by
      rw [← List.head?_drop,← from_i]
      rfl
    have later : rest = chunks.drop (i+1) := by
      rw [← List.tail_drop,← from_i]
      rfl
    have first : c.length = b := node c (List.mem_of_getElem? here)
    have held : chunks.getD i [] = c := by rw [List.getD_eq_getElem?_getD,here,Option.getD_some]
    by_cases within : len ≤ b-npos
    · refine ⟨[⟨i,npos,len⟩],?_,?_,?_⟩
      · simp only [regionLoop,first,within,if_true]
      · rw [List.flatten_cons,window_append_left _ _ _ _ (by omega)]
        simp only [covered,List.flatMap_cons,List.flatMap_nil,List.append_nil,held]
      · intro r member
        cases List.mem_singleton.mp member
        exact ⟨some_byte,inside,by change npos+len ≤ b; omega,Nat.le_refl _⟩
    · have enough : 0+(len-(b-npos)) ≤ rest.flatten.length := by
        rw [List.flatten_cons,List.length_append,first] at fits
        omega
      obtain ⟨regions,loop,bytes,ends⟩ := ih (i+1) 0 (len-(b-npos)) (by omega) (by omega) enough later
      refine ⟨⟨i,npos,b-npos⟩ :: regions,?_,?_,?_⟩
      · simp only [regionLoop,first,within,if_false,loop,bind,Option.bind]
      · rw [List.flatten_cons,window_append_split c rest.flatten npos len (by omega) (by omega),first,
          ← bytes]
        simp only [covered,List.flatMap_cons,held]
      · have step : b*(i+1) = b*i+b := Nat.mul_succ b i
        intro r member
        rcases List.mem_cons.mp member with rfl | later
        · exact ⟨by change 0 < b-npos; omega,inside,by change npos+(b-npos) ≤ b; omega,
            by change b*i+npos+(b-npos) ≤ _; omega⟩
        · obtain ⟨long,chunk,one,limit⟩ := ends r later
          exact ⟨long,chunk,one,by omega⟩

end Walking

section Use

theorem fill_synced {s : ByteArray} (synced : s.Synced) (r : Region) (bytes : List UInt8)
    (inside : r.offset+bytes.length ≤ s.baseSize) : (s.fill r bytes).Synced where
  base := synced.base
  node c member := by
    obtain ⟨k,bound,same⟩ := List.getElem_of_mem member
    have old : k < s.chunks.length := by simpa [fill] using bound
    have sized := synced.node _ (List.getElem_mem old)
    simp only [fill,List.getElem_modify] at same
    split at same
    · rw [← same,splice_length _ _ _ (by omega)]
      exact sized
    · rw [← same]
      exact sized
  capacity := by
    change s.capacity = s.baseSize*(s.chunks.modify _ _).length
    rw [List.length_modify]
    exact synced.capacity
  ordered := synced.ordered
  inside := synced.inside
  cur := by
    change s.cur = nodeAt (s.chunks.modify _ _) _
    rw [synced.cur,nodeAt,nodeAt,List.length_modify]
    rfl
  root := by
    change s.chunks.modify _ _ ≠ []
    rw [Ne,List.modify_eq_nil_iff]
    exact synced.root

theorem getWriteBuffers_state {s t : ByteArray} {buffers : List Region} {len : Nat}
    {result : Nat × List Region} (ran : (getWriteBuffers buffers len).run s = .ok result t) :
    t = s.addCapacity len := by
  simp only [EStateM.run,getWriteBuffers] at ran
  split at ran
  · next none_asked =>
    cases ran
    rw [addCapacity,if_pos none_asked]
  · split at ran
    · contradiction
    · split at ran
      · contradiction
      · cases ran
        rfl

/-- The states a fresh buffer of base size `b` can be brought to by all its public calls.
The typed writers and readers and `readFromFile` are made of these, and the const ones
change nothing. -/
inductive InUse (heap : Nat → Nat → UInt8) (b : Nat) : ByteArray → Prop
  | create : InUse heap b (ByteArray.create heap b)
  | returned (s t : ByteArray) (call : Call) (before : InUse heap b s)
      (ran : call.action.run s = .ok () t) : InUse heap b t
  | thrown (s t : ByteArray) (call : Call) (before : InUse heap b s)
      (ran : call.action.run s = .error .outOfRange t) : InUse heap b t
  | getWriteBuffers (s t : ByteArray) (buffers : List Region) (len : Nat) (result : Nat × List Region)
      (before : InUse heap b s) (ran : (getWriteBuffers buffers len).run s = .ok result t) : InUse heap b t
  | filled (s : ByteArray) (r : Region) (bytes : List UInt8) (before : InUse heap b s)
      (inside : r.offset+bytes.length ≤ s.baseSize) : InUse heap b (s.fill r bytes)

theorem inUse_synced {heap : Nat → Nat → UInt8} {b : Nat} (positive : 0 < b) {s : ByteArray}
    (used : InUse heap b s) : s.Synced ∧ s.baseSize = b := by
  induction used with
  | create => exact ⟨create_synced heap b positive,rfl⟩
  | returned s t call before ran ih =>
    obtain ⟨next,base⟩ := call_synced ih.1 call t (.inl ⟨(),ran⟩)
    exact ⟨next,base.trans ih.2⟩
  | thrown s t call before ran ih =>
    obtain ⟨next,base⟩ := call_synced ih.1 call t (.inr ran)
    exact ⟨next,base.trans ih.2⟩
  | getWriteBuffers s t buffers len result before ran ih =>
    obtain ⟨more,grown,base,_⟩ := addCapacity_spec ih.1 len
    rw [getWriteBuffers_state ran]
    exact ⟨grown,base.trans ih.2⟩
  | filled s r bytes before inside ih => exact ⟨fill_synced ih.1 r bytes inside,ih.2⟩

end Use

end MojoImpl.ByteArray
