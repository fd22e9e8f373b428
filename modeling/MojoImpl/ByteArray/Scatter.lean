import MojoImpl.ByteArray.Positional
import MojoImpl.ByteArray.EmptyReads

/-! The regions at the current position against `read` and `write`: reading through them and
filling them one after the other does what these two do with one block. -/
namespace MojoImpl.ByteArray
open Foundation

/-- The bytes the regions have together. -/
def totalLen (regions : List Region) : Nat := (regions.map Region.len).sum

/-- Somebody copies `buf` into regions in order, into each as much as it takes. -/
def fills (s : ByteArray) : List Region → List UInt8 → ByteArray
  | [], _ => s
  | r::regions, buf => (s.fill r (buf.take r.len)).fills regions (buf.drop r.len)

/-- Two regions without a common byte. -/
def Disjoint (r r' : Region) : Prop :=
  r.chunk ≠ r'.chunk ∨ r.offset+r.len ≤ r'.offset ∨ r'.offset+r'.len ≤ r.offset

section Loop

theorem regionLoop_total {nodes : List (List UInt8)} {i npos len : Nat} {regions : List Region}
    (loop : regionLoop nodes i npos len = some regions) : totalLen regions = len := by
  induction nodes generalizing i npos len regions with
  | nil => cases loop
  | cons node next ih =>
    simp only [regionLoop] at loop
    split at loop
    · cases loop
      exact Nat.add_zero len
    · next more =>
      obtain ⟨rest,walked,same⟩ := Option.bind_eq_some_iff.mp loop
      cases same
      have total := ih walked
      unfold totalLen at total ⊢
      rw [List.map_cons,List.sum_cons,total]
      exact Nat.add_sub_cancel' (Nat.le_of_lt (Nat.not_le.mp more))

theorem regionLoop_chunks {nodes : List (List UInt8)} {i npos len : Nat} {regions : List Region}
    (loop : regionLoop nodes i npos len = some regions) :
    (∀ r ∈ regions, i ≤ r.chunk) ∧ regions.Pairwise fun r r' => r.chunk < r'.chunk := by
  induction nodes generalizing i npos len regions with
  | nil => cases loop
  | cons node next ih =>
    simp only [regionLoop] at loop
    split at loop
    · cases loop
      exact ⟨by simp,List.pairwise_singleton _ _⟩
    · obtain ⟨rest,walked,same⟩ := Option.bind_eq_some_iff.mp loop
      cases same
      obtain ⟨later,increasing⟩ := ih walked
      refine ⟨fun r member => ?_,List.pairwise_cons.mpr ⟨fun r member => later r member,increasing⟩⟩
      rcases List.mem_cons.mp member with rfl | inside
      · exact Nat.le_refl i
      · exact Nat.le_of_succ_le (later r inside)

theorem regionLoop_disjoint {nodes : List (List UInt8)} {i npos len : Nat} {regions : List Region}
    (loop : regionLoop nodes i npos len = some regions) : regions.Pairwise Disjoint :=
  (regionLoop_chunks loop).2.imp fun later => .inl (Nat.ne_of_lt later)

theorem fill_chunks {s : ByteArray} {before next : List (List UInt8)} {node : List UInt8}
    (chunks : s.chunks = before ++ node :: next) (npos len : Nat) (bytes : List UInt8) :
    (s.fill ⟨before.length,npos,len⟩ bytes) = { s with chunks := before ++ splice node npos bytes :: next } := by
  rw [fill,chunks,List.modify_eq_take_drop,List.take_left,List.drop_left]
  rfl

theorem fills_synced {s : ByteArray} (synced : s.Synced) {regions : List Region}
    (inside : ∀ r ∈ regions, r.offset+r.len ≤ s.baseSize) (buf : List UInt8) : (s.fills regions buf).Synced := by
  induction regions generalizing s buf with
  | nil => exact synced
  | cons r regions ih =>
    have here := inside r List.mem_cons_self
    have taken : (buf.take r.len).length ≤ r.len := List.length_take_le ..
    exact ih (fill_synced synced r _ (by omega)) (fun r' member => inside r' (List.mem_cons_of_mem r member)) _

/-- Filling the regions of the loop gives the nodes that the loop of `write` gives. -/
theorem fills_regionLoop {nodes out : List (List UInt8)} (before : List (List UInt8)) {npos hops : Nat}
    {buf : List UInt8} {regions : List Region} {s : ByteArray} (chunks : s.chunks = before ++ nodes)
    (loop : regionLoop nodes before.length npos buf.length = some regions)
    (wrote : writeLoop nodes npos buf = some (out,hops)) :
    s.fills regions buf = { s with chunks := before ++ out } := by
  induction nodes generalizing before out npos hops buf regions s with
  | nil => cases loop
  | cons node next ih =>
    simp only [regionLoop] at loop
    simp only [writeLoop] at wrote
    by_cases within : buf.length ≤ node.length - npos
    · rw [if_pos within] at loop wrote
      cases loop
      cases wrote
      rw [fills,fills,List.take_length,fill_chunks chunks]
    · rw [if_neg within] at loop wrote
      obtain ⟨rest,walked,same⟩ := Option.bind_eq_some_iff.mp loop
      cases same
      obtain ⟨⟨nodes',hops'⟩,written,same⟩ := Option.bind_eq_some_iff.mp wrote
      cases same
      rw [fills,fill_chunks chunks]
      rw [ih (before ++ [splice node npos (buf.take (node.length-npos))]) (by simp) (by simpa using walked)
        written]
      simp

end Loop

section Read

/-- `getReadBuffers(buffers, len)` appends regions of `m` bytes, each of some bytes and inside one
chunk, and leaves the array as it is. -/
def HandsOut (s : ByteArray) (len m : Nat) (regions : List Region) : Prop :=
  (∀ buffers, (getReadBuffers buffers len).run s = .ok (m,buffers++regions) s) ∧
    (∀ r ∈ regions, 0 < r.len ∧ r.chunk < s.chunks.length ∧ r.offset+r.len ≤ s.baseSize) ∧
    totalLen regions = m

/-- These regions hold what `read` of as many bytes returns. -/
def AgreesWithRead (s : ByteArray) (len : Nat) : Prop :=
  ∃ regions, s.HandsOut len (min len s.getReadSize) regions ∧
    ∃ t, (read (min len s.getReadSize)).run s = .ok (covered s.chunks regions) t

variable {s : ByteArray}

theorem Synced.handsOut (synced : s.Synced) (len : Nat) :
    ∃ regions, s.HandsOut len (min len s.getReadSize) regions ∧
      covered s.chunks regions = s.unread.take (min len s.getReadSize) := by
  have ordered := synced.ordered
  have bound := synced.inside
  rw [getReadSize_eq synced]
  obtain ⟨regions,found,bytes,within⟩ := regionsAt_some synced (p := s.position)
    (m := min len (s.size-s.position)) (by omega)
  refine ⟨regions,⟨fun buffers => ?_,fun r member => ?_,?_⟩,?_⟩
  · rw [getReadBuffers_run synced,found]
  · obtain ⟨some_byte,chunk,inside,-⟩ := within r member
    exact ⟨some_byte,chunk,inside⟩
  · unfold regionsAt at found
    split at found
    · next none_asked =>
      cases found
      exact none_asked.symm
    · exact regionLoop_total found
  · rw [bytes,unread,window_take _ _ _ _ (Nat.min_le_right ..)]

theorem read_unread (synced : s.Synced) {n : Nat} (within : n ≤ s.getReadSize) :
    (∃ t, (read n).run s = .ok (s.unread.take n) t) ↔ 0 < n ∨ s.position < s.capacity := by
  rw [← read_completes_iff synced within]
  refine ⟨fun ⟨t,ran⟩ => ⟨_,t,ran⟩,fun ⟨bytes,t,ran⟩ => ?_⟩
  by_cases zero : n = 0
  · subst zero
    rw [read_zero synced] at ran
    split at ran
    · next partly => exact ⟨s,by rw [read_zero synced,if_pos partly,List.take_zero]⟩
    · cases ran
  · rw [getReadSize_eq synced,← unread_length synced] at within
    exact ⟨_,read_ok synced (Nat.pos_of_ne_zero zero) within⟩

/-- The regions are always handed out and hold the unread bytes; `read` gives the same bytes
where it is asked for some or does not stand at the end of the last chunk. -/
theorem inUse_agreesWithRead (heap : Nat → Nat → UInt8) (b : Nat) (positive : 1 ≤ b) (s : ByteArray)
    (used : InUse heap b s) (len : Nat) :
    (s.AgreesWithRead len ↔ 0 < min len s.getReadSize ∨ s.position < s.capacity) ∧
      ∃ regions, s.HandsOut len (min len s.getReadSize) regions ∧
        covered s.chunks regions = s.unread.take (min len s.getReadSize) := by
  obtain ⟨synced,_⟩ := inUse_synced positive used
  obtain ⟨regions,handed,bytes⟩ := synced.handsOut len
  refine ⟨?_,regions,handed,bytes⟩
  rw [← read_unread synced (Nat.min_le_right len s.getReadSize),AgreesWithRead]
  constructor
  · rintro ⟨regions',handed',agrees⟩
    have returned := (handed'.1 []).symm.trans (handed.1 [])
    injection returned with pair
    have same : regions' = regions := (Prod.mk.inj pair).2
    rwa [same,bytes] at agrees
  · intro agrees
    exact ⟨regions,handed,by rwa [bytes]⟩

/-- Two bytes of three in chunks of two, from the second byte on. -/
theorem inUse_agreesWithRead_across : ∃ s, InUse (fun _ _ => 0) 2 s ∧ s.position = 1 ∧ s.AgreesWithRead 2 := by
  have used : InUse (fun _ _ => 0) 2 _ :=
    .returned _ _ (.setPosition 1) (.returned _ _ (.write [5,6,7]) .create rfl) rfl
  exact ⟨_,used,rfl,(inUse_agreesWithRead (fun _ _ => 0) 2 (by decide) _ used 2).1.mpr (by decide)⟩

/-- At the end of a full chunk nothing is handed out, but `read` of nothing looks through a
null `m_cur`. -/
theorem inUse_disagreesWithRead : ¬∀ s, InUse (fun _ _ => 0) 1 s → ∀ len, s.AgreesWithRead len := by
  intro agrees
  obtain ⟨regions,_,t,ran⟩ := agrees _ (.returned _ _ (.write [7]) .create rfl) 1
  contradiction

end Read

section Write
variable {s : ByteArray}

/-- `getWriteBuffers(buffers, |buf|)`, `buf` copied into the regions in order and `setPosition`
behind it leave what `write(buf)` leaves; the regions are of `|buf|` bytes without a common one. -/
def AgreesWithWrite (s : ByteArray) (buf : List UInt8) : Prop :=
  ∃ g regions t, (∀ buffers, (getWriteBuffers buffers buf.length).run s = .ok (buf.length,buffers++regions) g) ∧
    (∀ r ∈ regions, 0 < r.len ∧ r.chunk < g.chunks.length ∧ r.offset+r.len ≤ g.baseSize) ∧
    totalLen regions = buf.length ∧ regions.Pairwise Disjoint ∧
    (setPosition (s.position+buf.length)).run (g.fills regions buf) = .ok () t ∧ (write buf).run s = .ok () t

theorem getWriteBuffers_run {g : ByteArray} {len : Nat} (some_byte : len ≠ 0) (added : s.addCapacity len = g)
    (cur : g.cur = some (g.position/g.baseSize)) {regions : List Region}
    (loop : regionLoop (g.chunks.drop (g.position/g.baseSize)) (g.position/g.baseSize)
      (g.position%g.baseSize) len = some regions) (buffers : List Region) :
    (getWriteBuffers buffers len).run s = .ok (len,buffers++regions) g := by
  simp only [EStateM.run,getWriteBuffers,some_byte,if_false,added,cur,loop]

/-- Moving the cursor behind the bytes is all that is left of `write` after the chunks are filled. -/
theorem sought_written {nodes : List (List UInt8)} {n : Nat}
    (count : nodes.length = s.chunks.length-s.position/s.baseSize)
    (inside : s.position/s.baseSize < s.chunks.length) :
    ({ s with chunks := s.chunks.take (s.position/s.baseSize) ++ nodes } : ByteArray).sought (s.position+n) =
      s.written nodes n := by
  have same_count : (s.chunks.take (s.position/s.baseSize) ++ nodes).length = s.chunks.length := by
    rw [List.length_append,count,List.length_take]
    omega
  simp only [sought,written,nodeAt,same_count]

theorem Synced.agreesWithWrite (synced : s.Synced) {buf : List UInt8} (some_byte : buf ≠ []) :
    s.AgreesWithWrite buf := by
  have nonempty := List.length_pos_iff.mpr some_byte
  obtain ⟨more,grown,base,position,size,store,room⟩ := addCapacity_spec synced buf.length
  obtain ⟨g,added⟩ : ∃ g, s.addCapacity buf.length = g := ⟨_,rfl⟩
  rw [added] at grown base position size store room
  have room : g.position+buf.length ≤ g.capacity := by rw [position]; exact room
  have inside := (position_node grown).mpr (by omega)
  obtain ⟨cur,nodes,wrote,count,sizes,-⟩ := writeLoop_cursor grown some_byte room
  obtain ⟨regions,found,-,within⟩ := regionsAt_some grown (p := g.position) (m := buf.length) room
  rw [regionsAt,if_neg (by omega)] at found
  have filled : g.fills regions buf = { g with chunks := g.chunks.take (g.position/g.baseSize) ++ nodes } := by
    have before : (g.chunks.take (g.position/g.baseSize)).length = g.position/g.baseSize := by
      rw [List.length_take]
      omega
    exact fills_regionLoop _ (List.take_append_drop ..).symm (by rw [before]; exact found) wrote
  have one_chunk : ∀ r ∈ regions, r.offset+r.len ≤ g.baseSize := fun r member => (within r member).2.2.1
  have synced' := fills_synced grown one_chunk buf
  rw [filled] at synced'
  refine ⟨g,regions,g.written nodes buf.length,fun buffers => ?_,fun r member => ?_,?_,?_,?_,?_⟩
  · exact getWriteBuffers_run (by omega) added cur found buffers
  · obtain ⟨long,chunk,one,-⟩ := within r member
    exact ⟨long,chunk,one⟩
  · exact regionLoop_total found
  · exact regionLoop_disjoint found
  · rw [filled,← sought_written count inside,← position]
    exact setPosition_run synced' room
  · exact write_run some_byte added grown cur wrote

/-- Writing through the regions is `write`, for every array in use and every block. -/
theorem inUse_agreesWithWrite (heap : Nat → Nat → UInt8) (b : Nat) (positive : 1 ≤ b) (s : ByteArray)
    (used : InUse heap b s) (buf : List UInt8) (some_byte : buf ≠ []) : s.AgreesWithWrite buf :=
  (inUse_synced positive used).1.agreesWithWrite some_byte

/-- Three bytes at the end of a full chunk of two, over two new chunks. -/
theorem inUse_agreesWithWrite_full : ∃ s, InUse (fun _ _ => 0) 2 s ∧ s.cur = none ∧ s.AgreesWithWrite [7,8,9] := by
  have used : InUse (fun _ _ => 0) 2 _ := .returned _ _ (.write [5,6]) .create rfl
  exact ⟨_,used,rfl,inUse_agreesWithWrite (fun _ _ => 0) 2 (by decide) _ used [7,8,9] (by decide)⟩

end Write

end MojoImpl.ByteArray
