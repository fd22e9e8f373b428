import MojoImpl.ByteArray.Positional

/-! `writeToFile` and `readFromFile` over a file that is a list of bytes and never fails. An
`int64_t` holds every size in use, an `int` does not. -/
namespace MojoImpl.ByteArray
open Foundation

section Loops

/-- One `ofs.write(cur->ptr + diff, len)`. -/
structure FileWrite where
  chunk : Nat
  diff : Int
  len : Int
  deriving DecidableEq, Repr

/-- The loop of `writeToFile`, over the nodes from the `i`-th on. `diff` is narrowed to an `int`. -/
def writeToFileLoop (b : Nat) : List (List UInt8) → Nat → Int → Int → Option (List FileWrite)
  | [], _, readSize, _ => if 0 < readSize then none else some []
  | _::next, i, readSize, pos =>
    if 0 < readSize then do
      let diff := (pos % (b : Int)).bmod (2^32)
      let len := (if (b : Int) < readSize then (b : Int) else readSize) - diff
      let rest ← writeToFileLoop b next (i+1) (readSize-len) (pos+len)
      some (⟨i,diff,len⟩ :: rest)
    else some []

/-- The calls into the file stream. -/
def writeToFile : Action (List FileWrite) := fun s =>
  let writes := match s.cur with
    | none => writeToFileLoop s.baseSize [] 0 s.getReadSize s.position
    | some i => writeToFileLoop s.baseSize (s.chunks.drop i) i s.getReadSize s.position
  match writes with
  | none => .error .nullDeref s
  | some writes => .ok writes s

/-- At most `rounds` rounds of the loop of `readFromFile`, and whether it ended. A block shorter
than asked for leaves the stream at its end. -/
def readFromFileLoop (base : Nat) : Nat → List UInt8 → Action Bool
  | 0, _ => return false
  | rounds+1, file => do
    write (file.take base)
    if (file.take base).length < base then return true
    else readFromFileLoop base rounds (file.drop base)

def readFromFile (rounds : Nat) (file : List UInt8) : Action Bool := fun s =>
  readFromFileLoop s.baseSize rounds file s

end Loops

section Reading

theorem readFromFileLoop_appends {base : Nat} (positive : 0 < base) {rounds : Nat} {file held : List UInt8}
    (enough : file.length < rounds) {s : ByteArray} (holds : s.Holds held) :
    ∃ t, (readFromFileLoop base rounds file).run s = .ok true t ∧ t.Holds (held++file) := by
  induction rounds generalizing file held s with
  | zero => cases enough
  | succ rounds ih =>
    obtain ⟨t,wrote,holds',_⟩ := appends_write (file.take base) s held holds
    rw [readFromFileLoop,run_bind_ok _ wrote]
    by_cases last : (file.take base).length < base
    · have all : file.take base = file := List.take_of_length_le (by
        rw [List.length_take] at last
        omega)
      rw [if_pos last]
      rw [all] at holds'
      exact ⟨t,rfl,holds'⟩
    · have longer : (file.drop base).length < rounds := by
        rw [List.length_take] at last
        rw [List.length_drop]
        omega
      rw [if_neg last]
      obtain ⟨u,ran,more⟩ := ih longer holds'
      rw [List.append_assoc,List.take_append_drop] at more
      exact ⟨u,ran,more⟩

theorem readFromFile_fresh (heap : Nat → Nat → UInt8) {base : Nat} (positive : 0 < base) (file : List UInt8) :
    ∃ rounds t, (readFromFile rounds file).run (create heap base) = .ok true t ∧ t.Holds file :=
  ⟨file.length+1,readFromFileLoop_appends positive (Nat.lt_succ_self _) (create_holds heap base positive)⟩

/-- Blocks of no byte never reach the end of the file. -/
theorem readFromFileLoop_zero (rounds : Nat) (file : List UInt8) (s : ByteArray) :
    (readFromFileLoop 0 rounds file).run s = .ok false s := by
  induction rounds generalizing file with
  | zero => rfl
  | succ rounds ih =>
    rw [readFromFileLoop,List.take_zero,run_bind_ok _ (write_empty s)]
    exact ih _

end Reading

variable {s : ByteArray}

section Writing

/-- Bytes of one live chunk, and some of them. -/
def FileWrite.Proper (s : ByteArray) (w : FileWrite) : Prop :=
  0 < w.len ∧ 0 ≤ w.diff ∧ w.chunk < s.chunks.length ∧ w.diff+w.len ≤ s.baseSize

/-- Where in the store the bytes passed to the file are from. -/
def FileWrite.places (b : Nat) (w : FileWrite) : List Nat := List.range' (b*w.chunk+w.diff.toNat) w.len.toNat

/-- The bytes passed to the file. -/
def fileOf (s : ByteArray) (writes : List FileWrite) : List UInt8 :=
  covered s.chunks (writes.map fun w => ⟨w.chunk,w.diff.toNat,w.len.toNat⟩)

theorem loop_done (b : Nat) (nodes : List (List UInt8)) (i : Nat) {readSize : Int} (pos : Int)
    (done : ¬0 < readSize) : writeToFileLoop b nodes i readSize pos = some [] := by
  cases nodes with
  | nil => rw [writeToFileLoop,if_neg done]
  | cons node next => rw [writeToFileLoop,if_neg done]

theorem loop_step {b : Nat} {node : List UInt8} {next : List (List UInt8)} {i : Nat} {readSize pos diff len : Int}
    (more : 0 < readSize) (narrowed : (pos % (b : Int)).bmod (2^32) = diff)
    (counted : (if (b : Int) < readSize then (b : Int) else readSize) - diff = len) :
    writeToFileLoop b (node::next) i readSize pos =
      (writeToFileLoop b next (i+1) (readSize-len) (pos+len)).map (⟨i,diff,len⟩ :: ·) := by
  subst narrowed counted
  rw [writeToFileLoop,if_pos more,Option.map_eq_bind]
  rfl

/-- From the start of a chunk the loop passes one chunk after the other. -/
theorem loop_aligned {b : Nat} (positive : 0 < b) (nodes : List (List UInt8)) (i : Nat) {n : Nat}
    (fits : n ≤ b*nodes.length) :
    ∃ writes, writeToFileLoop b nodes i n ((b*i : Nat) : Int) = some writes ∧
      (∀ w ∈ writes, 0 < w.len ∧ 0 ≤ w.diff ∧ w.chunk < i+nodes.length ∧ w.diff+w.len ≤ b) ∧
      writes.flatMap (FileWrite.places b) = List.range' (b*i) n := by
  induction nodes generalizing i n with
  | nil =>
    have none_left : n = 0 := by simpa using fits
    subst none_left
    exact ⟨[],loop_done b [] i _ (by decide),by simp,rfl⟩
  | cons node next ih =>
    by_cases none_left : n = 0
    · subst none_left
      exact ⟨[],loop_done b _ i _ (by decide),by simp,rfl⟩
    have more : (0 : Int) < n := by omega
    have start : (((b*i : Nat) : Int) % (b : Int)).bmod (2^32) = 0 := by
      rw [← Int.natCast_emod,Nat.mul_mod_right]
      rfl
    have step : b*(i+1) = b*i+b := Nat.mul_succ b i
    have size : b*(node::next).length = b*next.length+b := by rw [List.length_cons,Nat.mul_succ]
    by_cases whole : b ≤ n
    · have counted : (if (b : Int) < n then (b : Int) else n) - 0 = b := by
        split <;> omega
      obtain ⟨writes,ran,proper,places⟩ := ih (i+1) (show n-b ≤ b*next.length by omega)
      have left : (n : Int) - b = ((n-b : Nat) : Int) := by omega
      have pos : ((b*i : Nat) : Int) + b = ((b*(i+1) : Nat) : Int) := by omega
      refine ⟨⟨i,0,b⟩ :: writes,?_,?_,?_⟩
      · rw [loop_step more start counted,left,pos,ran]
        rfl
      · intro w member
        rcases List.mem_cons.mp member with rfl | later
        · refine ⟨?_,?_,?_,?_⟩ <;> simp only [List.length_cons] <;> omega
        · obtain ⟨long,low,chunk,one⟩ := proper w later
          rw [List.length_cons]
          exact ⟨long,low,by omega,one⟩
      · rw [List.flatMap_cons,places,FileWrite.places,step]
        change List.range' (b*i) b ++ List.range' (b*i+b) (n-b) = List.range' (b*i) n
        rw [List.range'_append_1,Nat.add_sub_cancel' whole]
    · have counted : (if (b : Int) < n then (b : Int) else n) - 0 = n := by
        split <;> omega
      have done : ¬(0 : Int) < (n : Int) - n := by omega
      refine ⟨[⟨i,0,n⟩],?_,?_,?_⟩
      · rw [loop_step more start counted,loop_done b next (i+1) _ done]
        rfl
      · intro w member
        rw [List.mem_singleton.mp member]
        refine ⟨?_,?_,?_,?_⟩ <;> simp only [List.length_cons] <;> omega
      · simp [FileWrite.places]

/-- From inside a chunk the loop passes the rest of it, when as much as a chunk is left. -/
theorem loop_unaligned {b : Nat} (node : List UInt8) (next : List (List UInt8)) (i : Nat) {o n : Nat}
    (inside : o < b) (narrow : o < 2^31) (whole : b ≤ n) (fits : o+n ≤ b*(node::next).length) :
    ∃ writes, writeToFileLoop b (node::next) i n ((b*i+o : Nat) : Int) = some writes ∧
      (∀ w ∈ writes, 0 < w.len ∧ 0 ≤ w.diff ∧ w.chunk < i+(node::next).length ∧ w.diff+w.len ≤ b) ∧
      writes.flatMap (FileWrite.places b) = List.range' (b*i+o) n := by
  have size : b*(node::next).length = b*next.length+b := by rw [List.length_cons,Nat.mul_succ]
  have step : b*(i+1) = b*i+b := Nat.mul_succ b i
  obtain ⟨writes,ran,proper,places⟩ := loop_aligned (Nat.zero_lt_of_lt inside) next (i+1)
    (show n-(b-o) ≤ b*next.length by omega)
  have more : (0 : Int) < n := by omega
  have start : (((b*i+o : Nat) : Int) % (b : Int)).bmod (2^32) = o := by
    rw [← Int.natCast_emod,Nat.mul_add_mod,Nat.mod_eq_of_lt inside]
    exact Int.bmod_eq_of_le (by omega) (by omega)
  have counted : (if (b : Int) < n then (b : Int) else n) - o = ((b-o : Nat) : Int) := by
    split <;> omega
  have left : (n : Int) - ((b-o : Nat) : Int) = ((n-(b-o) : Nat) : Int) := by omega
  have pos : ((b*i+o : Nat) : Int) + ((b-o : Nat) : Int) = ((b*(i+1) : Nat) : Int) := by omega
  refine ⟨⟨i,o,(b-o : Nat)⟩ :: writes,?_,?_,?_⟩
  · rw [loop_step more start counted,left,pos,ran]
    rfl
  · intro w member
    rcases List.mem_cons.mp member with rfl | later
    · refine ⟨?_,?_,?_,?_⟩ <;> simp only [List.length_cons] <;> omega
    · obtain ⟨long,low,chunk,one⟩ := proper w later
      rw [List.length_cons]
      exact ⟨long,low,by omega,one⟩
  · have rest : b*i+b = b*i+o+(b-o) := by omega
    rw [List.flatMap_cons,places,step,rest]
    change List.range' (b*i+o) (b-o) ++ List.range' (b*i+o+(b-o)) (n-(b-o)) = List.range' (b*i+o) n
    rw [List.range'_append_1,Nat.add_sub_cancel' (show b-o ≤ n by omega)]

theorem head_place {b p n : Nat} {w : FileWrite} {rest : List Nat} (long : 0 < w.len)
    (same : w.places b ++ rest = List.range' p n) : b*w.chunk+w.diff.toNat = p := by
  obtain ⟨k,sized⟩ : ∃ k, w.len.toNat = k+1 := ⟨w.len.toNat-1,by omega⟩
  rw [FileWrite.places,sized,List.range'_succ,List.cons_append] at same
  cases n with
  | zero => cases same
  | succ n => exact (List.cons.inj same).1

/-- From inside a chunk with less than a chunk left the loop passes a length that is not
positive or a place behind the wrong chunk, or it runs off the last node. -/
theorem loop_strays {b : Nat} {node : List UInt8} {next : List (List UInt8)} {i o n : Nat} {writes : List FileWrite}
    (some_byte : 0 < n) (stray : ¬(o < 2^31 ∧ (o = 0 ∨ b ≤ n)))
    (ran : writeToFileLoop b (node::next) i n ((b*i+o : Nat) : Int) = some writes)
    (proper : ∀ w ∈ writes, 0 < w.len ∧ 0 ≤ w.diff) :
    writes.flatMap (FileWrite.places b) ≠ List.range' (b*i+o) n := by
  intro places
  have more : (0 : Int) < n := by omega
  obtain ⟨d,narrowed⟩ : ∃ d, (((b*i+o : Nat) : Int) % (b : Int)).bmod (2^32) = d := ⟨_,rfl⟩
  have bounded : d < 2^31 := narrowed ▸ Int.bmod_lt (by decide)
  rw [loop_step more narrowed rfl] at ran
  obtain ⟨rest,later,same⟩ := Option.map_eq_some_iff.mp ran
  subst same
  obtain ⟨long,low⟩ := proper _ List.mem_cons_self
  dsimp only at long low
  rw [List.flatMap_cons] at places
  -- the narrowed offset is the right one, or the first byte is from a wrong place
  have exact : d = o := by
    have head := head_place long places
    dsimp only at head
    omega
  obtain ⟨unaligned,short⟩ : o ≠ 0 ∧ n < b := by omega
  have smaller : ¬(b : Int) < n := by omega
  rw [if_neg smaller,exact] at long later places
  have left : (n : Int) - (n - o) = o := by omega
  rw [left] at later
  -- the rest of the same chunk is asked of the next one
  cases next with
  | nil =>
    rw [writeToFileLoop,if_pos (by omega)] at later
    cases later
  | cons node' next =>
    rw [loop_step (by omega) rfl rfl] at later
    obtain ⟨rest',_,same⟩ := Option.map_eq_some_iff.mp later
    subst same
    obtain ⟨long',_⟩ := proper _ (List.mem_cons_of_mem _ List.mem_cons_self)
    have cut : List.range' (b*i+o) n = FileWrite.places b ⟨i,o,n-o⟩ ++ List.range' (b*i+n) o := by
      have sized : ((n : Int) - o).toNat = n-o := by omega
      have place : b*i+n = b*i+o+(n-o) := by omega
      rw [FileWrite.places,sized,place]
      change _ = List.range' (b*i+o) (n-o) ++ _
      rw [List.range'_append_1,Nat.sub_add_cancel (by omega)]
    rw [cut] at places
    have tail := List.append_cancel_left places
    rw [List.flatMap_cons] at tail
    have head := head_place long' tail
    dsimp only at head
    rw [Nat.mul_succ] at head
    omega

end Writing

section Places

theorem window_eq_map {l : List UInt8} {i n : Nat} (fits : i+n ≤ l.length) :
    window l i n = (List.range' i n).map fun k => l.getD k 0 := by
  apply List.ext_getElem
  · rw [window_length _ _ _ fits,List.length_map,List.length_range']
  · intro k left right
    rw [window_length _ _ _ fits] at left
    have there : i+k < l.length := by omega
    simp only [window,List.getElem_take,List.getElem_drop,List.getElem_map,List.getElem_range',Nat.one_mul,
      List.getD_eq_getElem?_getD,List.getElem?_eq_getElem there,Option.getD_some]

theorem window_chunk (synced : s.Synced) {k i n : Nat} (inside : k < s.chunks.length) (fits : i+n ≤ s.baseSize) :
    window (s.chunks.getD k []) i n = window s.store (s.baseSize*k+i) n := by
  have held : s.chunks.drop k = s.chunks[k] :: s.chunks.drop (k+1) := List.drop_eq_getElem_cons inside
  have sized : s.chunks[k].length = s.baseSize := synced.node _ (List.getElem_mem inside)
  rw [← window_from synced,held,List.flatten_cons,window_append_left _ _ _ _ (by omega),
    List.getD_eq_getElem?_getD,List.getElem?_eq_getElem inside]
  rfl

/-- What is in the file is what is at the places. -/
theorem fileOf_places (synced : s.Synced) {writes : List FileWrite} (proper : ∀ w ∈ writes, w.Proper s) :
    s.fileOf writes = (writes.flatMap (FileWrite.places s.baseSize)).map fun k => s.store.getD k 0 := by
  rw [fileOf,covered,List.flatMap_map,List.map_flatMap]
  apply List.flatMap_congr
  intro w member
  obtain ⟨long,low,chunk,one⟩ := proper w member
  have fits : w.diff.toNat+w.len.toNat ≤ s.baseSize := by omega
  have room : s.baseSize*w.chunk+w.diff.toNat+w.len.toNat ≤ s.store.length := by
    have next := Nat.mul_le_mul_left s.baseSize (Nat.succ_le_of_lt chunk)
    rw [Nat.mul_succ,← synced.capacity,← synced.store_length] at next
    omega
  rw [window_chunk synced chunk fits,window_eq_map room]
  rfl

end Places

section RoundTrip

/-- `writeToFile` passes the bytes from the position to the end of the data to the file, some of
one live chunk at a time, and `readFromFile` gets them back into a fresh array of base size `b'`. -/
def FileRoundTrips (s : ByteArray) (heap : Nat → Nat → UInt8) (b' : Nat) : Prop :=
  ∃ writes, writeToFile.run s = .ok writes s ∧ (∀ w ∈ writes, w.Proper s) ∧
    writes.flatMap (FileWrite.places s.baseSize) = List.range' s.position (s.size-s.position) ∧
    s.fileOf writes = s.unread ∧
    ∃ rounds t, (readFromFile rounds (s.fileOf writes)).run (create heap b') = .ok true t ∧
      t.store.take t.size = s.unread

theorem writeToFile_run (synced : s.Synced) :
    writeToFile.run s = match writeToFileLoop s.baseSize (s.chunks.drop (s.position/s.baseSize))
        (s.position/s.baseSize) ((s.size-s.position : Nat) : Int) s.position with
      | none => .error .nullDeref s
      | some writes => .ok writes s := by
  have cur := synced.cur
  unfold nodeAt at cur
  simp only [EStateM.run,writeToFile,getReadSize_eq synced,cur]
  by_cases inside : s.position/s.baseSize < s.chunks.length
  · simp only [inside,if_true]
  · have past : s.chunks.drop (s.position/s.baseSize) = [] := List.drop_eq_nil_of_le (Nat.not_lt.mp inside)
    simp only [inside,if_false,past,writeToFileLoop]

theorem Synced.writeToFile (synced : s.Synced)
    (straight : s.size = s.position ∨ s.position%s.baseSize < 2^31 ∧
      (s.position%s.baseSize = 0 ∨ s.baseSize ≤ s.size-s.position)) :
    ∃ writes, ByteArray.writeToFile.run s = .ok writes s ∧ (∀ w ∈ writes, w.Proper s) ∧
      writes.flatMap (FileWrite.places s.baseSize) = List.range' s.position (s.size-s.position) := by
  have ordered := synced.ordered
  have bound := synced.inside
  have capacity := synced.capacity
  have place := position_mod s
  have offset : s.position%s.baseSize < s.baseSize := Nat.mod_lt _ synced.base
  rw [writeToFile_run synced]
  by_cases none_left : s.size = s.position
  · rw [loop_done _ _ _ _ (by omega)]
    exact ⟨[],rfl,by simp,by rw [none_left,Nat.sub_self]; rfl⟩
  · have inside := (position_node synced).mpr (by omega)
    obtain ⟨node,next,nodes⟩ : ∃ node next, s.chunks.drop (s.position/s.baseSize) = node::next :=
      ⟨_,_,List.drop_eq_getElem_cons inside⟩
    have count : (node::next).length = s.chunks.length-s.position/s.baseSize := by rw [← nodes,List.length_drop]
    have total : s.position/s.baseSize+(node::next).length = s.chunks.length := by omega
    have fits : s.position%s.baseSize+(s.size-s.position) ≤ s.baseSize*(node::next).length := by
      rw [count,Nat.mul_sub]
      omega
    obtain ⟨narrow,aligned⟩ := straight.resolve_left none_left
    unfold FileWrite.Proper
    rw [nodes,← total]
    by_cases start : s.position%s.baseSize = 0
    · have here : s.position = s.baseSize*(s.position/s.baseSize) := by omega
      obtain ⟨writes,ran,proper,places⟩ := loop_aligned synced.base (node::next) (s.position/s.baseSize)
        (show s.size-s.position ≤ s.baseSize*(node::next).length by omega)
      rw [← here] at ran places
      rw [ran]
      exact ⟨writes,rfl,proper,places⟩
    · obtain ⟨writes,ran,proper,places⟩ := loop_unaligned node next (s.position/s.baseSize)
        offset narrow (aligned.resolve_left start) fits
      rw [← place] at ran places
      rw [ran]
      exact ⟨writes,rfl,proper,places⟩

theorem Synced.unread_map (synced : s.Synced) :
    s.unread = (List.range' s.position (s.size-s.position)).map fun k => s.store.getD k 0 := by
  have ordered := synced.ordered
  have bound := synced.inside
  exact window_eq_map (by rw [synced.store_length]; omega)

/-- The file gets the unread bytes where the position is at the start of a chunk, or at least a
chunk is left after it, and its offset in the chunk fits into an `int`. -/
theorem inUse_fileRoundTrips (heap : Nat → Nat → UInt8) (b : Nat) (positive : 1 ≤ b) (s : ByteArray)
    (used : InUse heap b s) (heap' : Nat → Nat → UInt8) (b' : Nat) :
    s.FileRoundTrips heap' b' ↔ 0 < b' ∧ (s.size = s.position ∨
      s.position%b < 2^31 ∧ (s.position%b = 0 ∨ b ≤ s.size-s.position)) := by
  obtain ⟨synced,rfl⟩ := inUse_synced positive used
  have ordered := synced.ordered
  have bound := synced.inside
  constructor
  · rintro ⟨writes,ran,proper,places,-,rounds,t,back,-⟩
    constructor
    · by_contra zero
      have zero : b' = 0 := by omega
      subst zero
      cases (readFromFileLoop_zero rounds _ (create heap' 0)).symm.trans back
    · by_contra stray
      obtain ⟨some_byte,stray⟩ := not_or.mp stray
      have inside := (position_node synced).mpr (by omega)
      obtain ⟨node,next,nodes⟩ : ∃ node next, s.chunks.drop (s.position/s.baseSize) = node::next :=
        ⟨_,_,List.drop_eq_getElem_cons inside⟩
      have place := position_mod s
      rw [writeToFile_run synced,nodes] at ran
      split at ran
      · contradiction
      · next writes' looped =>
        cases ran
        have moved : (s.position : Int) = ((s.baseSize*(s.position/s.baseSize)+s.position%s.baseSize : Nat) : Int) :=
          congrArg Nat.cast place
        rw [moved] at looped
        have strays := loop_strays (by omega) stray looped fun w member => ⟨(proper w member).1,(proper w member).2.1⟩
        rw [← place] at strays
        exact strays places
  · rintro ⟨positive',straight⟩
    obtain ⟨writes,ran,proper,places⟩ := synced.writeToFile straight
    have file : s.fileOf writes = s.unread := by rw [fileOf_places synced proper,places,synced.unread_map]
    obtain ⟨rounds,t,back,holds⟩ := readFromFile_fresh heap' positive' (s.fileOf writes)
    exact ⟨writes,ran,proper,places,file,rounds,t,back,holds.data.trans file⟩

/-- Five of six bytes, from inside the first chunk of four. -/
theorem inUse_fileRoundTrips_inside :
    ∃ s, InUse (fun _ _ => 0) 4 s ∧ s.position = 1 ∧ s.size = 6 ∧ s.FileRoundTrips (fun _ _ => 0) 3 := by
  have used : InUse (fun _ _ => 0) 4 _ :=
    .returned _ _ (.setPosition 1) (.returned _ _ (.write [5,6,7,8,9,10]) .create rfl) rfl
  exact ⟨_,used,rfl,rfl,
    (inUse_fileRoundTrips (fun _ _ => 0) 4 (by decide) _ used (fun _ _ => 0) 3).mpr (by decide)⟩

/-- The last three of six bytes, across the end of the first chunk of four: the lengths are zero
until the loop runs off the last node. -/
theorem inUse_fileStrays :
    ¬∀ s, InUse (fun _ _ => 0) 4 s → ∀ b', 1 ≤ b' → s.FileRoundTrips (fun _ _ => 0) b' := by
  intro all
  obtain ⟨writes,ran,_⟩ := all _
    (.returned _ _ (.setPosition 3) (.returned _ _ (.write [5,6,7,8,9,10]) .create rfl) rfl) 4 (by decide)
  contradiction

end RoundTrip

end MojoImpl.ByteArray
