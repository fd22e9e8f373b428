import MojoImpl.ByteArray.Invariant

/-! The chunked buffer refines a flat buffer over whole runs of its public calls. -/
namespace MojoImpl.ByteArray
open Foundation

/-- `t` keeps its cursor synchronised and looks like the flat buffer `f` from outside. -/
def Shows (t : ByteArray) (f : FlatBuffer UInt8) : Prop := ∃ synced : t.Synced, t.flat synced = f

theorem Synced.shows {s : ByteArray} (synced : s.Synced) : s.Shows (s.flat synced) := ⟨synced,rfl⟩

theorem write_empty (s : ByteArray) : (write []).run s = .ok () s := rfl

/-- The state after `nodes` took the place of the chunks from the current one on and the
cursor passed `n` bytes. -/
def written (s : ByteArray) (nodes : List (List UInt8)) (n : Nat) : ByteArray :=
  { s with
    chunks := s.chunks.take (s.position/s.baseSize) ++ nodes
    cur := nodeAt s.chunks ((s.position+n)/s.baseSize)
    position := s.position+n
    size := max s.size (s.position+n) }

theorem writeLoop_cursor {s : ByteArray} (synced : s.Synced) {buf : List UInt8} (some_byte : buf ≠ [])
    (room : s.position+buf.length ≤ s.capacity) :
    s.cur = some (s.position/s.baseSize) ∧
      ∃ nodes, writeLoop (s.chunks.drop (s.position/s.baseSize)) (s.position%s.baseSize) buf =
          some (nodes,(s.position%s.baseSize+buf.length)/s.baseSize) ∧
        nodes.length = s.chunks.length-s.position/s.baseSize ∧ (∀ c ∈ nodes, c.length = s.baseSize) ∧
        (s.written nodes buf.length).store = splice s.store s.position buf := by
  have nonempty : 0 < buf.length := List.length_pos_iff.mpr some_byte
  have inside := (position_node synced).mpr (by omega)
  have place := position_mod s
  have total := synced.store_length
  have from_node : (s.chunks.drop (s.position/s.baseSize)).flatten =
      s.store.drop (s.baseSize*(s.position/s.baseSize)) := drop_flatten _ _ synced.node
  obtain ⟨nodes,loop,flat_nodes,count,sizes⟩ := writeLoop_spec synced.base
    (s.chunks.drop (s.position/s.baseSize)) (s.position%s.baseSize) buf
    (fun c member => synced.node c (List.mem_of_mem_drop member)) (Nat.mod_lt _ synced.base) some_byte
    (by rw [from_node,List.length_drop]; omega)
  have kept : ((s.chunks.take (s.position/s.baseSize)).flatten).length =
      s.baseSize*(s.position/s.baseSize) := by
    rw [flatten_length _ (fun c member => synced.node c (List.mem_of_mem_take member)),
      List.length_take,Nat.min_eq_left (Nat.le_of_lt inside)]
  have split : s.store = (s.chunks.take (s.position/s.baseSize)).flatten ++
      (s.chunks.drop (s.position/s.baseSize)).flatten := by
    rw [store,← List.flatten_append,List.take_append_drop]
  refine ⟨by rw [synced.cur,nodeAt_inside inside],nodes,loop,by rw [count,List.length_drop],sizes,?_⟩
  change (s.chunks.take (s.position/s.baseSize) ++ nodes).flatten = splice s.store s.position buf
  rw [List.flatten_append,flat_nodes,split,
    splice_append_right _ _ s.position _ (by rw [kept]; omega),kept]
  congr 2
  omega

theorem Synced.written {s : ByteArray} (synced : s.Synced) {nodes : List (List UInt8)} {n : Nat}
    (inside : s.position/s.baseSize < s.chunks.length) (room : s.position+n ≤ s.capacity)
    (count : nodes.length = s.chunks.length-s.position/s.baseSize) (sizes : ∀ c ∈ nodes, c.length = s.baseSize) :
    (s.written nodes n).Synced := by
  have same_count : (s.chunks.take (s.position/s.baseSize) ++ nodes).length = s.chunks.length := by
    rw [List.length_append,count,List.length_take]
    omega
  exact
    { base := synced.base
      node := by
        intro c member
        rcases List.mem_append.mp member with before | after
        · exact synced.node c (List.mem_of_mem_take before)
        · exact sizes c after
      capacity := by
        change s.capacity = s.baseSize*(s.chunks.take (s.position/s.baseSize) ++ nodes).length
        rw [same_count,synced.capacity]
      ordered := Nat.le_max_right _ _
      inside := Nat.max_le.mpr ⟨synced.inside,room⟩
      cur := by
        change nodeAt s.chunks _ = nodeAt (s.chunks.take (s.position/s.baseSize) ++ nodes) _
        rw [nodeAt,nodeAt,same_count]
        rfl
      root := List.ne_nil_of_length_pos (by
        change 0 < (s.chunks.take (s.position/s.baseSize) ++ nodes).length
        rw [same_count]
        exact Nat.zero_lt_of_lt inside) }

theorem write_run {s g : ByteArray} {buf : List UInt8} (some_byte : buf ≠ []) (added : s.addCapacity buf.length = g)
    (grown : g.Synced) (cur : g.cur = some (g.position/g.baseSize)) {nodes : List (List UInt8)}
    (loop : writeLoop (g.chunks.drop (g.position/g.baseSize)) (g.position%g.baseSize) buf =
      some (nodes,(g.position%g.baseSize+buf.length)/g.baseSize)) :
    (write buf).run s = .ok () (g.written nodes buf.length) := by
  have nonempty := List.length_pos_iff.mpr some_byte
  have nonzero : buf.length ≠ 0 := by omega
  simp only [EStateM.run,write,nonzero,if_false,added,cur,loop,hops_from_node grown]
  rfl

theorem write_flat {s : ByteArray} (synced : s.Synced) (buf : List UInt8) :
    ∃ t more fits, (write buf).run s = .ok () t ∧ t.baseSize = s.baseSize ∧
      t.Shows ((s.flat synced).put more buf fits) := by
  by_cases empty : buf = []
  · subst buf
    have low : s.position ≤ s.store.length := by
      rw [synced.store_length]
      exact Nat.le_trans synced.ordered synced.inside
    refine ⟨s,[],by simpa [flat] using low,write_empty s,rfl,synced,?_⟩
    apply FlatBuffer.ext'
    · simp [flat,FlatBuffer.put]
    · simp [flat,FlatBuffer.put]
    · simp [flat,FlatBuffer.put,synced.ordered]
  obtain ⟨more,grown,base,position,size,chunks,room⟩ := addCapacity_spec synced buf.length
  have nonempty : 0 < buf.length := List.length_pos_iff.mpr empty
  have total := grown.store_length
  obtain ⟨cur,nodes,loop,count,sizes,stored⟩ := writeLoop_cursor grown empty (by rw [position]; exact room)
  have inside := (position_node grown).mpr (by omega)
  have fits : (s.flat synced).position+buf.length ≤ (s.flat synced).store.length+more.length := by
    change s.position+buf.length ≤ s.store.length+more.length
    rw [← List.length_append,← chunks,total]
    exact room
  refine ⟨_,more,fits,write_run empty rfl grown cur loop,base,
    grown.written inside (by rw [position]; exact room) count sizes,?_⟩
  apply FlatBuffer.ext'
  · change ((s.addCapacity buf.length).written nodes buf.length).store = splice (s.store++more) s.position buf
    rw [stored,chunks,position]
  · change (s.addCapacity buf.length).position+buf.length = s.position+buf.length
    rw [position]
  · change max (s.addCapacity buf.length).size ((s.addCapacity buf.length).position+buf.length) =
      max s.size (s.position+buf.length)
    rw [position,size]

theorem read_flat {s : ByteArray} (synced : s.Synced) (n : Nat) (some_byte : 1 ≤ n) :
    match (s.flat synced).get n with
    | some (bytes,f) => ∃ t, (read n).run s = .ok bytes t ∧ t.baseSize = s.baseSize ∧ t.Shows f
    | none => (read n).run s = .error .outOfRange s := by
  have size := unread_length synced
  unfold FlatBuffer.get
  by_cases fits : n ≤ s.size-s.position
  · rw [dif_pos (show n ≤ (s.flat synced).size-(s.flat synced).position from fits)]
    refine ⟨s.moved n,?_,rfl,synced.moved (by omega),rfl⟩
    rw [read_ok synced some_byte (by omega),unread,window_take _ _ _ _ fits]
    rfl
  · rw [dif_neg (show ¬ n ≤ (s.flat synced).size-(s.flat synced).position from fits)]
    exact read_short synced (by omega)

/-- The state after the cursor was put at `v`. -/
def sought (s : ByteArray) (v : Nat) : ByteArray :=
  { s with position := v, size := max s.size v, cur := nodeAt s.chunks (v/s.baseSize) }

theorem Synced.sought {s : ByteArray} (synced : s.Synced) {v : Nat} (inside : v ≤ s.capacity) :
    (s.sought v).Synced where
  base := synced.base
  node := synced.node
  capacity := synced.capacity
  ordered := Nat.le_max_right _ _
  inside := Nat.max_le.mpr ⟨synced.inside,inside⟩
  cur := rfl
  root := synced.root

theorem setPosition_run {s : ByteArray} (synced : s.Synced) {v : Nat} (inside : v ≤ s.capacity) :
    (setPosition v).run s = .ok () (s.sought v) := by
  have reach := seekLoop_spec synced.base s.chunks v synced.node synced.root
    (by rw [← store,synced.store_length]; exact inside)
  have near : ¬ s.capacity < v := Nat.not_lt.mpr inside
  simp only [EStateM.run,setPosition,near,if_false,reach]
  rfl

theorem setPosition_flat {s : ByteArray} (synced : s.Synced) (v : Nat) :
    match (s.flat synced).seek v with
    | some f => ∃ t, (setPosition v).run s = .ok () t ∧ t.baseSize = s.baseSize ∧ t.Shows f
    | none => (setPosition v).run s = .error .outOfRange s := by
  have total := synced.store_length
  unfold FlatBuffer.seek
  by_cases fits : v ≤ s.store.length
  · rw [dif_pos (show v ≤ (s.flat synced).store.length from fits)]
    rw [total] at fits
    exact ⟨s.sought v,setPosition_run synced fits,rfl,synced.sought fits,rfl⟩
  · rw [dif_neg (show ¬ v ≤ (s.flat synced).store.length from fits)]
    have past : s.capacity < v := by omega
    simp only [EStateM.run,setPosition,past,if_true]

theorem clear_flat {s : ByteArray} (synced : s.Synced) :
    ∃ t, clear.run s = .ok () t ∧ t.baseSize = s.baseSize ∧
      t.Shows ((s.flat synced).reset s.baseSize) := by
  obtain ⟨root,rest,chunks⟩ := List.exists_cons_of_ne_nil synced.root
  have first : root.length = s.baseSize := synced.node root (by simp [chunks])
  let t : ByteArray := { s with
    position := 0, size := 0, capacity := s.baseSize, chunks := [root], cur := some 0 }
  have run : clear.run s = .ok () t := by
    simp only [EStateM.run,clear,chunks]
    rfl
  have t_synced : t.Synced :=
    { base := synced.base, node := by simp [t,first], capacity := by simp [t]
      ordered := Nat.le_refl _, inside := Nat.zero_le _
      cur := by simp [t,nodeAt], root := by simp [t] }
  refine ⟨t,run,rfl,t_synced,?_⟩
  apply FlatBuffer.ext'
  · change [root].flatten = s.store.take s.baseSize
    rw [store,chunks,← first]
    simp
  · rfl
  · rfl

theorem toString_unread {s : ByteArray} (synced : s.Synced) :
    toString.run s = .ok s.unread s := by
  have size := unread_length synced
  have remaining := getReadSize_eq synced
  by_cases none_left : s.getReadSize = 0
  · have empty : s.unread = [] := List.eq_nil_of_length_eq_zero (by omega)
    simp only [EStateM.run,toString,none_left,if_true,empty]
  · -- the positional overload is asked for the current position, so it starts as `read` does
    obtain ⟨cur,loop⟩ := readLoop_cursor synced (n := s.getReadSize) (by omega) (by omega)
    have bound : ¬ sizeSub s.size s.position < s.getReadSize := Nat.lt_irrefl _
    have all : s.unread.take s.getReadSize = s.unread := List.take_of_length_le (by omega)
    simp only [EStateM.run,toString,readAt,none_left,bound,if_false,cur,loop,all]

section Runs

inductive Call
  | write (buf : List UInt8)
  | read (size : Nat)
  | setPosition (v : Nat)
  | clear
  | toString

def Call.action : Call → Action Unit
  | .write buf => ByteArray.write buf
  | .read size => ByteArray.read size >>= fun _ => pure ()
  | .setPosition v => ByteArray.setPosition v
  | .clear => ByteArray.clear
  | .toString => ByteArray.toString >>= fun _ => pure ()

/-- The states a fresh buffer of base size `b` can be brought to. A caller that
catches `out_of_range` goes on from the state the exception left. -/
inductive Reachable (heap : Nat → Nat → UInt8) (b : Nat) : ByteArray → Prop
  | create : Reachable heap b (ByteArray.create heap b)
  | returned (s t : ByteArray) (call : Call) (before : Reachable heap b s)
      (ran : call.action.run s = .ok () t) : Reachable heap b t
  | thrown (s t : ByteArray) (call : Call) (before : Reachable heap b s)
      (ran : call.action.run s = .error .outOfRange t) : Reachable heap b t

/-- What a call leaves behind when it returns or throws. -/
def Leaves {α : Type} (x : Action α) (s : ByteArray) (P : ByteArray → Prop) : Prop :=
  ∀ t, (∃ a, x.run s = .ok a t) ∨ x.run s = .error .outOfRange t → P t

theorem leaves_ok {α : Type} {x : Action α} {s t : ByteArray} {a : α} {P : ByteArray → Prop}
    (ran : x.run s = .ok a t) (kept : P t) : Leaves x s P := by
  rintro u (⟨b,ok⟩ | error)
  · cases ran.symm.trans ok
    exact kept
  · cases ran.symm.trans error

theorem leaves_error {α : Type} {x : Action α} {s t : ByteArray} {P : ByteArray → Prop}
    (ran : x.run s = .error .outOfRange t) (kept : P t) : Leaves x s P := by
  rintro u (⟨b,ok⟩ | error)
  · cases ran.symm.trans ok
  · cases ran.symm.trans error
    exact kept

theorem call_synced {s : ByteArray} (synced : s.Synced) (call : Call) :
    Leaves call.action s (fun t => t.Synced ∧ t.baseSize = s.baseSize) := by
  cases call with
  | write buf =>
    obtain ⟨t,more,fits,ran,base,next,_⟩ := write_flat synced buf
    exact leaves_ok ran ⟨next,base⟩
  | read n =>
    by_cases zero : n = 0
    · subst n
      have ran := read_zero synced
      by_cases partly : s.position < s.capacity
      · rw [if_pos partly] at ran
        exact leaves_ok (run_bind_ok _ ran) ⟨synced,rfl⟩
      · rw [if_neg partly] at ran
        rintro t (⟨a,ok⟩ | error)
        · cases (run_bind_error _ ran).symm.trans ok
        · cases (run_bind_error _ ran).symm.trans error
    · have ran := read_flat synced n (by omega)
      split at ran
      · obtain ⟨t,ran,base,next,_⟩ := ran
        exact leaves_ok (run_bind_ok _ ran) ⟨next,base⟩
      · exact leaves_error (run_bind_error _ ran) ⟨synced,rfl⟩
  | setPosition v =>
    have ran := setPosition_flat synced v
    split at ran
    · obtain ⟨t,ran,base,next,_⟩ := ran
      exact leaves_ok ran ⟨next,base⟩
    · exact leaves_error ran ⟨synced,rfl⟩
  | clear =>
    obtain ⟨t,ran,base,next,_⟩ := clear_flat synced
    exact leaves_ok ran ⟨next,base⟩
  | toString => exact leaves_ok (run_bind_ok _ (toString_unread synced)) ⟨synced,rfl⟩

theorem reachable_synced {heap : Nat → Nat → UInt8} {b : Nat} (positive : 0 < b) {s : ByteArray}
    (reached : Reachable heap b s) : s.Synced ∧ s.baseSize = b := by
  induction reached with
  | create => exact ⟨create_synced heap b positive,rfl⟩
  | returned s t call before ran ih =>
    obtain ⟨next,base⟩ := call_synced ih.1 call t (.inl ⟨(),ran⟩)
    exact ⟨next,base.trans ih.2⟩
  | thrown s t call before ran ih =>
    obtain ⟨next,base⟩ := call_synced ih.1 call t (.inr ran)
    exact ⟨next,base.trans ih.2⟩

structure RefinesFlat (s : ByteArray) (f : FlatBuffer UInt8) : Prop where
  write : ∀ buf, ∃ t more fits,
    (ByteArray.write buf).run s = .ok () t ∧ t.Shows (f.put more buf fits)
  read : ∀ n, 1 ≤ n → match f.get n with
    | some (bytes,g) => ∃ t, (ByteArray.read n).run s = .ok bytes t ∧ t.Shows g
    | none => (ByteArray.read n).run s = .error .outOfRange s
  setPosition : ∀ v, match f.seek v with
    | some g => ∃ t, (ByteArray.setPosition v).run s = .ok () t ∧ t.Shows g
    | none => (ByteArray.setPosition v).run s = .error .outOfRange s
  clear : ∃ t, ByteArray.clear.run s = .ok () t ∧ t.Shows (f.reset s.baseSize)
  toString : ByteArray.toString.run s = .ok f.unread s

theorem Synced.refinesFlat {s : ByteArray} (synced : s.Synced) : s.RefinesFlat (s.flat synced) where
  write buf := by
    obtain ⟨t,more,fits,ran,_,shows⟩ := write_flat synced buf
    exact ⟨t,more,fits,ran,shows⟩
  read n some_byte := by
    have ran := read_flat synced n some_byte
    split at ran
    · obtain ⟨t,ran,_,shows⟩ := ran
      exact ⟨t,ran,shows⟩
    · exact ran
  setPosition v := by
    have ran := setPosition_flat synced v
    split at ran
    · obtain ⟨t,ran,_,shows⟩ := ran
      exact ⟨t,ran,shows⟩
    · exact ran
  clear := by
    obtain ⟨t,ran,_,shows⟩ := clear_flat synced
    exact ⟨t,ran,shows⟩
  toString := toString_unread synced

theorem cursor_null {s : ByteArray} (synced : s.Synced) :
    s.cur = if s.position = s.capacity then none else some (s.position/s.baseSize) := by
  have low : s.position ≤ s.capacity := Nat.le_trans synced.ordered synced.inside
  rw [synced.cur]
  split
  · next full => exact nodeAt_past (Nat.not_lt.mp (mt (position_node synced).mp (by omega)))
  · next partly => exact nodeAt_inside ((position_node synced).mpr (by omega))

/-- After any run the cursor is synchronised, and every further call is a call on one
flat store of `m_capacity` bytes that dereferences no null node. -/
theorem reachable_refines_flat (heap : Nat → Nat → UInt8) (b : Nat) (positive : 1 ≤ b)
    (s : ByteArray) (reached : Reachable heap b s) :
    s.capacity = b * s.chunks.length ∧ s.position ≤ s.size ∧ s.size ≤ s.capacity ∧
      (s.cur = if s.position = s.capacity then none else some (s.position / b)) ∧
      (∀ i, s.cur = some i → i < s.chunks.length) ∧
      s.baseSize = b ∧ s.store.length = s.capacity ∧
      ∃ f : FlatBuffer UInt8, f.store = s.store ∧ f.position = s.position ∧ f.size = s.size ∧
        s.RefinesFlat f := by
  obtain ⟨synced,base⟩ := reachable_synced positive reached
  refine ⟨base ▸ synced.capacity,synced.ordered,synced.inside,base ▸ cursor_null synced,?_,base,
    synced.store_length,s.flat synced,rfl,rfl,rfl,synced.refinesFlat⟩
  intro i points
  rw [synced.cur,nodeAt] at points
  split at points
  · next inside => exact Option.some.inj points ▸ inside
  · contradiction

/-- Three bytes written into chunks of two: the cursor is one byte into the second chunk. -/
theorem reachable_refines_flat_across_chunks :
    ∃ s : ByteArray, s.chunks = [[1,2],[3,0]] ∧ s.cur = some 1 ∧
      ∃ f : FlatBuffer UInt8, f.store = s.store ∧ f.position = s.position ∧ f.size = s.size ∧
        s.RefinesFlat f :=
  ⟨_,rfl,rfl,(reachable_refines_flat (fun _ _ => 0) 2 (by decide) _
    (.returned _ _ (.write [1,2,3]) .create rfl)).2.2.2.2.2.2.2⟩

end Runs

end MojoImpl.ByteArray
