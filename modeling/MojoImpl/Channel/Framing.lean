import MojoImpl.Channel.Incoming

/-! Whole streams of frames through `OnFdReadable`: what the delegate gets when every
`recv` succeeds, and what it gets under any behaviour of the socket that does not cut a
call off. -/
namespace MojoImpl.ChannelPosix
open Foundation MojoImpl.ByteArray

def content (p : Protocol) : UInt8 × List UInt8 := (p.type,p.data)

section Streams
variable (heap : Nat → Nat → UInt8)

theorem serialize_all (frames : List Protocol) :
    frames.mapM (Channel.serialize heap) = .ok (frames.map Protocol.wire) := by
  have pure_all : Channel.serialize heap = fun p => (pure p.wire : Except Fault (List UInt8)) :=
    funext (serialize_wire heap)
  rw [pure_all,List.mapM_pure]
  rfl

theorem received_content {p : Protocol} (small : p.data.length < 2^16) :
    content (received p) = content p := by
  simp only [content,received,Nat.mod_eq_of_lt small,List.take_length]

theorem onFdReadables_small (frames : List Protocol) (calls : List ReadCall)
    (small : ∀ p ∈ frames, p.data.length < 2^16) (one_each : calls.length = frames.length)
    (goes : ∀ call ∈ calls, ∀ r ∈ call.results, r.Goes) (rest : List UInt8)
    (delivered : List Protocol) :
    onFdReadables heap calls ⟨(frames.map Protocol.wire).flatten ++ rest,delivered⟩ =
      .ok ⟨rest,delivered ++ frames.map received⟩ := by
  induction frames generalizing calls delivered with
  | nil =>
    cases List.eq_nil_of_length_eq_zero one_each
    simp [onFdReadables,pure,Except.pure]
  | cons p frames ih =>
    cases calls with
    | nil => simp at one_each
    | cons call calls =>
      have here := small p (by simp)
      have first := onFdReadable_frame heap call.stack _ (goes call (by simp)) p
        ((frames.map Protocol.wire).flatten ++ rest) delivered
      rw [Nat.mod_eq_of_lt here,List.drop_length,List.nil_append] at first
      have later := ih calls (fun q member => small q (by simp [member])) (by simpa using one_each)
        (fun c member => goes c (by simp [member])) (delivered ++ [received p])
      rw [List.map_cons,List.flatten_cons,List.append_assoc]
      simp only [onFdReadables,List.foldlM_cons,first,bind,Except.bind] at later ⊢
      rw [later]
      simp

/-- One call a frame delivers the frames, each call starting where a frame does. -/
def Delivers (frames : List Protocol) (calls : List ReadCall) : Prop :=
  ∃ texts, frames.mapM (Channel.serialize heap) = .ok texts ∧
    ∀ i, i ≤ frames.length → ∃ s, onFdReadables heap (calls.take i) ⟨texts.flatten,[]⟩ = .ok s ∧
      s.delivered.map content = (frames.take i).map content ∧ s.incoming = (texts.drop i).flatten

theorem onFdReadables_take {frames : List Protocol} {calls : List ReadCall} {i : Nat}
    (small : ∀ p ∈ frames.take i, p.data.length < 2^16) (one_each : calls.length = frames.length)
    (goes : ∀ call ∈ calls, ∀ r ∈ call.results, r.Goes) :
    onFdReadables heap (calls.take i) ⟨(frames.map Protocol.wire).flatten,[]⟩ =
      .ok ⟨((frames.drop i).map Protocol.wire).flatten,(frames.take i).map received⟩ := by
  have split : (frames.map Protocol.wire).flatten =
      ((frames.take i).map Protocol.wire).flatten ++ ((frames.drop i).map Protocol.wire).flatten := by
    rw [← List.flatten_append,← List.map_append,List.take_append_drop]
  have ran := onFdReadables_small heap _ (calls.take i) small (by simp [one_each])
    (fun c member => goes c (List.mem_of_mem_take member))
    ((frames.drop i).map Protocol.wire).flatten []
  rw [split,ran,List.nil_append]

/-- When every `recv` returns data, the frames come through, in order and each on a
frame boundary, exactly when no content reaches 2^16 bytes. -/
theorem delivers_iff_small (frames : List Protocol) (calls : List ReadCall)
    (one_each : calls.length = frames.length)
    (succeed : ∀ call ∈ calls, ∀ r ∈ call.results, ∃ k, r = .data k) :
    Delivers heap frames calls ↔ ∀ p ∈ frames, p.data.length < 2^16 := by
  have goes : ∀ call ∈ calls, ∀ r ∈ call.results, r.Goes := by
    intro call member r member'
    obtain ⟨k,rfl⟩ := succeed call member r member'
    trivial
  constructor
  · rintro ⟨texts,serialized,delivers⟩
    rw [serialize_all] at serialized
    cases serialized
    -- the frames before place `j` are small, so the call for frame `j` starts on it
    have upTo (j : Nat) : ∀ p ∈ frames.take j, p.data.length < 2^16 := by
      induction j with
      | zero => simp
      | succ j ih =>
        by_cases inside : j < frames.length
        · obtain ⟨s,ran,same,_⟩ := delivers (j+1) inside
          have before := onFdReadables_take heap ih one_each goes
          have inside' : j < calls.length := by omega
          rw [List.drop_eq_getElem_cons inside,List.map_cons,List.flatten_cons] at before
          have here := onFdReadable_frame heap calls[j].stack _
            (goes _ (List.getElem_mem inside')) frames[j]
            ((frames.drop (j+1)).map Protocol.wire).flatten ((frames.take j).map received)
          rw [List.take_succ_eq_append_getElem inside',onFdReadables,List.foldlM_append] at ran
          change (onFdReadables heap (calls.take j) _ >>= _) = _ at ran
          rw [before] at ran
          simp only [bind,Except.bind,List.foldlM_cons,List.foldlM_nil,here,pure,Except.pure,
            Except.ok.injEq] at ran
          subst ran
          rw [List.take_succ_eq_append_getElem inside,List.map_append,List.map_append] at same
          have last := (List.append_inj' same rfl).2
          simp only [List.map_cons,List.map_nil,content,received,List.cons.injEq,Prod.mk.injEq,
            true_and,and_true] at last
          intro p member
          rw [List.take_succ_eq_append_getElem inside] at member
          rcases List.mem_append.mp member with earlier | this
          · exact ih p earlier
          · cases List.mem_singleton.mp this
            have cut := congrArg List.length last
            rw [List.length_take] at cut
            omega
        · intro p member
          rw [List.take_of_length_le (by omega)] at member ih
          exact ih p member
    intro p member
    exact upTo frames.length p (by simpa using member)
  · intro small
    refine ⟨_,serialize_all heap frames,?_⟩
    intro i inside
    have before := onFdReadables_take heap (i := i)
      (fun p member => small p (List.mem_of_mem_take member)) one_each goes
    refine ⟨_,before,?_,by rw [List.map_drop]⟩
    rw [List.map_map]
    exact List.map_congr_left
      (fun p member => received_content (small p (List.mem_of_mem_take member)))

theorem delivers_iff_small_pair :
    Delivers (fun _ _ => 0) [Protocol.createWith .userMessage [1,2,3],Protocol.createWith .acceptPeer []]
        [⟨fun _ _ => 0,[.data 4,.data 7]⟩,⟨fun _ _ => 0,[.data 11]⟩] ↔
      ∀ p ∈ [Protocol.createWith .userMessage [1,2,3],Protocol.createWith .acceptPeer []],
        p.data.length < 2^16 :=
  delivers_iff_small _ _ _ rfl (by simp)

theorem not_delivers_single {p : Protocol} (large : 2^16 ≤ p.data.length)
    (stack : Nat → Nat → UInt8) : ¬ Delivers heap [p] [⟨stack,[]⟩] := by
  rintro ⟨texts,serialized,delivers⟩
  rw [serialize_all] at serialized
  cases serialized
  obtain ⟨s,ran,same,_⟩ := delivers 1 (by simp)
  have here := onFdReadable_frame heap stack [] (by simp) p [] []
  simp only [onFdReadables,List.take_succ_cons,List.take_zero,List.foldlM_cons,List.foldlM_nil,
    List.map_cons,List.map_nil,List.flatten_cons,List.flatten_nil,here,bind,Except.bind,pure,
    Except.pure,Except.ok.injEq] at ran
  subst ran
  have cut := congrArg (fun l => (l.map (fun c => c.2.length)).sum) same
  simp only [List.nil_append,List.map_cons,List.map_nil,content,received,List.length_take,
    List.take_succ_cons,List.take_zero,List.sum_cons,List.sum_nil] at cut
  omega

/-- A content of 2^16 bytes is announced to `Recvn` as none. -/
theorem not_delivers_large :
    ¬ Delivers (fun _ _ => 0) [Protocol.createWith .userMessage (List.replicate (2^16) 0)]
      [⟨fun _ _ => 0,[]⟩] :=
  not_delivers_single _ (by rw [Protocol.createWith,List.length_replicate]) _

end Streams

section Arrivals
variable (heap : Nat → Nat → UInt8)

/-- The states of a reader after some calls, the socket meeting `Allowed` at each. -/
inductive Reached (bytes : List UInt8) (Allowed : Reader → List RecvResult → Prop) : Reader → Prop
  | start : Reached bytes Allowed ⟨bytes,[]⟩
  | readable (s t : Reader) (stack : Nat → Nat → UInt8) (results : List RecvResult)
      (before : Reached bytes Allowed s) (allowed : Allowed s results)
      (ran : onFdReadable heap stack results s = .ok t) : Reached bytes Allowed t

/-- Something is there to be read and no `recv` of the call reports would-block, an error
or the end of the stream. -/
def NotCutOff (s : Reader) (results : List RecvResult) : Prop :=
  s.incoming ≠ [] ∧ ∀ r ∈ results, r.Goes

/-- Up to a place the frames have been delivered, and the rest is still to come. -/
def AtFrame (frames : List Protocol) (s : Reader) : Prop :=
  ∃ i, s = ⟨((frames.drop i).map Protocol.wire).flatten,(frames.take i).map received⟩

theorem readable_atFrame {frames : List Protocol} (small : ∀ p ∈ frames, p.data.length < 2^16)
    {s t : Reader} {stack : Nat → Nat → UInt8} {results : List RecvResult} (at_frame : AtFrame frames s)
    (allowed : NotCutOff s results) (ran : onFdReadable heap stack results s = .ok t) :
    AtFrame frames t := by
  obtain ⟨i,rfl⟩ := at_frame
  obtain ⟨more,goes⟩ := allowed
  by_cases inside : i < frames.length
  · have here := small frames[i] (List.getElem_mem inside)
    have frame := onFdReadable_frame heap stack _ goes frames[i]
      ((frames.drop (i+1)).map Protocol.wire).flatten ((frames.take i).map received)
    rw [Nat.mod_eq_of_lt here,List.drop_length,List.nil_append] at frame
    rw [List.drop_eq_getElem_cons inside,List.map_cons,List.flatten_cons,frame] at ran
    cases ran
    refine ⟨i+1,?_⟩
    rw [List.take_succ_eq_append_getElem inside,List.map_append]
    rfl
  · rw [List.drop_of_length_le (by omega)] at more
    exact (more rfl).elim

/-- As long as no call is cut off, the delegate has been given a prefix of the frames. -/
theorem delivered_in_order (frames : List Protocol) (small : ∀ p ∈ frames, p.data.length < 2^16)
    (texts : List (List UInt8)) (sent : frames.mapM (Channel.serialize heap) = .ok texts)
    (s : Reader) (reached : Reached heap texts.flatten NotCutOff s) :
    s.delivered.map content <+: frames.map content := by
  rw [serialize_all] at sent
  cases sent
  have at_frame : AtFrame frames s := by
    induction reached with
    | start => exact ⟨0,by simp⟩
    | readable s t stack results before allowed ran ih => exact readable_atFrame heap small ih allowed ran
  obtain ⟨i,rfl⟩ := at_frame
  have same : ((frames.take i).map received).map content = (frames.take i).map content := by
    rw [List.map_map]
    exact List.map_congr_left
      (fun p member => received_content (small p (List.mem_of_mem_take member)))
  rw [same]
  exact (List.take_prefix i frames).map content

theorem delivered_in_order_split :
    [(5,[104,105])] <+: [Protocol.createWith .userMessage [104,105],
      Protocol.createWith .acceptPeer [1]].map content := by
  have ran : onFdReadable (fun _ _ => 0) (fun _ _ => 7) [.data 5,.interrupted,.data 20,.data 1]
      ⟨[0xcc,1,5,2,0,0,0,2,0,0,0,104,105,0xcc,1,9,1,0,0,0,1,0,0,0,1],[]⟩ =
      .ok ⟨[0xcc,1,9,1,0,0,0,1,0,0,0,1],[⟨0xcc,1,5,2,[104,105]⟩]⟩ := by decide +kernel
  exact delivered_in_order (fun _ _ => 0) _ (by decide)
    [[0xcc,1,5,2,0,0,0,2,0,0,0,104,105],[0xcc,1,9,1,0,0,0,1,0,0,0,1]]
    (serialize_all _ _) ⟨[0xcc,1,9,1,0,0,0,1,0,0,0,1],[⟨0xcc,1,5,2,[104,105]⟩]⟩
    (.readable _ _ _ _ .start ⟨by simp,by simp [RecvResult.Goes]⟩ ran)

/-- The socket has five bytes of the header, then nothing: the next two bytes of the
stream, the middle of the length, are delivered as the content. -/
theorem delivered_altered :
    ∃ texts s, [Protocol.createWith .userMessage [104,105]].mapM
        (Channel.serialize (fun _ _ => 0)) = .ok texts ∧
      Reached (fun _ _ => 0) texts.flatten (fun _ _ => True) s ∧
      ¬ s.delivered.map content <+: [Protocol.createWith .userMessage [104,105]].map content := by
  have ran : onFdReadable (fun _ _ => 0) (fun _ _ => 0) [.data 5,.wouldBlock]
      ⟨[0xcc,1,5,2,0,0,0,2,0,0,0,104,105],[]⟩ =
      .ok ⟨[2,0,0,0,104,105],[⟨0xcc,1,5,2,[0,0]⟩]⟩ := by decide +kernel
  refine ⟨[[0xcc,1,5,2,0,0,0,2,0,0,0,104,105]],_,serialize_all _ _,
    .readable _ _ _ _ .start trivial ran,by decide⟩

end Arrivals

end MojoImpl.ChannelPosix
