import MojoImpl.Foundation.Simulation
import MojoImpl.Channel.Outgoing

/-! One direction of a socket pair with a `ChannelPosix` at each end: what the socket takes
from the writing half is what the reading half still has to receive. Protocols may be
written at any time, and every `send` and `recv` may come back short. The link is compared
with a queue of protocols. -/
namespace MojoImpl.ChannelPosix
open Foundation MojoImpl.ByteArray

structure Link where
  writer : Writer
  reader : Reader
  deriving DecidableEq, Repr

namespace Link

inductive Event
  | writer (event : WriteEvent)
  | onFdReadable (stack : Nat → Nat → UInt8) (results : List RecvResult)

def start : Link := ⟨.start,⟨[],[]⟩⟩

def step (heap : Nat → Nat → UInt8) (s : Link) : Event → Option Link
  | .writer event => do
    let writer ← s.writer.step heap event
    let sent := writer.accepted.drop s.writer.accepted.length
    return ⟨writer,{ s.reader with incoming := s.reader.incoming ++ sent }⟩
  | .onFdReadable stack results => do
    let reader ← (ChannelPosix.onFdReadable heap stack results s.reader).toOption
    return { s with reader }

/-- The content length as it stands behind magic, version and type. -/
def announced (incoming : List UInt8) : Nat := ofLittleEndian (window incoming 3 4)

/-- A header has arrived, and the content it announces. -/
def Arrived (incoming : List UInt8) : Prop :=
  11 ≤ incoming.length ∧ 11+announced incoming ≤ incoming.length

instance (incoming : List UInt8) : Decidable (Arrived incoming) := inferInstanceAs (Decidable (_ ∧ _))

/-- Contents fit in the 16 bits of `fix_len`, no `send` stops with would-block or an error,
and the loop reports the socket readable when a whole frame is there. -/
def Allowed (s : Link) : Event → Prop
  | .writer (.write protocol) => protocol.data.length < 2^16
  | .writer event => Writer.Undisturbed event
  | .onFdReadable _ results => Arrived s.reader.incoming ∧ ∀ r ∈ results, r.Goes

def observe : Event → List (Fifo.Label (UInt8 × List UInt8))
  | .writer (.write protocol) => [.put (content protocol)]
  | .writer _ => []
  | .onFdReadable _ _ => [.take]

end Link

def WriteEvent.protocols : WriteEvent → List Protocol
  | .write protocol => [protocol]
  | _ => []

section Frames

theorem wire_eq (p : Protocol) : p.wire = [p.magic,p.version,p.type] ++ (littleEndian 4 p.data.length ++
    (littleEndian 4 p.data.length ++ p.data)) := by
  have byte (b : UInt8) : littleEndian 1 b.toNat = [b] := by
    change [UInt8.ofNat b.toNat] = [b]
    rw [UInt8.ofNat_toNat]
  simp only [Protocol.wire,byte,Format.counted_print,List.cons_append,List.nil_append]

theorem announced_wire {p : Protocol} (fits : p.data.length < 2^32) (rest : List UInt8) :
    Link.announced (p.wire ++ rest) = p.data.length := by
  have digits : window (p.wire ++ rest) 3 4 = littleEndian 4 p.data.length := by
    rw [wire_eq,List.append_assoc,List.append_assoc]
    exact List.take_left' (littleEndian_length 4 _)
  rw [Link.announced,digits,ofLittleEndian_littleEndian]
  exact Nat.mod_eq_of_lt fits

theorem announced_prefix {bytes : List UInt8} (long : 11 ≤ bytes.length) (more : List UInt8) :
    Link.announced (bytes ++ more) = Link.announced bytes := by
  rw [Link.announced,window,List.drop_append_of_le_length (by omega),
    List.take_append_of_le_length (by rw [List.length_drop]; omega)]
  rfl

/-- What has arrived of a stream of frames starts with a whole one. -/
theorem arrived_frame {p : Protocol} (fits : p.data.length < 2^32) {incoming rest later : List UInt8}
    (stream : incoming ++ later = p.wire ++ rest) (arrived : Link.Arrived incoming) :
    ∃ more, incoming = p.wire ++ more ∧ more ++ later = rest := by
  obtain ⟨header,whole⟩ := arrived
  rw [← announced_prefix header later,stream,announced_wire fits] at whole
  have long : p.wire.length ≤ incoming.length := by
    rw [Protocol.wire_length]
    exact whole
  obtain ⟨more,rfl⟩ : p.wire <+: incoming :=
    List.prefix_of_prefix_length_le (List.prefix_append _ rest)
      (stream ▸ List.prefix_append incoming later) long
  refine ⟨more,rfl,?_⟩
  rw [List.append_assoc] at stream
  exact List.append_cancel_left stream

theorem frame_arrived {p : Protocol} (fits : p.data.length < 2^32) (more : List UInt8) :
    Link.Arrived (p.wire ++ more) := by
  rw [Link.Arrived,announced_wire fits,List.length_append,Protocol.wire_length]
  omega

end Frames

section Writing
variable {heap : Nat → Nat → UInt8} {s t : Writer} {event : WriteEvent}

theorem send_effect (s : Writer) (remain : List UInt8) (taken : List Protocol) (result : SendResult)
    (phase : s.phase = .sending remain taken) : ∃ after sent, s.send remain taken result =
      { s with phase := after, accepted := s.accepted ++ sent } ∧ after ≠ .undefined := by
  cases result with
  | accepted k =>
    rw [Writer.send]
    split
    · exact ⟨_,_,rfl,Phase.noConfusion⟩
    · exact ⟨_,_,rfl,Phase.noConfusion⟩
  | interrupted => exact ⟨s.phase,[],by rw [List.append_nil]; rfl,by rw [phase]; exact Phase.noConfusion⟩
  | wouldBlock => exact ⟨_,[],by rw [List.append_nil]; rfl,Phase.noConfusion⟩
  | failed => exact ⟨_,[],by rw [List.append_nil]; rfl,Phase.noConfusion⟩

/-- A step keeps the phase defined, takes nothing back from the socket and forgets nothing
that was written. -/
theorem step_effect (conserved : s.Conserved) (defined : s.phase ≠ .undefined)
    (ran : s.step heap event = some t) : t.phase ≠ .undefined ∧
      (∃ sent, t.accepted = s.accepted ++ sent) ∧ t.written = s.written ++ event.protocols := by
  cases event with
  | write protocol =>
    cases ran
    exact ⟨defined,⟨[],(List.append_nil _).symm⟩,rfl⟩
  | onFdWriteable =>
    rw [Writer.step] at ran
    split at ran
    · cases ran
      exact ⟨Phase.noConfusion,⟨[],(List.append_nil _).symm⟩,(List.append_nil _).symm⟩
    · contradiction
  | next =>
    rw [Writer.step] at ran
    split at ran
    · next taken phase =>
      cases ran
      cases taken with
      | nil => exact ⟨Phase.noConfusion,⟨[],(List.append_nil _).symm⟩,(List.append_nil _).symm⟩
      | cons protocol taken =>
        have small := conserved.small protocol (by simp [Writer.taken,phase])
        have size : Writer.sendSize protocol.wire = protocol.wire.length :=
          Writer.sendSize_small (by rw [Protocol.wire_length]; omega)
        rw [Writer.next,serialize_wire,Writer.enterSend,if_neg (by omega)]
        exact ⟨Phase.noConfusion,⟨[],(List.append_nil _).symm⟩,(List.append_nil _).symm⟩
    · contradiction
  | send result =>
    rw [Writer.step] at ran
    split at ran
    · next remain taken phase =>
      cases ran
      obtain ⟨after,sent,same,defined'⟩ := send_effect s remain taken result phase
      rw [same]
      exact ⟨defined',⟨sent,rfl⟩,(List.append_nil _).symm⟩
    · contradiction

end Writing

namespace Link

/-- Up to a place the written protocols are delivered; of those behind it the socket holds
the first bytes and the writing half the rest. -/
structure Sound (s : Link) : Prop where
  conserved : s.writer.Conserved
  defined : s.writer.phase ≠ .undefined
  small : ∀ p ∈ s.writer.written, p.data.length < 2^16
  framed : ∃ i ≤ s.writer.written.length, s.reader.delivered = (s.writer.written.take i).map received ∧
    s.writer.accepted = Writer.wires (s.writer.written.take i) ++ s.reader.incoming

theorem sound_start : Sound start where
  conserved := ⟨rfl,by simp [start,Writer.start,Writer.taken]⟩
  defined := Phase.noConfusion
  small := by simp [start,Writer.start]
  framed := ⟨0,Nat.zero_le _,rfl,rfl⟩

theorem received_contents {frames : List Protocol} (small : ∀ p ∈ frames, p.data.length < 2^16) :
    (frames.map received).map content = frames.map content := by
  rw [List.map_map]
  exact List.map_congr_left (fun p member => received_content (small p member))

section Steps
variable {heap : Nat → Nat → UInt8} {s t : Link}

theorem Allowed.undisturbed {event : WriteEvent} (allowed : Allowed s (.writer event)) :
    Writer.Undisturbed event := by
  cases event with
  | write protocol =>
    change protocol.data.length+11 < 2^31
    change protocol.data.length < 2^16 at allowed
    omega
  | onFdWriteable => exact allowed
  | next => exact allowed
  | send result => exact allowed

theorem Sound.write (sound : s.Sound) {event : WriteEvent} (allowed : Allowed s (.writer event))
    (ran : s.step heap (.writer event) = some t) : t.Sound ∧
      t.writer.written = s.writer.written ++ event.protocols ∧ t.reader.delivered = s.reader.delivered := by
  obtain ⟨writer,ran',same⟩ := Option.bind_eq_some_iff.mp ran
  cases same
  obtain ⟨defined,⟨sent,accepted⟩,written⟩ := step_effect sound.conserved sound.defined ran'
  obtain ⟨i,inside,delivered,before⟩ := sound.framed
  refine ⟨⟨Writer.step_conserved sound.conserved allowed.undisturbed ran',defined,?_,i,?_,?_,?_⟩,written,rfl⟩
  · intro p member
    change p ∈ writer.written at member
    rw [written] at member
    obtain earlier | new := List.mem_append.mp member
    · exact sound.small p earlier
    · cases event with
      | write protocol =>
        cases List.mem_singleton.mp new
        exact allowed
      | onFdWriteable => exact absurd new List.not_mem_nil
      | next => exact absurd new List.not_mem_nil
      | send result => exact absurd new List.not_mem_nil
  · rw [written,List.length_append]
    omega
  · rw [written,List.take_append_of_le_length inside]
    exact delivered
  · rw [written,List.take_append_of_le_length inside,accepted,before,List.drop_left,List.append_assoc]

/-- What the socket holds and what the writing half has left are the frames that have not
been delivered. -/
theorem Sound.stream (sound : s.Sound) {i : Nat}
    (accepted : s.writer.accepted = Writer.wires (s.writer.written.take i) ++ s.reader.incoming) :
    s.reader.incoming ++ (s.writer.remain ++ Writer.wires (s.writer.taken ++ s.writer.writingProtocol)) =
      Writer.wires (s.writer.written.drop i) := by
  have bytes := sound.conserved.bytes
  have split : Writer.wires s.writer.written =
      Writer.wires (s.writer.written.take i) ++ Writer.wires (s.writer.written.drop i) := by
    rw [← Writer.wires_append,List.take_append_drop]
  rw [accepted,split,List.append_assoc,List.append_assoc] at bytes
  exact List.append_cancel_left bytes

theorem step_readable {stack : Nat → Nat → UInt8} {results : List RecvResult} {reader : Reader}
    (ran : ChannelPosix.onFdReadable heap stack results s.reader = .ok reader) :
    s.step heap (.onFdReadable stack results) = some ⟨s.writer,reader⟩ := by
  unfold step
  simp only [ran]
  rfl

theorem Sound.readable (heap : Nat → Nat → UInt8) (sound : s.Sound) (arrived : Arrived s.reader.incoming)
    (stack : Nat → Nat → UInt8) {results : List RecvResult} (goes : ∀ r ∈ results, r.Goes) :
    ∃ t p later, s.step heap (.onFdReadable stack results) = some t ∧ t.Sound ∧ t.writer = s.writer ∧
      p.data.length < 2^16 ∧ t.reader.delivered = s.reader.delivered ++ [received p] ∧
      s.writer.written.map content = s.reader.delivered.map content ++ content p :: later := by
  obtain ⟨i,inside,delivered,accepted⟩ := sound.framed
  have stream := sound.stream accepted
  have more : i < s.writer.written.length := by
    by_contra none
    rw [List.drop_of_length_le (by omega)] at stream
    have nothing := (List.append_eq_nil_iff.mp stream).1
    have some_byte := arrived.1
    rw [nothing] at some_byte
    contradiction
  have small := sound.small _ (List.getElem_mem more)
  rw [List.drop_eq_getElem_cons more,Writer.wires_cons] at stream
  obtain ⟨rest,incoming,_⟩ := arrived_frame (by omega) stream arrived
  have frame := onFdReadable_frame heap stack results goes s.writer.written[i] rest s.reader.delivered
  rw [Nat.mod_eq_of_lt small,List.drop_length,List.nil_append,← incoming] at frame
  have shown : (s.writer.written.take i).map content = s.reader.delivered.map content := by
    rw [delivered,received_contents (fun p member => sound.small p (List.mem_of_mem_take member))]
  refine ⟨⟨s.writer,rest,s.reader.delivered ++ [received s.writer.written[i]]⟩,s.writer.written[i],
    (s.writer.written.drop (i+1)).map content,?_,⟨sound.conserved,sound.defined,sound.small,i+1,more,?_,?_⟩,
    rfl,small,rfl,?_⟩
  · exact step_readable frame
  · rw [List.take_succ_eq_append_getElem more,List.map_append,delivered]
    rfl
  · change s.writer.accepted = _ ++ rest
    rw [List.take_succ_eq_append_getElem more,Writer.wires_append,accepted,incoming,List.append_assoc]
    simp [Writer.wires]
  · rw [← shown,← List.map_cons,← List.drop_eq_getElem_cons more,← List.map_append,List.take_append_drop]

theorem Sound.step (sound : s.Sound) {event : Event} (allowed : Allowed s event)
    (ran : s.step heap event = some t) : t.Sound := by
  cases event with
  | writer event => exact (sound.write allowed ran).1
  | onFdReadable stack results =>
    obtain ⟨u,_,_,ran',sound',_⟩ := sound.readable heap allowed.1 stack allowed.2
    rw [ran] at ran'
    cases ran'
    exact sound'

end Steps

section Queue
variable {heap : Nat → Nat → UInt8} {s t : Link}

/-- The queue has what is written and not delivered. -/
structure Models (s : Link) (q : Fifo (UInt8 × List UInt8)) : Prop where
  sound : s.Sound
  taken : q.taken = s.reader.delivered.map content
  all : q.all = s.writer.written.map content

theorem models_start : Models start .empty := ⟨sound_start,rfl,rfl⟩

theorem Models.write {q : Fifo (UInt8 × List UInt8)} (models : Models s q) {event : WriteEvent}
    (allowed : Allowed s (.writer event)) (ran : s.step heap (.writer event) = some t) :
    ∃ q', Path Fifo.step (fun _ _ => True) q (observe (.writer event)) q' ∧ Models t q' := by
  obtain ⟨sound,written,delivered⟩ := models.sound.write allowed ran
  have taken : q.taken = t.reader.delivered.map content := by rw [delivered]; exact models.taken
  cases event with
  | write protocol =>
    refine ⟨_,.one trivial rfl,sound,taken,?_⟩
    change q.taken ++ (q.queue ++ [content protocol]) = _
    rw [← List.append_assoc,written,List.map_append]
    exact congrArg (· ++ [content protocol]) models.all
  | onFdWriteable => exact ⟨q,.nil q,sound,taken,by rw [written]; simpa [WriteEvent.protocols] using models.all⟩
  | next => exact ⟨q,.nil q,sound,taken,by rw [written]; simpa [WriteEvent.protocols] using models.all⟩
  | send result => exact ⟨q,.nil q,sound,taken,by rw [written]; simpa [WriteEvent.protocols] using models.all⟩

theorem Models.readable {q : Fifo (UInt8 × List UInt8)} (models : Models s q)
    {stack : Nat → Nat → UInt8} {results : List RecvResult}
    (allowed : Allowed s (.onFdReadable stack results))
    (ran : s.step heap (.onFdReadable stack results) = some t) :
    ∃ q', Path Fifo.step (fun _ _ => True) q [.take] q' ∧ Models t q' := by
  obtain ⟨u,p,later,ran',sound,writer,small,delivered,written⟩ :=
    models.sound.readable heap allowed.1 stack allowed.2
  rw [ran] at ran'
  cases ran'
  obtain ⟨queue,taken⟩ := q
  have front : queue = content p :: later := by
    have all := models.all
    rw [written,← models.taken] at all
    exact List.append_cancel_left all
  subst front
  refine ⟨⟨later,taken ++ [content p]⟩,.one trivial rfl,sound,?_,?_⟩
  · rw [delivered,List.map_append,← models.taken,List.map_singleton,received_content small]
  · rw [writer,written,← models.taken]
    exact List.append_assoc _ _ _

/-- The link is a queue: a `Write` puts a protocol in, a call of `OnFdReadable` takes the
first one out, and nothing else is to be seen. -/
theorem simulates_fifo (heap : Nat → Nat → UInt8) : Simulation (step heap) Allowed
    (Fifo.step (α := UInt8 × List UInt8)) (fun _ _ => True) observe Models where
  simulate {s t q event} models allowed ran := by
    cases event with
    | writer event => exact models.write allowed ran
    | onFdReadable stack results => exact models.readable allowed ran

theorem path_sound {labels : List Event} (path : Path (step heap) Allowed start labels t) : t.Sound :=
  path.invariant (fun sound allowed ran => sound.step allowed ran) sound_start

/-- Every run of the link is one of a queue with the same writes and one take for each
`OnFdReadable`; what has been taken is what the delegate was given, and when a whole frame
is there the next call returns as well. -/
theorem run_is_fifo (heap : Nat → Nat → UInt8) (labels : List Event) (t : Link)
    (path : Path (step heap) Allowed start labels t) :
    (∃ q, Path Fifo.step (fun _ _ => True) .empty (labels.flatMap observe) q ∧
      q.taken = t.reader.delivered.map content ∧ q.all = t.writer.written.map content) ∧
    ∀ stack results, t.Allowed (.onFdReadable stack results) →
      ∃ u, t.step heap (.onFdReadable stack results) = some u := by
  obtain ⟨q,path',models⟩ := (simulates_fifo heap).path path models_start
  refine ⟨⟨q,path',models.taken,models.all⟩,?_⟩
  intro stack results allowed
  obtain ⟨u,_,_,ran,_⟩ := models.sound.readable heap allowed.1 stack allowed.2
  exact ⟨u,ran⟩

def hi : Protocol := .createWith .userMessage [104,105]

/-- The protocol goes out in two pieces, with another one written in between. -/
def hiSent : List Event :=
  [.writer (.write hi),.writer .onFdWriteable,.writer .next,.writer (.send (.accepted 3)),
    .writer (.write (.createWith .acceptPeer [])),.writer (.send .interrupted),
    .writer (.send (.accepted 100))]

theorem hiSent_path : Path (step fun _ _ => 0) Allowed start hiSent
    ⟨⟨[.createWith .acceptPeer []],.draining [],hi.wire,[hi,.createWith .acceptPeer []]⟩,hi.wire,[]⟩ := by
  apply Path.of_run
  · simp [hiSent,Allowed,Writer.Undisturbed,hi,Protocol.createWith]
  · decide +kernel

theorem run_is_fifo_hi : ∃ t : Link, t.reader.delivered = [⟨0xcc,1,5,2,[104,105]⟩] ∧
    t.writer.written.length = 2 ∧ (∃ q, Path Fifo.step (fun _ _ => True) .empty
        ((hiSent ++ [Event.onFdReadable (fun _ _ => 7) [.data 5,.interrupted,.data 20,.data 1]]).flatMap observe) q ∧
      q.taken = t.reader.delivered.map content ∧ q.all = t.writer.written.map content) ∧
    ∀ stack results, t.Allowed (.onFdReadable stack results) →
      ∃ u, t.step (fun _ _ => 0) (.onFdReadable stack results) = some u := by
  have received : Path (step fun _ _ => 0) Allowed
      ⟨⟨[.createWith .acceptPeer []],.draining [],hi.wire,[hi,.createWith .acceptPeer []]⟩,hi.wire,[]⟩
      [.onFdReadable (fun _ _ => 7) [.data 5,.interrupted,.data 20,.data 1]]
      ⟨⟨[.createWith .acceptPeer []],.draining [],hi.wire,[hi,.createWith .acceptPeer []]⟩,
        [],[⟨0xcc,1,5,2,[104,105]⟩]⟩ := by
    apply Path.one
    · exact ⟨by decide +kernel,by simp [RecvResult.Goes]⟩
    · decide +kernel
  exact ⟨_,rfl,rfl,run_is_fifo _ _ _ (hiSent_path.append received)⟩

end Queue

section Draining
variable {heap : Nat → Nat → UInt8} {s t : Link}

/-- The allowed events that get something done: no push, no poll with nothing to send and
no `send` or `recv` that is only interrupted. -/
def Productive (s : Link) : Event → Prop
  | .writer (.write _) => False
  | .writer .onFdWriteable => s.writer.writingProtocol ≠ []
  | .writer .next => True
  | .writer (.send result) => ∃ k, result = .accepted (k+1)
  | .onFdReadable stack results => Allowed s (.onFdReadable stack results)

def cost (each : Nat) (protocols : List Protocol) : Nat :=
  (protocols.map fun p => p.wire.length+each).sum

def phaseCost : Phase → Nat
  | .idle | .undefined => 0
  | .draining taken => cost 2 taken + 1
  | .sending remain taken => remain.length + cost 2 taken + 2

/-- A bound on the productive events to come. -/
def pending (s : Link) : Nat :=
  phaseCost s.writer.phase + cost 4 s.writer.writingProtocol +
    (s.writer.written.length - s.reader.delivered.length)

def Drained (s : Link) : Prop :=
  s.writer.phase = .idle ∧ s.writer.writingProtocol = [] ∧ s.reader.incoming = [] ∧
    s.reader.delivered.map content = s.writer.written.map content

theorem cost_nil (each : Nat) : cost each [] = 0 := rfl

theorem cost_cons (each : Nat) (p : Protocol) (rest : List Protocol) :
    cost each (p::rest) = p.wire.length + each + cost each rest := by
  rw [cost,List.map_cons,List.sum_cons]
  rfl

theorem cost_more (protocols : List Protocol) : cost 4 protocols = cost 2 protocols + 2*protocols.length := by
  induction protocols with
  | nil => rfl
  | cons p rest ih =>
    rw [cost_cons,cost_cons,ih,List.length_cons]
    omega

theorem Productive.allowed {event : Event} (productive : Productive s event) : Allowed s event := by
  cases event with
  | writer event =>
    cases event with
    | write protocol => exact productive.elim
    | onFdWriteable => trivial
    | next => trivial
    | send result =>
      obtain ⟨k,rfl⟩ := productive
      exact ⟨SendResult.noConfusion,SendResult.noConfusion⟩
  | onFdReadable stack results => exact productive

def writing (w : Writer) : Nat := phaseCost w.phase + cost 4 w.writingProtocol

theorem next_writing {w : Writer} (conserved : w.Conserved) {taken : List Protocol}
    (phase : w.phase = .draining taken) : writing (w.next heap taken) < writing w := by
  cases taken with
  | nil =>
    simp only [Writer.next,writing,phase,phaseCost]
    omega
  | cons p taken =>
    have small := conserved.small p (by simp [Writer.taken,phase])
    have size : Writer.sendSize p.wire = p.wire.length :=
      Writer.sendSize_small (by rw [Protocol.wire_length]; omega)
    have whole : p.wire.take (Writer.sendSize p.wire).toNat = p.wire := by
      rw [size,Int.toNat_natCast,List.take_length]
    rw [Writer.next,serialize_wire,Writer.enterSend,if_neg (by omega),whole]
    simp only [writing,phase,phaseCost,cost_cons]
    omega

theorem send_writing {w : Writer} {remain : List UInt8} {taken : List Protocol}
    (phase : w.phase = .sending remain taken) (k : Nat) :
    writing (w.send remain taken (.accepted (k+1))) < writing w := by
  rw [Writer.send]
  split
  · simp only [writing,phase,phaseCost]
    omega
  · next short =>
    rw [List.length_take] at short
    simp only [writing,phase,phaseCost,List.length_drop]
    omega

theorem productive_write {event : WriteEvent} (sound : s.Sound) (productive : Productive s (.writer event))
    (ran : s.step heap (.writer event) = some t) :
    t.pending < s.pending ∧ t.writer.written = s.writer.written := by
  obtain ⟨sound',written,delivered⟩ := sound.write productive.allowed ran
  obtain ⟨writer,ran',same⟩ := Option.bind_eq_some_iff.mp ran
  cases same
  have less : writing writer < writing s.writer ∧ event.protocols = [] := by
    cases event with
    | write protocol => exact productive.elim
    | onFdWriteable =>
      rw [Writer.step] at ran'
      split at ran'
      · next phase =>
        cases ran'
        refine ⟨?_,rfl⟩
        have waiting := List.length_pos_iff.mpr productive
        rw [writing,writing,phase,phaseCost,phaseCost,cost_nil,cost_more]
        omega
      · contradiction
    | next =>
      rw [Writer.step] at ran'
      split at ran'
      · next taken phase =>
        cases ran'
        exact ⟨next_writing sound.conserved phase,rfl⟩
      · contradiction
    | send result =>
      obtain ⟨k,rfl⟩ := productive
      rw [Writer.step] at ran'
      split at ran'
      · next remain taken phase =>
        cases ran'
        exact ⟨send_writing phase k,rfl⟩
      · contradiction
  rw [less.2,List.append_nil] at written
  refine ⟨?_,written⟩
  change writing writer + (writer.written.length - s.reader.delivered.length) <
    writing s.writer + (s.writer.written.length - s.reader.delivered.length)
  have length := congrArg List.length written
  change writer.written.length = s.writer.written.length at length
  omega

theorem productive_step {event : Event} (sound : s.Sound) (productive : Productive s event)
    (ran : s.step heap event = some t) : t.pending < s.pending ∧ t.writer.written = s.writer.written := by
  cases event with
  | writer event => exact productive_write sound productive ran
  | onFdReadable stack results =>
    obtain ⟨u,p,later,ran',_,writer,_,delivered,written⟩ :=
      sound.readable heap productive.1 stack productive.2
    rw [ran] at ran'
    cases ran'
    have length := congrArg List.length written
    rw [List.length_append,List.length_map,List.length_map,List.length_cons] at length
    refine ⟨?_,congrArg Writer.written writer⟩
    rw [pending,pending,writer,delivered,List.length_append,List.length_singleton]
    omega

theorem step_writer {event : WriteEvent} {w : Writer} (ran : s.writer.step heap event = some w) :
    s.step heap (.writer event) = some ⟨w,{ s.reader with
      incoming := s.reader.incoming ++ w.accepted.drop s.writer.accepted.length }⟩ :=
  Option.bind_eq_some_iff.mpr ⟨w,ran,rfl⟩

/-- In a sound state something can be done until everything is delivered. -/
theorem Sound.progress (heap : Nat → Nat → UInt8) (sound : s.Sound) :
    s.Drained ∨ ∃ event t, Productive s event ∧ s.step heap event = some t := by
  obtain ⟨i,inside,delivered,accepted⟩ := sound.framed
  cases phase : s.writer.phase with
  | undefined => exact absurd phase sound.defined
  | draining taken =>
    exact .inr ⟨.writer .next,_,trivial,step_writer (by rw [Writer.step,phase])⟩
  | sending remain taken =>
    exact .inr ⟨.writer (.send (.accepted 1)),_,⟨0,rfl⟩,step_writer (by rw [Writer.step,phase])⟩
  | idle =>
    by_cases waiting : s.writer.writingProtocol = []
    · have stream := sound.stream accepted
      rw [Writer.remain,Writer.taken,phase,waiting] at stream
      change s.reader.incoming ++ [] = _ at stream
      rw [List.append_nil] at stream
      by_cases more : i < s.writer.written.length
      · have small := sound.small _ (List.getElem_mem more)
        rw [List.drop_eq_getElem_cons more,Writer.wires_cons] at stream
        have arrived : Arrived s.reader.incoming := stream ▸ frame_arrived (by omega) _
        obtain ⟨t,_,_,ran,_⟩ := sound.readable heap arrived (fun _ _ => 0) (List.forall_mem_nil _)
        exact .inr ⟨.onFdReadable (fun _ _ => 0) [],t,⟨arrived,by simp⟩,ran⟩
      · rw [List.drop_of_length_le (by omega)] at stream
        rw [List.take_of_length_le (by omega)] at delivered
        exact .inl ⟨phase,waiting,stream,by rw [delivered,received_contents sound.small]⟩
    · exact .inr ⟨.writer .onFdWriteable,_,waiting,step_writer (by rw [Writer.step,phase])⟩

/-- However the loop and the socket go on from a state of a run, they get at most `pending`
things done, and while something is undelivered there is something to do. -/
theorem run_drains (heap : Nat → Nat → UInt8) (labels more : List Event) (s t : Link)
    (path : Path (step heap) Allowed start labels s) (on : Path (step heap) Productive s more t) :
    more.length ≤ s.pending ∧ t.writer.written = s.writer.written ∧
      (t.Drained ∨ ∃ event u, Productive t event ∧ t.step heap event = some u) := by
  have shrinks {u v : Link} {event : Event} (held : u.Sound ∧ u.writer.written = s.writer.written)
      (productive : Productive u event) (ran : u.step heap event = some v) :
      (v.Sound ∧ v.writer.written = s.writer.written) ∧ v.pending < u.pending := by
    obtain ⟨less,same⟩ := productive_step held.1 productive ran
    exact ⟨⟨held.1.step productive.allowed ran,same.trans held.2⟩,less⟩
  obtain ⟨⟨sound,written⟩,bound⟩ := on.bounded pending shrinks ⟨path_sound path,rfl⟩
  exact ⟨by omega,written,sound.progress heap⟩

/-- Two things are done after the second protocol was written: the loop ends, and the
socket is found readable. -/
theorem run_drains_hi : ∃ s t : Link, s.writer.written.length = 2 ∧ t.reader.delivered.length = 1 ∧
    2 ≤ s.pending ∧ t.writer.written = s.writer.written ∧
      (t.Drained ∨ ∃ event u, Productive t event ∧ t.step (fun _ _ => 0) event = some u) := by
  have on : Path (step fun _ _ => 0) Productive
      ⟨⟨[.createWith .acceptPeer []],.draining [],hi.wire,[hi,.createWith .acceptPeer []]⟩,hi.wire,[]⟩
      [.writer .next,.onFdReadable (fun _ _ => 7) []]
      ⟨⟨[.createWith .acceptPeer []],.idle,hi.wire,[hi,.createWith .acceptPeer []]⟩,
        [],[⟨0xcc,1,5,2,[104,105]⟩]⟩ := by
    refine .cons (t := ⟨⟨[.createWith .acceptPeer []],.idle,hi.wire,[hi,.createWith .acceptPeer []]⟩,hi.wire,[]⟩)
      trivial (by decide +kernel) (.one ⟨by decide +kernel,by simp⟩ (by decide +kernel))
  exact ⟨_,_,rfl,rfl,run_drains _ _ _ _ _ hiSent_path on⟩

end Draining

end Link

end MojoImpl.ChannelPosix
