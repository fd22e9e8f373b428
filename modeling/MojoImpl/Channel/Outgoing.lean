import MojoImpl.Channel.Framing

/-! The writing half of channel_posix.cc, over `sock::Send` of sock_ops.cc. Producers push
protocols at any time; `OnFdWriteable` takes the whole queue and sends it with one `send`
call a step, so a push may come between any two calls. -/
namespace MojoImpl.ChannelPosix
open Foundation

/-- How one `send` comes back: having taken at most `k` bytes, or with a value of `errno`. -/
inductive SendResult
  | accepted (k : Nat)
  | interrupted
  | wouldBlock
  | failed
  deriving DecidableEq, Repr

/-- Where the thread of `OnFdWriteable` is: outside the call, before the test of the loop
with the protocols it took, or in `Send` with the bytes from `s` on that remain. -/
inductive Phase
  | idle
  | draining (taken : List Protocol)
  | sending (remain : List UInt8) (taken : List Protocol)
  | undefined
  deriving DecidableEq, Repr

/-- `accepted` is what the socket has taken so far and `written` every protocol passed to
`Write`, in order. -/
structure Writer where
  writingProtocol : List Protocol
  phase : Phase
  accepted : List UInt8
  written : List Protocol
  deriving DecidableEq, Repr

inductive WriteEvent
  | write (protocol : Protocol)
  | onFdWriteable
  | next
  | send (result : SendResult)
  deriving DecidableEq, Repr

namespace Writer

def start : Writer := ⟨[],.idle,[],[]⟩

/-- The `int n` that `Send` makes of `data.size()`. -/
def sendSize (data : List UInt8) : Int := (data.length : Int).bmod (2^32)

/-- The call of `Send`. A negative size has no meaning there: it would ask for bytes past
the end of the string. An exception leaves the loop and drops what it took. -/
def enterSend (s : Writer) (taken : List Protocol) : Except Fault (List UInt8) → Writer
  | .error _ => { s with phase := .idle }
  | .ok data =>
    if sendSize data < 0 then { s with phase := .undefined }
    else { s with phase := .sending (data.take (sendSize data).toNat) taken }

/-- The test of the loop, and its body up to the first `send`. -/
def next (heap : Nat → Nat → UInt8) (s : Writer) : List Protocol → Writer
  | [] => { s with phase := .idle }
  | protocol::taken => s.enterSend taken (Channel.serialize heap protocol)

/-- One `send` of the loop in `Send`. `OnFdWriteable` does not look at what `Send` returns. -/
def send (s : Writer) (remain : List UInt8) (taken : List Protocol) : SendResult → Writer
  | .accepted k =>
    let r := remain.take k
    if r.length = remain.length then
      { s with phase := .draining taken, accepted := s.accepted ++ r }
    else { s with phase := .sending (remain.drop k) taken, accepted := s.accepted ++ r }
  | .interrupted => s
  | .wouldBlock => { s with phase := .draining taken }
  | .failed => { s with phase := .draining taken }

/-- What an event does, where it can happen. -/
def step (heap : Nat → Nat → UInt8) (s : Writer) : WriteEvent → Option Writer
  | .write protocol =>
    some { s with
      writingProtocol := s.writingProtocol ++ [protocol], written := s.written ++ [protocol] }
  | .onFdWriteable =>
    match s.phase with
    | .idle => some { s with phase := .draining s.writingProtocol, writingProtocol := [] }
    | _ => none
  | .next =>
    match s.phase with
    | .draining taken => some (s.next heap taken)
    | _ => none
  | .send result =>
    match s.phase with
    | .sending remain taken => some (s.send remain taken result)
    | _ => none

/-- The states after some events, each `Allowed` where it happens. -/
inductive Reached (heap : Nat → Nat → UInt8) (Allowed : WriteEvent → Prop) : Writer → Prop
  | start : Reached heap Allowed start
  | step (s t : Writer) (event : WriteEvent) (before : Reached heap Allowed s)
      (allowed : Allowed event) (ran : s.step heap event = some t) : Reached heap Allowed t

theorem Reached.run {heap : Nat → Nat → UInt8} {Allowed : WriteEvent → Prop} {s t : Writer}
    (before : Reached heap Allowed s) (events : List WriteEvent)
    (allowed : ∀ event ∈ events, Allowed event)
    (ran : events.foldlM (Writer.step heap) s = some t) : Reached heap Allowed t := by
  induction events generalizing s with
  | nil => exact Option.some.inj ran ▸ before
  | cons event events ih =>
    rw [List.foldlM_cons] at ran
    obtain ⟨u,first,rest⟩ := Option.bind_eq_some_iff.mp ran
    exact ih (.step s u event before (allowed event (by simp)) first)
      (fun e member => allowed e (by simp [member])) rest

/-- No `send` stops with would-block or an error, and what is written has a size that
`int` holds. -/
def Undisturbed : WriteEvent → Prop
  | .write protocol => protocol.data.length+11 < 2^31
  | .onFdWriteable | .next => True
  | .send result => result ≠ .wouldBlock ∧ result ≠ .failed

/-- The protocols in the hands of `OnFdWriteable`, before the loop takes the next. -/
def taken (s : Writer) : List Protocol :=
  match s.phase with
  | .idle | .undefined => []
  | .draining taken => taken
  | .sending _ taken => taken

/-- The bytes of the protocol being sent that the socket has not taken. -/
def remain (s : Writer) : List UInt8 :=
  match s.phase with
  | .sending remain _ => remain
  | _ => []

def wires (protocols : List Protocol) : List UInt8 := (protocols.map Protocol.wire).flatten

/-- Every byte written is accepted, or still due in its place. -/
structure Conserved (s : Writer) : Prop where
  bytes : s.accepted ++ s.remain ++ wires (s.taken ++ s.writingProtocol) = wires s.written
  small : ∀ p ∈ s.taken ++ s.writingProtocol, p.data.length+11 < 2^31

theorem wires_append (a b : List Protocol) : wires (a++b) = wires a ++ wires b := by
  rw [wires,List.map_append,List.flatten_append]
  rfl

theorem wires_cons (p : Protocol) (rest : List Protocol) : wires (p::rest) = p.wire ++ wires rest := rfl

theorem sendSize_small {data : List UInt8} (small : data.length < 2^31) :
    sendSize data = data.length :=
  Int.bmod_eq_of_le (by omega) (by omega)

theorem next_conserved (heap : Nat → Nat → UInt8) {s : Writer} {taken : List Protocol}
    (phase : s.phase = .draining taken) (conserved : s.Conserved) : (s.next heap taken).Conserved := by
  obtain ⟨bytes,small⟩ := conserved
  simp only [Writer.taken,remain,phase] at bytes small
  cases taken with
  | nil =>
    rw [next]
    exact ⟨bytes,small⟩
  | cons protocol taken =>
    have fits : protocol.wire.length < 2^31 := by
      have bound := small protocol (by simp)
      rw [Protocol.wire_length]
      omega
    have size := sendSize_small fits
    have positive : ¬ sendSize protocol.wire < 0 := by omega
    have all : protocol.wire.take (sendSize protocol.wire).toNat = protocol.wire := by
      rw [size,Int.toNat_natCast,List.take_length]
    rw [next,serialize_wire,enterSend,if_neg positive,all]
    refine ⟨?_,fun p member => small p (List.mem_cons_of_mem _ member)⟩
    simpa only [Writer.taken,remain,List.cons_append,wires_cons,List.append_nil,
      List.append_assoc] using bytes

theorem send_conserved {s : Writer} {rest : List UInt8} {taken : List Protocol} {result : SendResult}
    (phase : s.phase = .sending rest taken) (conserved : s.Conserved)
    (undisturbed : result ≠ .wouldBlock ∧ result ≠ .failed) :
    (s.send rest taken result).Conserved := by
  obtain ⟨bytes,small⟩ := conserved
  simp only [Writer.taken,remain,phase] at bytes small
  cases result with
  | accepted k =>
    rw [send]
    split
    · next whole =>
      have all : rest.take k = rest := List.IsPrefix.eq_of_length (List.take_prefix k rest) whole
      exact ⟨by simpa only [Writer.taken,remain,all,List.append_nil] using bytes,small⟩
    · refine ⟨?_,small⟩
      simpa only [Writer.taken,remain,List.append_assoc,List.take_append_drop,
        ← List.append_assoc (rest.take k)] using bytes
  | interrupted => exact ⟨by simpa only [send,Writer.taken,remain,phase] using bytes,
      by simpa only [send,Writer.taken,phase] using small⟩
  | wouldBlock => exact (undisturbed.1 rfl).elim
  | failed => exact (undisturbed.2 rfl).elim

theorem step_conserved {heap : Nat → Nat → UInt8} {s t : Writer} {event : WriteEvent}
    (conserved : s.Conserved) (undisturbed : Undisturbed event)
    (ran : s.step heap event = some t) : t.Conserved := by
  cases event with
  | write protocol =>
    cases ran
    obtain ⟨bytes,small⟩ := conserved
    refine ⟨?_,?_⟩
    · change s.accepted ++ s.remain ++ wires (s.taken ++ (s.writingProtocol ++ [protocol])) = _
      rw [← List.append_assoc s.taken,wires_append _ [protocol],← List.append_assoc,bytes,wires_append]
    · intro p member
      change p ∈ s.taken ++ (s.writingProtocol ++ [protocol]) at member
      rw [← List.append_assoc] at member
      rcases List.mem_append.mp member with before | this
      · exact small p before
      · cases List.mem_singleton.mp this
        exact undisturbed
  | onFdWriteable =>
    rw [step] at ran
    split at ran
    · next phase =>
      cases ran
      obtain ⟨bytes,small⟩ := conserved
      simp only [Writer.taken,remain,phase] at bytes small
      exact ⟨by simpa only [Writer.taken,remain,List.append_nil,List.nil_append] using bytes,
        by simpa only [Writer.taken,List.append_nil,List.nil_append] using small⟩
    · contradiction
  | next =>
    rw [step] at ran
    split at ran
    · next phase =>
      cases ran
      exact next_conserved heap phase conserved
    · contradiction
  | send result =>
    rw [step] at ran
    split at ran
    · next phase =>
      cases ran
      exact send_conserved phase conserved undisturbed
    · contradiction

theorem reached_conserved {heap : Nat → Nat → UInt8} {s : Writer}
    (reached : Reached heap Undisturbed s) : s.Conserved := by
  induction reached with
  | start => exact ⟨rfl,by simp [start,taken]⟩
  | step s t event before allowed ran ih => exact step_conserved ih allowed ran

/-- Undisturbed, the socket has at all times accepted a prefix of the protocols in the
order they were written. -/
theorem accepted_in_order (heap : Nat → Nat → UInt8) (s : Writer) (reached : Reached heap Undisturbed s) :
    ∃ texts, s.written.mapM (Channel.serialize heap) = .ok texts ∧ s.accepted <+: texts.flatten := by
  refine ⟨_,serialize_all heap s.written,?_⟩
  have bytes := (reached_conserved reached).bytes
  rw [List.append_assoc] at bytes
  exact ⟨_,bytes⟩

/-- A second protocol is pushed while the first is being sent in two pieces. -/
theorem accepted_in_order_interleaved :
    ∃ s : Writer, s.accepted.length = 19 ∧ s.written.length = 2 ∧ ∃ texts,
      s.written.mapM (Channel.serialize (fun _ _ => 0)) = .ok texts ∧ s.accepted <+: texts.flatten := by
  have reached : Reached (fun _ _ => 0) Undisturbed
      ⟨[Protocol.createWith .acceptPeer [9]],.sending [6,7] [],
        [0xcc,1,5,10,0,0,0,10,0,0,0,8,9,1,2,3,4,5,5],
        [Protocol.createWith .userMessage [8,9,1,2,3,4,5,5,6,7],Protocol.createWith .acceptPeer [9]]⟩ :=
    Reached.start.run [.write (Protocol.createWith .userMessage [8,9,1,2,3,4,5,5,6,7]),
        .onFdWriteable,.next,.send (.accepted 3),.write (Protocol.createWith .acceptPeer [9]),
        .send .interrupted,.send (.accepted 16)]
      (by simp [Undisturbed,Protocol.createWith]) (by decide +kernel)
  exact ⟨_,rfl,rfl,accepted_in_order _ _ reached⟩

/-- The socket takes three bytes of the first protocol and is full; the second follows
after those three. -/
theorem accepted_cut_short :
    ∃ s : Writer, Reached (fun _ _ => 0) (fun _ => True) s ∧ ∃ texts,
      s.written.mapM (Channel.serialize (fun _ _ => 0)) = .ok texts ∧
      ¬ s.accepted <+: texts.flatten := by
  have reached : Reached (fun _ _ => 0) (fun _ => True)
      ⟨[],.draining [],[0xcc,1,5,0xcc,1,9,1,0,0,0,1,0,0,0,7],
        [Protocol.createWith .userMessage [8],Protocol.createWith .acceptPeer [7]]⟩ :=
    Reached.start.run [.write (Protocol.createWith .userMessage [8]),
        .write (Protocol.createWith .acceptPeer [7]),.onFdWriteable,.next,.send (.accepted 3),
        .send .wouldBlock,.next,.send (.accepted 100)]
      (fun _ _ => trivial) (by decide +kernel)
  exact ⟨_,reached,_,serialize_all _ _,by decide⟩

end Writer

end MojoImpl.ChannelPosix
