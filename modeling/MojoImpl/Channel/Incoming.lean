import MojoImpl.Channel.Serialize

/-! The reading half of channel_posix.cc, over `sock::Recvn` of sock_ops.cc. The socket is
the bytes that have not been received yet and, for each call into it, how it comes back. -/
namespace MojoImpl
open Foundation MojoImpl.ByteArray

/-- How one `recv` comes back: with at most `k` bytes, with a value of `errno`, or with
zero because the peer has closed, after which nothing arrives any more. -/
inductive RecvResult
  | data (k : Nat)
  | interrupted
  | wouldBlock
  | failed
  | endOfStream
  deriving DecidableEq, Repr

/-- The call is not cut off: it has bytes, or is made again. -/
def RecvResult.Goes : RecvResult → Prop
  | .data _ | .interrupted => True
  | .wouldBlock | .failed | .endOfStream => False

/-- What a `Recvn` call leaves: the bytes it put into the buffer, its return value, the
bytes still to be received and the results of later calls. -/
structure Received where
  buf : List UInt8
  ret : Int
  incoming : List UInt8
  results : List RecvResult
  deriving DecidableEq, Repr

namespace sock

/-- The loop of `Recvn(fd, buf, n)`. A call past the listed results is given all it asks
for that is there. -/
def recvnLoop (n : Nat) : List RecvResult → List UInt8 → Nat → Received
  | [], incoming, remain =>
    let r := incoming.take remain
    ⟨r,if r.length = remain then n else 0,incoming.drop remain,[]⟩
  | .data k :: results, incoming, remain =>
    let r := incoming.take (min (max k 1) remain)
    if r.length = remain then ⟨r,n,incoming.drop r.length,results⟩
    else if r.length = 0 then ⟨[],0,incoming,results⟩
    else
      let more := recvnLoop n results (incoming.drop r.length) (remain - r.length)
      { more with buf := r ++ more.buf }
  | .interrupted :: results, incoming, remain => recvnLoop n results incoming remain
  | .wouldBlock :: results, incoming, _ => ⟨[],-1,incoming,results⟩
  | .failed :: results, incoming, _ => ⟨[],-1,incoming,results⟩
  | .endOfStream :: results, _, remain => ⟨[],if remain = 0 then n else 0,[],results⟩

def recvn (results : List RecvResult) (incoming : List UInt8) (n : Nat) : Received :=
  recvnLoop n results incoming n

theorem recvnLoop_complete (n : Nat) {results : List RecvResult} (incoming : List UInt8)
    (remain : Nat) (goes : ∀ r ∈ results, r.Goes) (there : remain ≤ incoming.length) :
    ∃ rest, recvnLoop n results incoming remain =
        ⟨incoming.take remain,n,incoming.drop remain,rest⟩ ∧ ∀ r ∈ rest, r.Goes := by
  induction results generalizing incoming remain with
  | nil =>
    refine ⟨[],?_,by simp⟩
    simp only [recvnLoop,List.length_take,Nat.min_eq_left there,if_true]
  | cons result results ih =>
    have later : ∀ r ∈ results, r.Goes := fun r member => goes r (by simp [member])
    cases result with
    | data k =>
      have sized : (incoming.take (min (max k 1) remain)).length = min (max k 1) remain := by
        rw [List.length_take]
        omega
      by_cases whole : min (max k 1) remain = remain
      · refine ⟨results,?_,later⟩
        simp only [recvnLoop,whole,List.length_take,Nat.min_eq_left there,if_true]
      · have some_byte : min (max k 1) remain ≠ 0 := by omega
        obtain ⟨rest,ran,goes'⟩ := ih (incoming.drop (min (max k 1) remain))
          (remain - min (max k 1) remain) later (by rw [List.length_drop]; omega)
        refine ⟨rest,?_,goes'⟩
        have total : min (max k 1) remain + (remain - min (max k 1) remain) = remain := by omega
        simp only [recvnLoop,sized,whole,some_byte,if_false,ran,← List.take_add,List.drop_drop,total]
    | interrupted => exact ih incoming remain later there
    | wouldBlock => exact False.elim (goes .wouldBlock (by simp))
    | failed => exact False.elim (goes .failed (by simp))
    | endOfStream => exact False.elim (goes .endOfStream (by simp))

end sock

namespace ChannelPosix

/-- The reading side of a channel whose delegate records what it is given. -/
structure Reader where
  incoming : List UInt8
  delivered : List Protocol
  deriving DecidableEq, Repr

/-- `buf[i]` is the `i`-th byte received, or what the stack held there before. -/
def readFixBufFromSocket (stack : Nat → UInt8) (results : List RecvResult)
    (incoming : List UInt8) (fixLen : UInt16) : Received :=
  let got := sock.recvn results incoming fixLen.toNat
  { got with buf := (List.range fixLen.toNat).map fun i => got.buf.getD i (stack i) }

variable (heap : Nat → Nat → UInt8) (stack : Nat → Nat → UInt8)

/-- `stack k` is what the `k`-th buffer of the call holds at first. The content length
goes through `int` into the 16 bits of `fix_len`. -/
def onFdReadable (results : List RecvResult) (s : Reader) : Except Fault Reader := do
  let header := readFixBufFromSocket (stack 0) results s.incoming Protocol.kBaseLen.toUInt16
  let protocol ← Channel.deserializeProtocol heap header.buf
  let body := readFixBufFromSocket (stack 1) header.results header.incoming
    protocol.contentLength.toUInt16
  return ⟨body.incoming,s.delivered ++ [{ protocol with data := body.buf }]⟩

/-- One call of the event loop, with what it meets. -/
structure ReadCall where
  stack : Nat → Nat → UInt8
  results : List RecvResult

def onFdReadables (calls : List ReadCall) (s : Reader) : Except Fault Reader :=
  calls.foldlM (fun s call => onFdReadable heap call.stack call.results s) s

section Frames

theorem readFixBufFromSocket_complete (stack : Nat → UInt8) {results : List RecvResult}
    (incoming : List UInt8) (fixLen : UInt16) (goes : ∀ r ∈ results, r.Goes)
    (there : fixLen.toNat ≤ incoming.length) :
    ∃ rest, readFixBufFromSocket stack results incoming fixLen =
        ⟨incoming.take fixLen.toNat,fixLen.toNat,incoming.drop fixLen.toNat,rest⟩ ∧
      ∀ r ∈ rest, r.Goes := by
  obtain ⟨rest,ran,goes'⟩ := sock.recvnLoop_complete fixLen.toNat incoming _ goes there
  refine ⟨rest,?_,goes'⟩
  have filled : (List.range fixLen.toNat).map
      (fun i => (incoming.take fixLen.toNat).getD i (stack i)) = incoming.take fixLen.toNat := by
    apply List.ext_getElem (by simp [there])
    intro i inside inside'
    rw [List.getElem_map,List.getElem_range,List.getD_eq_getElem?_getD,
      List.getElem?_eq_getElem inside',Option.getD_some]
  simp only [readFixBufFromSocket,sock.recvn,ran,filled]

def head (p : Protocol) : List UInt8 :=
  Protocol.header.print (p.magic,p.version,p.type,UInt32.ofNat p.data.length) ++
    littleEndian 4 p.data.length

theorem head_length (p : Protocol) : (head p).length = 11 := by
  simp [head,Protocol.header,Format.seq,uint8,uint32,Format.via,Format.uint]

theorem wire_head (p : Protocol) : p.wire = head p ++ p.data := by
  have length : littleEndian 4 (UInt32.ofNat p.data.length).toNat = littleEndian 4 p.data.length := by
    rw [UInt32.toNat_ofNat']
    exact littleEndian_mod 4 p.data.length
  simp only [head,Protocol.wire,Protocol.header,Format.seq,uint8,uint32,Format.via,Format.uint,length,
    Format.counted_print,List.append_assoc]

/-- A frame as the reader builds it: the length field set, and the content cut to the
16 bits of its length that reach `fix_len`. -/
def received (p : Protocol) : Protocol :=
  { p with
    contentLength := UInt32.ofNat p.data.length, data := p.data.take (p.data.length%2^16) }

theorem deserializeProtocol_head (p : Protocol) :
    Channel.deserializeProtocol heap (head p) =
      .ok { p with contentLength := UInt32.ofNat p.data.length, data := [] } := by
  have short := head_length p
  have starts : (Protocol.header.part Protocol.create.headerCase).Starts
      { p with contentLength := UInt32.ofNat p.data.length, data := [] } (rewrapped (head p)) := by
    rw [rewrapped_short (by omega)]
    exact (Format.part_starts _ _).mpr ⟨_,rfl,
      ⟨p.magic.toNat_lt,p.version.toNat_lt,p.type.toNat_lt,(UInt32.ofNat p.data.length).toNat_lt⟩,
      List.prefix_append _ _⟩
  rcases deserialize_reads heap (fun s synced _ _ => Protocol.create.reads_decode synced) (head p)
    with ⟨q,starts',ran⟩ | ⟨absent,_⟩
  · rw [Channel.deserializeProtocol,ran,starts.unique starts']
  · exact (absent _ starts).elim

/-- A call that finds a frame in front and is not cut off takes the header and the low
16 bits' worth of the content. -/
theorem onFdReadable_frame (results : List RecvResult) (goes : ∀ r ∈ results, r.Goes)
    (p : Protocol) (rest : List UInt8) (delivered : List Protocol) :
    onFdReadable heap stack results ⟨p.wire ++ rest,delivered⟩ =
      .ok ⟨p.data.drop (p.data.length%2^16) ++ rest,delivered ++ [received p]⟩ := by
  have eleven := head_length p
  have base : Protocol.kBaseLen.toUInt16.toNat = 11 := rfl
  have split : p.wire ++ rest = head p ++ (p.data ++ rest) := by rw [wire_head,List.append_assoc]
  obtain ⟨results',header,goes'⟩ := readFixBufFromSocket_complete (stack 0)
    (p.wire ++ rest) Protocol.kBaseLen.toUInt16 goes
    (by rw [split,List.length_append,base]; omega)
  have length : (UInt32.ofNat p.data.length).toUInt16.toNat = p.data.length%2^16 := by
    rw [UInt32.toNat_toUInt16,UInt32.toNat_ofNat']
    omega
  have fits : p.data.length%2^16 ≤ p.data.length := Nat.mod_le _ _
  obtain ⟨_,body,_⟩ := readFixBufFromSocket_complete (stack 1)
    (p.data ++ rest) (UInt32.ofNat p.data.length).toUInt16 goes'
    (by rw [length,List.length_append]; omega)
  rw [split,base,← eleven,List.take_left,List.drop_left,← split] at header
  rw [length,List.take_append_of_le_length fits,List.drop_append_of_le_length fits] at body
  simp only [onFdReadable,header,deserializeProtocol_head,bind,Except.bind,body]
  rfl

end Frames

end ChannelPosix

end MojoImpl
