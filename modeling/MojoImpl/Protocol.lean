import MojoImpl.Message

/-! The private frame of protocol.h: magic number, version, type, the content length
twice, and the content. -/
namespace MojoImpl
open Foundation MojoImpl.ByteArray

structure Protocol where
  magic : UInt8
  version : UInt8
  type : UInt8
  contentLength : UInt32
  data : List UInt8
  deriving DecidableEq, Repr

namespace Protocol

def kMagic : UInt8 := 0xcc
def kDefaultVersion : UInt8 := 0x01
/-- 7 bytes of header, 4 for the length of the data. -/
def kBaseLen : UInt8 := 7 + 4

def create : Protocol := ⟨kMagic,kDefaultVersion,MsgType.userMessage.toByte,0,[]⟩

/-- `Create(type, content)`; the content length field stays 0. -/
def createWith (type : MsgType) (content : List UInt8) : Protocol :=
  { create with type := type.toByte, data := content }

def msgType (p : Protocol) : Option MsgType := MsgType.ofByte p.type

def encode (p : Protocol) : Action Unit := do
  writeFuint8 p.magic
  writeFuint8 p.version
  writeFuint8 p.type
  writeFuint32 (UInt32.ofNat p.data.length)
  writeStringF32 p.data
  setPosition 0

/-- `Decode` is `DecodeMeta`: the content is left to the caller. -/
def decode (p : Protocol) : Action Protocol := do
  let magic ← readFuint8
  let version ← readFuint8
  let type ← readFuint8
  let contentLength ← readFuint32
  return { p with magic, version, type, contentLength }

/-- The bytes `Encode` leaves in the buffer. -/
def wire (p : Protocol) : List UInt8 :=
  littleEndian 1 p.magic.toNat ++ (littleEndian 1 p.version.toNat ++ (littleEndian 1 p.type.toNat ++
    (littleEndian 4 p.data.length ++ (Format.counted 4).print p.data)))

theorem wire_length (p : Protocol) : p.wire.length = 11+p.data.length := by
  simp only [wire,Format.counted_print,List.length_append,littleEndian_length]
  omega

theorem appends_frame (p : Protocol) :
    ∃ body, p.encode = (body >>= fun _ => setPosition 0) ∧ Appends body p.wire := by
  have length : littleEndian 4 (UInt32.ofNat p.data.length).toNat = littleEndian 4 p.data.length := by
    rw [UInt32.toNat_ofNat']
    exact littleEndian_mod 4 p.data.length
  refine ⟨writeFuint8 p.magic >>= fun _ => writeFuint8 p.version >>= fun _ =>
    writeFuint8 p.type >>= fun _ => writeFuint32 (UInt32.ofNat p.data.length) >>= fun _ =>
    writeStringF32 p.data,by simp only [encode,bind_assoc],?_⟩
  rw [wire,← length]
  exact (appends_writeFint _ _).bind ((appends_writeFint _ _).bind ((appends_writeFint _ _).bind
    ((appends_writeFint _ _).bind (appends_writeStringF32 _))))

def header : Format (UInt8 × UInt8 × UInt8 × UInt32) :=
  uint8.seq fun _ => uint8.seq fun _ => uint8.seq fun _ => uint32

/-- `p` with the fields `DecodeMeta` sets. -/
def headerCase (p : Protocol) : Case (UInt8 × UInt8 × UInt8 × UInt32) Protocol where
  into q := if q.data = p.data then some (q.magic,q.version,q.type,q.contentLength) else none
  out f := { p with magic := f.1, version := f.2.1, type := f.2.2.1, contentLength := f.2.2.2 }
  exact q f known := by
    split at known
    · next same =>
      cases known
      simp only [← same]
    · contradiction
  known f := if_pos rfl

theorem reads_decode (p : Protocol) {s : ByteArray} (synced : s.Synced) :
    Reads p.decode (header.part p.headerCase) s := by
  have fields := (reads_readFuint8 synced).pair (y := fun _ => _) (G := fun _ => _) (fun a starts =>
    (reads_readFuint8 (starts_synced synced starts)).pair (y := fun _ => _) (G := fun _ => _)
      (fun b starts' => (reads_readFuint8 (starts_synced (starts_synced synced starts) starts')).pair
        (y := fun _ => readFuint32) (G := fun _ => uint32) (fun c starts'' => reads_readFuint32
          (starts_synced (starts_synced (starts_synced synced starts) starts') starts''))))
  refine (fields.part p.headerCase).congr ?_
  simp only [decode,headerCase,bind_assoc,pure_bind]

end Protocol

end MojoImpl
