import MojoImpl.Message
import MojoImpl.Foundation.Table

/-! Ports and their message queues, from ports/port.h, port_ref.h and message_queue.cc. -/
namespace MojoImpl.Ports
open Foundation

def kInitialSequenceNum : UInt64 := 1

/-- `heap` is `heap_` from front to back. -/
structure MessageQueue where
  heap : List UserMessage
  nextSequenceNum : UInt64
  signalable : Bool
  deriving DecidableEq, Repr

namespace MessageQueue

def create : MessageQueue := ⟨[],kInitialSequenceNum,true⟩

def hasNextMessage (q : MessageQueue) : Bool := !q.heap.isEmpty

/-- The back of the vector is moved out; on an empty one there is none to take. The
shrinking of the storage that follows is not seen. -/
def getNextMessage (q : MessageQueue) : Option (UserMessage × MessageQueue) :=
  match q.heap.getLast? with
  | none => none
  | some message => some (message,{ q with heap := q.heap.dropLast })

/-- The queue, and what is stored through `has_next_message`. -/
def acceptMessage (q : MessageQueue) (message : UserMessage) : MessageQueue × Bool :=
  ({ q with heap := q.heap ++ [message] },q.signalable)

end MessageQueue

inductive Port.State
  | uninitialized
  | receiving
  | buffering
  | proxying
  | closed
  deriving DecidableEq, Repr

structure Port where
  state : Port.State
  peerPortName : PortName
  peerNodeName : NodeName
  messageQueue : MessageQueue
  deriving DecidableEq, Repr

/-- `make_shared<Port>()` zeroes the members without an initializer. -/
def Port.create : Port := ⟨.uninitialized,kInvalidPortName,kInvalidNodeName,.create⟩

/-- The address of a `Port` object; a shared pointer is one or null. -/
abbrev PortPtr := Nat

structure PortRef where
  name : PortName
  port : Option PortPtr
  deriving DecidableEq, Repr

def PortRef.create : PortRef := ⟨kInvalidPortName,none⟩

end MojoImpl.Ports
