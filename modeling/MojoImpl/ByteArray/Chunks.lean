import MojoImpl.Foundation.Splice
import Mathlib.Algebra.Order.Ring.Nat

/-! The chunked buffer of byte_array.h and byte_array.cc.
Sizes and positions are naturals where the source has `size_t`, and a difference of
two of them wraps as the unsigned one does. -/
namespace MojoImpl
open Foundation

/-- How a call ends when it does not return: `std::out_of_range` is thrown, or a
null pointer is dereferenced, which has no meaning in the language. -/
inductive Fault
  | outOfRange
  | nullDeref
  deriving DecidableEq, Repr

/-- `chunks` is the list hanging off `m_root`, each node being its `size` bytes;
`cur` is the index of the node `m_cur` points to, `none` for a null pointer.
`heap k` is what the `k`-th chunk of this object holds when `new char[]` returns it. -/
structure ByteArray where
  baseSize : Nat
  position : Nat
  capacity : Nat
  size : Nat
  chunks : List (List UInt8)
  cur : Option Nat
  allocated : Nat
  heap : Nat → Nat → UInt8

namespace ByteArray

abbrev Action (α : Type) := EStateM Fault ByteArray α

/-- The default of the constructor's `base_size`. -/
def kBaseSize : Nat := 4096

def node (heap : Nat → Nat → UInt8) (k size : Nat) : List UInt8 := (List.range size).map (heap k)

def create (heap : Nat → Nat → UInt8) (baseSize : Nat) : ByteArray where
  baseSize := baseSize
  position := 0
  capacity := baseSize
  size := 0
  chunks := [node heap 0 baseSize]
  cur := some 0
  allocated := 1
  heap := heap

/-- The node `k` steps from `m_root`, null past the last one. -/
def nodeAt (chunks : List (List UInt8)) (k : Nat) : Option Nat :=
  if k < chunks.length then some k else none

/-- The difference of two `size_t` values. -/
def sizeSub (a b : Nat) : Nat := if b ≤ a then a - b else a + 2^64 - b

def getReadSize (s : ByteArray) : Nat := sizeSub s.size s.position

def getCapacity (s : ByteArray) : Nat := sizeSub s.capacity s.position

def appendNode (s : ByteArray) : ByteArray :=
  { s with
    chunks := s.chunks ++ [node s.heap s.allocated s.baseSize]
    capacity := s.capacity + s.baseSize
    allocated := s.allocated + 1 }

def appendNodes : Nat → ByteArray → ByteArray
  | 0, s => s
  | count+1, s => appendNodes count s.appendNode

/-- `ceil(1.0 * size / m_baseSize)` is taken as exact. -/
def addCapacity (size : Nat) (s : ByteArray) : ByteArray :=
  if size = 0 then s else
  let oldCap := s.getCapacity
  if size ≤ oldCap then s else
  let count := (size - oldCap + s.baseSize - 1) / s.baseSize
  let grown := appendNodes count s
  if oldCap = 0 then { grown with cur := nodeAt grown.chunks s.chunks.length } else grown

/-- The loop of `write`, over the nodes from `m_cur` on: the nodes with the bytes
copied in, and how many times `m_cur` moves to the next one. Running off the list
with bytes left is a read of `m_cur->size` through a null `m_cur`. -/
def writeLoop : List (List UInt8) → Nat → List UInt8 → Option (List (List UInt8) × Nat)
  | [], _, _ => none
  | node::next, npos, buf =>
    let ncap := node.length - npos
    if buf.length ≤ ncap then
      some (splice node npos buf :: next, if node.length = npos + buf.length then 1 else 0)
    else do
      let (rest, hops) ← writeLoop next 0 (buf.drop ncap)
      some (splice node npos (buf.take ncap) :: rest, hops + 1)

/-- The loop of both `read` overloads, from the node they start in. -/
def readLoop : List (List UInt8) → Nat → Nat → Option (List UInt8 × Nat)
  | [], _, _ => none
  | node::next, npos, size =>
    let ncap := node.length - npos
    if size ≤ ncap then
      some (window node npos size, if node.length = npos + size then 1 else 0)
    else do
      let (rest, hops) ← readLoop next 0 (size - ncap)
      some (window node npos ncap ++ rest, hops + 1)

/-- The walk of `setPosition` from `m_root`. -/
def seekLoop : List (List UInt8) → Nat → Option Nat
  | [], _ => none
  | node::next, v =>
    if node.length < v then (seekLoop next (v - node.length)).map (· + 1)
    else some (if v = node.length then 1 else 0)

def write (buf : List UInt8) : Action Unit := fun s =>
  if buf.length = 0 then .ok () s else
  let s := s.addCapacity buf.length
  match s.cur with
  | none => .error .nullDeref s
  | some i =>
    match writeLoop (s.chunks.drop i) (s.position % s.baseSize) buf with
    | none => .error .nullDeref s
    | some (nodes, hops) =>
      .ok () { s with
        chunks := s.chunks.take i ++ nodes
        cur := nodeAt s.chunks (i + hops)
        position := s.position + buf.length
        size := max s.size (s.position + buf.length) }

/-- `m_cur->size` is read before the loop, also when no byte is asked for. -/
def read (size : Nat) : Action (List UInt8) := fun s =>
  if s.getReadSize < size then .error .outOfRange s else
  match s.cur with
  | none => .error .nullDeref s
  | some i =>
    if size = 0 then .ok [] s else
    match readLoop (s.chunks.drop i) (s.position % s.baseSize) size with
    | none => .error .nullDeref s
    | some (bytes, hops) =>
      .ok bytes { s with cur := nodeAt s.chunks (i + hops), position := s.position + size }

/-- The const overload. It starts in the node of the current position, whatever
its argument, and its bound wraps for an argument past `m_size`. -/
def readAt (size position : Nat) : Action (List UInt8) := fun s =>
  if sizeSub s.size position < size then .error .outOfRange s else
  match s.cur with
  | none => .error .nullDeref s
  | some i =>
    if size = 0 then .ok [] s else
    match readLoop (s.chunks.drop i) (position % s.baseSize) size with
    | none => .error .nullDeref s
    | some (bytes, _) => .ok bytes s

def setPosition (v : Nat) : Action Unit := fun s =>
  if s.capacity < v then .error .outOfRange s else
  let s := { s with position := v, size := max s.size v }
  match seekLoop s.chunks v with
  | none => .error .nullDeref s
  | some hops => .ok () { s with cur := nodeAt s.chunks hops }

/-- Every node but the first is freed; the first keeps its bytes. -/
def clear : Action Unit := fun s =>
  match s.chunks with
  | [] => .error .nullDeref s
  | root::_ =>
    .ok () { s with
      position := 0, size := 0, capacity := s.baseSize, chunks := [root], cur := some 0 }

def toString : Action (List UInt8) := fun s =>
  if s.getReadSize = 0 then .ok [] s else readAt s.getReadSize s.position s

end ByteArray

end MojoImpl
