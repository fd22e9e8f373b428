import MojoImpl.ByteArray.Stream

/-! The container part of serializer.h: the types it is instantiated at, their values, and
its `operator<<` and `operator>>`. A `float` or a `double` is its bit pattern. -/
namespace MojoImpl.Serializer
open Foundation MojoImpl.ByteArray

inductive Scalar
  | bool
  | float
  | double
  | int8
  | uint8
  | int16
  | uint16
  | int32
  | uint32
  | int64
  | uint64
  | string
  deriving DecidableEq, Repr

inductive Collection
  | vector
  | set
  | multiset
  | unorderedSet
  | unorderedMultiset
  deriving DecidableEq, Repr

inductive Mapping
  | map
  | multimap
  | unorderedMap
  | unorderedMultimap
  deriving DecidableEq, Repr

/-- The types of values. Some of them no container of the language admits, such as a hashed
set of vectors; nothing below depends on which. -/
inductive Ty
  | scalar (kind : Scalar)
  | pair (first second : Ty)
  | collection (kind : Collection) (element : Ty)
  | mapping (kind : Mapping) (key value : Ty)
  deriving DecidableEq, Repr

@[reducible] def Scalar.Value : Scalar → Type
  | .bool => Bool
  | .float => UInt32
  | .double => UInt64
  | .int8 => Int8
  | .uint8 => UInt8
  | .int16 => Int16
  | .uint16 => UInt16
  | .int32 => Int32
  | .uint32 => UInt32
  | .int64 => Int64
  | .uint64 => UInt64
  | .string => List UInt8

/-- A container is the list of what it holds, in the order of its iteration. -/
@[reducible] def Ty.Value : Ty → Type
  | .scalar kind => kind.Value
  | .pair first second => first.Value × second.Value
  | .collection _ element => List element.Value
  | .mapping _ key value => List (key.Value × value.Value)

/-- What `T t;` leaves in `t`. An uninitialised scalar is overwritten before it is used. -/
def fresh : (t : Ty) → t.Value
  | .scalar .bool => false
  | .scalar .float => (0 : UInt32)
  | .scalar .double => (0 : UInt64)
  | .scalar .int8 => (0 : Int8)
  | .scalar .uint8 => (0 : UInt8)
  | .scalar .int16 => (0 : Int16)
  | .scalar .uint16 => (0 : UInt16)
  | .scalar .int32 => (0 : Int32)
  | .scalar .uint32 => (0 : UInt32)
  | .scalar .int64 => (0 : Int64)
  | .scalar .uint64 => (0 : UInt64)
  | .scalar .string => []
  | .pair first second => (fresh first,fresh second)
  | .collection _ _ => []
  | .mapping _ _ _ => []

section Writers

def writeScalar : (kind : Scalar) → kind.Value → Action Unit
  | .bool, t => writeFint8 (if t then 1 else 0)
  | .float, t => writeFloat t
  | .double, t => writeDouble t
  | .int8, t => writeFint8 t
  | .uint8, t => writeFuint8 t
  | .int16, t => writeFint16 t
  | .uint16, t => writeFuint16 t
  | .int32, t => writeInt32 t
  | .uint32, t => writeUint32 t
  | .int64, t => writeInt64 t
  | .uint64, t => writeUint64 t
  | .string, t => writeStringVint t

def insert : (t : Ty) → t.Value → Action Unit
  | .scalar kind, i => writeScalar kind i
  | .pair first second, m => do
    insert first m.1
    insert second m.2
  | .collection _ element, v => do
    writeScalar .uint64 (UInt64.ofNat v.length)
    v.forM (insert element)
  | .mapping _ key value, m => do
    writeScalar .uint64 (UInt64.ofNat m.length)
    m.forM fun p => do
      insert key p.1
      insert value p.2

end Writers

section Readers

def readScalar : (kind : Scalar) → Action kind.Value
  | .bool => do
    let t ← readFint8
    return t != 0
  | .float => readFloat
  | .double => readDouble
  | .int8 => readFint8
  | .uint8 => readFuint8
  | .int16 => readFint16
  | .uint16 => readFuint16
  | .int32 => readInt32
  | .uint32 => readUint32
  | .int64 => readInt64
  | .uint64 => readUint64
  | .string => readStringVint

/-- `Serializer::read`, which has no branch for a type that is not scalar and then leaves
`t` as it is. -/
def read : (t : Ty) → t.Value → Action t.Value
  | .scalar kind, _ => readScalar kind
  | .pair _ _, t => return t
  | .collection _ _, t => return t
  | .mapping _ _ _, t => return t

def Collection.unique : Collection → Bool
  | .set => true
  | .unorderedSet => true
  | _ => false

def Mapping.unique : Mapping → Bool
  | .map => true
  | .unorderedMap => true
  | _ => false

/-- Which values a container takes for the same element or key. -/
abbrev SameElement := (t : Ty) → t.Value → t.Value → Bool

/-- A container takes `e` unless it is unique and holds something that clashes with it. -/
def place {β : Type} (unique : Bool) (clash : β → β → Bool) (held : List β) (e : β) : List β :=
  if unique && held.any (clash · e) then held else held ++ [e]

variable (same : SameElement)

/-- `emplace_back` and `emplace`. -/
def emplace (kind : Collection) {t : Ty} (v : List t.Value) (e : t.Value) : List t.Value :=
  place kind.unique (same t) v e

def emplacePair (kind : Mapping) {k e : Ty} (m : List (k.Value × e.Value)) (p : k.Value × e.Value) :
    List (k.Value × e.Value) :=
  place kind.unique (fun p q => same k p.1 q.1) m p

/-- `operator>>`, from the value of its argument before to the one after. What is put into
a map goes through it again, what is put into another container only through `read`. -/
def extract : (t : Ty) → t.Value → Action t.Value
  | .scalar kind, i => read (.scalar kind) i
  | .pair first second, m => do
    let a ← extract first m.1
    let b ← extract second m.2
    return (a,b)
  | .collection kind element, v => do
    let size ← readScalar .uint64
    times (fun v => do
      let t ← read element (fresh element)
      return emplace same kind v t) size.toNat v
  | .mapping kind key value, m => do
    let size ← readScalar .uint64
    times (fun m => do
      let a ← extract key (fresh key)
      let b ← extract value (fresh value)
      return emplacePair same kind m (a,b)) size.toNat m

end Readers

section Objects
variable (same : SameElement)

/-- Sizes are those of a 64-bit host, and a unique container holds nothing twice. -/
def Valid : (t : Ty) → t.Value → Prop
  | .scalar .string, v => v.length < 2^64
  | .scalar _, _ => True
  | .pair first second, v => Valid first v.1 ∧ Valid second v.2
  | .collection kind element, v => v.length < 2^64 ∧ (∀ e ∈ v, Valid element e) ∧
      (kind.unique = true → v.Pairwise fun x y => same element x y = false)
  | .mapping kind key value, v => v.length < 2^64 ∧ (∀ p ∈ v, Valid key p.1 ∧ Valid value p.2) ∧
      (kind.unique = true → v.Pairwise fun p q => same key p.1 q.1 = false)

/-- A value a variable of type `t` can have. -/
structure Object (t : Ty) where
  value : t.Value
  valid : Valid same t value

/-- Equality as sequences, sets, multisets and finite maps. -/
def Equal : (t : Ty) → t.Value → t.Value → Prop
  | .scalar _, x, y => x = y
  | .pair first second, x, y => Equal first x.1 y.1 ∧ Equal second x.2 y.2
  | .collection .vector element, x, y => List.Forall₂ (Equal element) x y
  | .collection _ element, x, y => ∃ z : List element.Value, z.Perm y ∧ List.Forall₂ (Equal element) x z
  | .mapping _ key value, x, y => ∃ z : List (key.Value × value.Value), z.Perm y ∧
      List.Forall₂ (fun p q => Equal key p.1 q.1 ∧ Equal value p.2 q.2) x z

/-- Written to a fresh `Serializer` and, after `reset`, read into a fresh variable, `v` is
what the variable holds. -/
def RoundTrips (heap : Nat → Nat → UInt8) (t : Ty) (v : t.Value) : Prop :=
  ∃ a s, (do
    insert t v
    setPosition 0
    extract same t (fresh t)).run (create heap kBaseSize) = .ok a s ∧ Equal t a v

end Objects

end MojoImpl.Serializer
