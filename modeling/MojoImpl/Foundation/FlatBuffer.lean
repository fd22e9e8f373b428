import MojoImpl.Foundation.Splice

/-! A flat store with a cursor: the store is one sequence, the first `size` elements
of it are data, and the cursor is a position among them. -/
namespace Foundation

structure FlatBuffer (α : Type) where
  store : List α
  position : Nat
  size : Nat
  ordered : position ≤ size
  inside : size ≤ store.length

namespace FlatBuffer
variable {α : Type}

@[ext] theorem ext' {f g : FlatBuffer α} (store : f.store = g.store)
    (position : f.position = g.position) (size : f.size = g.size) : f = g := by
  cases f
  cases g
  simp_all

def unread (f : FlatBuffer α) : List α := window f.store f.position (f.size-f.position)

theorem unread_length (f : FlatBuffer α) : f.unread.length = f.size-f.position := by
  have := f.ordered
  have := f.inside
  exact window_length _ _ _ (by omega)

/-- Overwrite at the cursor and pass over the new elements; the store is first
extended by `more` when it is too short. -/
def put (f : FlatBuffer α) (more d : List α)
    (fits : f.position+d.length ≤ f.store.length+more.length) : FlatBuffer α where
  store := splice (f.store++more) f.position d
  position := f.position+d.length
  size := max f.size (f.position+d.length)
  ordered := Nat.le_max_right _ _
  inside := by
    have := f.inside
    rw [splice_length _ _ _ (by simpa using fits),List.length_append]
    omega

def get (f : FlatBuffer α) (n : Nat) : Option (List α × FlatBuffer α) :=
  if fits : n ≤ f.size-f.position then
    some (window f.store f.position n,
      { f with position := f.position+n, ordered := by have := f.ordered; omega })
  else none

/-- Move the cursor anywhere in the store; what it passes over becomes data. -/
def seek (f : FlatBuffer α) (v : Nat) : Option (FlatBuffer α) :=
  if fits : v ≤ f.store.length then
    some { f with
      position := v
      size := max f.size v
      ordered := Nat.le_max_right _ _
      inside := Nat.max_le.mpr ⟨f.inside,fits⟩ }
  else none

/-- Forget the data and all but the first `keep` elements of the store. -/
def reset (f : FlatBuffer α) (keep : Nat) : FlatBuffer α where
  store := f.store.take keep
  position := 0
  size := 0
  ordered := Nat.le_refl _
  inside := Nat.zero_le _

end FlatBuffer

end Foundation
