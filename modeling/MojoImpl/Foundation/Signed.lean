import MojoImpl.Foundation.Zigzag

/-! Signed words whose operations mean something only where the exact result fits, and zigzag
coding by such operations. -/
namespace Foundation
variable {w : Nat}

/-- A signed word of `w` bits holds `n`. -/
def Fits (w : Nat) (n : Int) : Prop := -2^(w-1) ≤ n ∧ n < 2^(w-1)

instance (w : Nat) (n : Int) : Decidable (Fits w n) := inferInstanceAs (Decidable (_ ∧ _))

/-- The outcome of a signed operation whose exact result is `n`. -/
def signed (w : Nat) (n : Int) : Option (BitVec w) := if Fits w n then some (BitVec.ofInt w n) else none

/-- `encodeZigzag` where `-v` and `v * 2` are signed; the doubling of the negated value is not. -/
def evaluateZigzag (v : BitVec w) : Option (BitVec w) :=
  if v.slt 0 then do
    let negated ← signed w (-v.toInt)
    return negated * 2 - 1
  else signed w (v.toInt * 2)

/-- Every signed operation `evaluateZigzag` performs on `v` fits. -/
def ExactZigzag (v : BitVec w) : Prop :=
  (v.toInt < 0 → Fits w (-v.toInt)) ∧ (0 ≤ v.toInt → Fits w (v.toInt * 2))

theorem slt_zero_iff_toInt {v : BitVec w} : v.slt 0 ↔ v.toInt < 0 := by
  rw [BitVec.slt_iff_toInt_lt]
  change v.toInt < (0#w).toInt ↔ v.toInt < 0
  rw [BitVec.toInt_zero]

theorem evaluateZigzag_exact {v : BitVec w} (exact : ExactZigzag v) :
    evaluateZigzag v = some (encodeZigzag v) := by
  unfold evaluateZigzag encodeZigzag
  split
  · next negative =>
    have fits := exact.1 (slt_zero_iff_toInt.mp negative)
    have negated : BitVec.ofInt w (-v.toInt) = -v := by rw [BitVec.ofInt_neg,BitVec.ofInt_toInt]
    rw [signed,if_pos fits,negated]
    rfl
  · next positive =>
    have fits := exact.2 (Int.not_lt.mp (mt slt_zero_iff_toInt.mpr positive))
    have doubled : BitVec.ofInt w (v.toInt * 2) = v * 2 := by
      rw [BitVec.ofInt_mul,BitVec.ofInt_toInt]
      rfl
    rw [signed,if_pos fits,doubled]

theorem evaluateZigzag_inexact {v : BitVec w} (inexact : ¬ExactZigzag v) : evaluateZigzag v = none := by
  unfold evaluateZigzag
  split
  · next negative =>
    have sign := slt_zero_iff_toInt.mp negative
    have unfit : ¬Fits w (-v.toInt) := fun fits => inexact ⟨fun _ => fits,fun positive => by omega⟩
    rw [signed,if_neg unfit]
    rfl
  · next positive =>
    have sign := Int.not_lt.mp (mt slt_zero_iff_toInt.mpr positive)
    have unfit : ¬Fits w (v.toInt * 2) := fun fits => inexact ⟨fun negative => by omega,fun _ => fits⟩
    rw [signed,if_neg unfit]

/-- The least value has no negation, and doubling loses the upper half of the others. -/
theorem exactZigzag_iff {v : BitVec (w+2)} : ExactZigzag v ↔ v.toInt ≠ -2^(w+1) ∧ v.toInt < 2^w := by
  have double : (2:Int)^(w+1) = 2 * 2^w := by ring
  have least : -2^(w+1) ≤ v.toInt := v.le_toInt
  have positive : (0:Int) < 2^w := Int.pow_pos (by decide)
  unfold ExactZigzag Fits
  rw [show w+2-1 = w+1 from rfl]
  constructor
  · rintro ⟨negates,doubles⟩
    exact ⟨fun minimum => by omega,by omega⟩
  · rintro ⟨minimum,half⟩
    exact ⟨fun negative => by omega,fun nonnegative => by omega⟩

end Foundation
