import MojoImpl.ByteArray.Scalars
import MojoImpl.Foundation.Signed

/-! Where the signed arithmetic of the zigzag encoders has a meaning. The negative branch
converts to an unsigned word before it doubles, the other one after. -/
namespace MojoImpl.ByteArray
open Foundation

/-- `encodeZigzag32` by signed operations that mean something only where they fit. -/
def evaluateZigzag32 (v : Int32) : Option UInt32 := (evaluateZigzag v.toBitVec).map UInt32.ofBitVec

def evaluateZigzag64 (v : Int64) : Option UInt64 := (evaluateZigzag v.toBitVec).map UInt64.ofBitVec

def ExactZigzag32 (v : Int32) : Prop := (v < 0 → Fits 32 (-v.toInt)) ∧ (0 ≤ v → Fits 32 (v.toInt * 2))

def ExactZigzag64 (v : Int64) : Prop := (v < 0 → Fits 64 (-v.toInt)) ∧ (0 ≤ v → Fits 64 (v.toInt * 2))

theorem exactZigzag32 {v : Int32} : ExactZigzag32 v ↔ ExactZigzag v.toBitVec := by
  rw [ExactZigzag32,ExactZigzag,Int32.lt_iff_toInt_lt,Int32.le_iff_toInt_le]
  rfl

theorem exactZigzag64 {v : Int64} : ExactZigzag64 v ↔ ExactZigzag v.toBitVec := by
  rw [ExactZigzag64,ExactZigzag,Int64.lt_iff_toInt_lt,Int64.le_iff_toInt_le]
  rfl

theorem evaluateZigzag32_eq (v : Int32) :
    (ExactZigzag32 v → evaluateZigzag32 v = some (encodeZigzag32 v)) ∧
      (¬ExactZigzag32 v → evaluateZigzag32 v = none) := by
  rw [exactZigzag32,evaluateZigzag32]
  constructor
  · intro exact
    rw [evaluateZigzag_exact exact]
    rfl
  · intro inexact
    rw [evaluateZigzag_inexact inexact]
    rfl

theorem evaluateZigzag64_eq (v : Int64) :
    (ExactZigzag64 v → evaluateZigzag64 v = some (encodeZigzag64 v)) ∧
      (¬ExactZigzag64 v → evaluateZigzag64 v = none) := by
  rw [exactZigzag64,evaluateZigzag64]
  constructor
  · intro exact
    rw [evaluateZigzag_exact exact]
    rfl
  · intro inexact
    rw [evaluateZigzag_inexact inexact]
    rfl

theorem exactZigzag32_iff {v : Int32} : ExactZigzag32 v ↔ v ≠ Int32.minValue ∧ v.toInt < 2^30 := by
  rw [exactZigzag32,exactZigzag_iff,Ne,Ne,← Int32.toInt_inj]
  rfl

theorem exactZigzag64_iff {v : Int64} : ExactZigzag64 v ↔ v ≠ Int64.minValue ∧ v.toInt < 2^62 := by
  rw [exactZigzag64,exactZigzag_iff,Ne,Ne,← Int64.toInt_inj]
  rfl

/-- The encoders evaluate signed operations that fit just where the value is not the least one
and its double still fits, and there they have the value of wrapping arithmetic. -/
theorem encodeZigzag_overflows (v : Int32) (v' : Int64) :
    ((ExactZigzag32 v ↔ v ≠ Int32.minValue ∧ v.toInt < 2^30) ∧
      (ExactZigzag32 v ↔ evaluateZigzag32 v = some (encodeZigzag32 v))) ∧
    (ExactZigzag64 v' ↔ v' ≠ Int64.minValue ∧ v'.toInt < 2^62) ∧
      (ExactZigzag64 v' ↔ evaluateZigzag64 v' = some (encodeZigzag64 v')) := by
  refine ⟨⟨exactZigzag32_iff,(evaluateZigzag32_eq v).1,fun evaluated => ?_⟩,
    exactZigzag64_iff,(evaluateZigzag64_eq v').1,fun evaluated => ?_⟩
  · by_contra inexact
    rw [(evaluateZigzag32_eq v).2 inexact] at evaluated
    cases evaluated
  · by_contra inexact
    rw [(evaluateZigzag64_eq v').2 inexact] at evaluated
    cases evaluated

/-- The doubling of `2^30` leaves the `int32_t`, and so does the negation of the least value. -/
theorem encodeZigzag_overflow_example :
    ¬(∀ v : Int32, ExactZigzag32 v) ∧ ¬(∀ v : Int64, ExactZigzag64 v) ∧
      ¬ExactZigzag32 1073741824 ∧ ¬ExactZigzag32 Int32.minValue ∧ ¬ExactZigzag64 Int64.minValue := by
  have doubled : ¬ExactZigzag32 1073741824 := fun exact => absurd (exactZigzag32_iff.mp exact).2 (by decide)
  have negated : ¬ExactZigzag64 Int64.minValue := fun exact => (exactZigzag64_iff.mp exact).1 rfl
  exact ⟨fun all => doubled (all _),fun all => negated (all _),doubled,
    fun exact => (exactZigzag32_iff.mp exact).1 rfl,negated⟩

end MojoImpl.ByteArray
