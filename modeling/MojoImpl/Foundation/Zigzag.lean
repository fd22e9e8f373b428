import Mathlib.Data.BitVec
import Mathlib.Tactic.Ring

/-! Zigzag coding of two's-complement words: small magnitudes of either sign become small
unsigned words. -/
namespace Foundation
variable {w : Nat}

def encodeZigzag (v : BitVec w) : BitVec w := if v.slt 0 then -v * 2 - 1 else v * 2

def decodeZigzag (v : BitVec w) : BitVec w := (v >>> 1) ^^^ -(v &&& 1)

theorem decodeZigzag_even {v n : BitVec w} (half : v.toNat = 2 * n.toNat) : decodeZigzag v = n := by
  have low : v &&& 1 = 0 := by
    apply BitVec.eq_of_toNat_eq
    rw [BitVec.toNat_and]
    rcases w with _ | w
    · simp [BitVec.toNat_of_zero_length]
    · have one : (1 : BitVec (w+1)).toNat = 2^1-1 := by simp
      rw [one,Nat.and_two_pow_sub_one_eq_mod,half]
      simp
  have high : v >>> 1 = n := by
    apply BitVec.eq_of_toNat_eq
    rw [BitVec.toNat_ushiftRight,half,Nat.shiftRight_eq_div_pow]
    omega
  rw [decodeZigzag,low,high]
  simp

theorem decodeZigzag_odd {v n : BitVec w} (half : v.toNat = 2 * n.toNat + 1) : decodeZigzag v = ~~~n := by
  rcases w with _ | w
  · exact Subsingleton.elim _ _
  have low : v &&& 1 = 1 := by
    apply BitVec.eq_of_toNat_eq
    have one : (1 : BitVec (w+1)).toNat = 2^1-1 := by simp
    rw [BitVec.toNat_and,one,Nat.and_two_pow_sub_one_eq_mod,half]
    omega
  have high : v >>> 1 = n := by
    apply BitVec.eq_of_toNat_eq
    rw [BitVec.toNat_ushiftRight,half,Nat.shiftRight_eq_div_pow]
    omega
  have ones : -(1 : BitVec (w+1)) = BitVec.allOnes (w+1) := BitVec.neg_one_eq_allOnes
  rw [decodeZigzag,low,high,ones,BitVec.xor_allOnes]

theorem toNat_two (w : Nat) : (2 : BitVec (w+1+1)).toNat = 2 := by
  have positive : 0 < 2^w := Nat.two_pow_pos w
  have room : 2 < 2^(w+1+1) := by
    rw [Nat.pow_succ,Nat.pow_succ]
    omega
  exact Nat.mod_eq_of_lt room

theorem toNat_double {v : BitVec (w+1)} (small : v.toNat < 2^w) :
    (v * 2).toNat = 2 * v.toNat ∧ (v * 2 + 1).toNat = 2 * v.toNat + 1 := by
  have pow : 2^(w+1) = 2 * 2^w := Nat.pow_succ'
  rcases w with _ | w
  · have zero : v = 0 := by
      apply BitVec.eq_of_toNat_eq
      simpa using small
    subst zero
    exact ⟨rfl,rfl⟩
  · have one : (1 : BitVec (w+2)).toNat = 1 := by simp
    constructor
    · rw [BitVec.toNat_mul,toNat_two,Nat.mod_eq_of_lt (by omega)]
      omega
    · rw [BitVec.toNat_add,BitVec.toNat_mul,toNat_two,one,Nat.mod_add_mod,Nat.mod_eq_of_lt (by omega)]
      omega

theorem slt_zero_iff {v : BitVec (w+1)} : v.slt 0 ↔ 2^w ≤ v.toNat := by
  constructor
  · intro negative
    have msb := BitVec.slt_zero_iff_msb_cond.mp negative
    rw [BitVec.msb_eq_decide] at msb
    simpa using msb
  · intro large
    apply BitVec.slt_zero_iff_msb_cond.mpr
    rw [BitVec.msb_eq_decide]
    simpa using large

theorem decodeZigzag_encodeZigzag (v : BitVec w) : decodeZigzag (encodeZigzag v) = v := by
  rcases w with _ | w
  · exact Subsingleton.elim _ _
  have bound := v.isLt
  have pow : 2^(w+1) = 2 * 2^w := Nat.pow_succ'
  unfold encodeZigzag
  split
  · next negative =>
    have sign := slt_zero_iff.mp negative
    have flipped : (~~~v).toNat = 2^(w+1) - 1 - v.toNat := BitVec.toNat_not
    have double : -v * 2 - 1 = ~~~v * 2 + 1 := by
      rw [BitVec.neg_eq_not_add]
      change (~~~v + 1) * 2 - 1 = ~~~v * 2 + 1
      ring
    have small : (~~~v).toNat < 2^w := by omega
    rw [double,decodeZigzag_odd (toNat_double small).2,BitVec.not_not]
  · next positive =>
    have small : v.toNat < 2^w := by
      by_contra large
      exact positive (slt_zero_iff.mpr (Nat.not_lt.mp large))
    exact decodeZigzag_even (toNat_double small).1

end Foundation
