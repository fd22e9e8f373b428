import MojoImpl.ByteArray.Typed

/-! The seven-bit groups of an unsigned value: how many bytes `writeUint32` and
`writeUint64` store, and which. -/
namespace MojoImpl.ByteArray

theorem varint_small {value : Nat} (small : value < 128) (room : Nat) :
    varint room value = [UInt8.ofNat value] := by
  cases room with
  | zero => rfl
  | succ room => rw [varint,if_neg (by omega)]

theorem varint_step {value : Nat} (large : 128 ≤ value) (room : Nat) :
    varint (room+1) value = UInt8.ofNat (value%128+128) :: varint room (value/128) := by
  have low : (value &&& 0x7F) = value%128 := Nat.and_two_pow_sub_one_eq_mod value 7
  have high : value >>> 7 = value/128 := Nat.shiftRight_eq_div_pow value 7
  have mark : (value%128 ||| 0x80) = value%128+128 := by
    have bound : value%128 < 2^7 := Nat.mod_lt _ (by decide)
    have joined : 128 + value%128 = (128 ||| value%128) := Nat.two_pow_add_eq_or_of_lt bound 1
    rw [Nat.or_comm,← joined,Nat.add_comm]
  rw [varint,if_pos large,low,high,mark]

/-- The value the groups of a byte sequence stand for, the high bits disregarded. -/
def groups : List UInt8 → Nat
  | [] => 0
  | byte::rest => byte.toNat%128 + 128 * groups rest

theorem groups_varint {room value : Nat} (fits : value < 128^(room+1)) :
    groups (varint room value) = value := by
  induction room generalizing value with
  | zero =>
    rw [Nat.zero_add,Nat.pow_one] at fits
    rw [varint_small fits]
    simp only [groups,UInt8.toNat_ofNat']
    omega
  | succ room ih =>
    by_cases small : value < 128
    · rw [varint_small small]
      simp only [groups,UInt8.toNat_ofNat']
      omega
    · have rest : value/128 < 128^(room+1) := by
        rw [Nat.div_lt_iff_lt_mul (by decide),← Nat.pow_succ]
        exact fits
      rw [varint_step (Nat.not_lt.mp small),groups,ih rest,UInt8.toNat_ofNat']
      omega

/-- `s + 1` bytes are stored for a value of `s + 1` groups: `s` continued ones and the
top group, which is not zero unless it is the only one. -/
theorem varint_shape {room value : Nat} (fits : value < 128^(room+1)) :
    ∃ s, (varint room value).length = s+1 ∧ s ≤ room ∧ value < 128^(s+1) ∧
      (0 < s → 128^s ≤ value) ∧
      (∀ j, j < s → ∃ byte, (varint room value)[j]? = some byte ∧ 128 ≤ byte.toNat) ∧
      ∃ byte, (varint room value)[s]? = some byte ∧ byte.toNat = value/128^s := by
  induction room generalizing value with
  | zero =>
    rw [Nat.zero_add,Nat.pow_one] at fits
    refine ⟨0,by simp [varint],Nat.le_refl _,by simpa using fits,by simp,by simp,?_⟩
    refine ⟨UInt8.ofNat value,by simp [varint],?_⟩
    rw [UInt8.toNat_ofNat',Nat.pow_zero,Nat.div_one]
    omega
  | succ room ih =>
    by_cases small : value < 128
    · rw [varint_small small]
      refine ⟨0,by simp,Nat.zero_le _,by simpa using small,by simp,by simp,UInt8.ofNat value,by simp,?_⟩
      rw [UInt8.toNat_ofNat',Nat.pow_zero,Nat.div_one]
      omega
    · have large : 128 ≤ value := Nat.not_lt.mp small
      have rest : value/128 < 128^(room+1) := by
        rw [Nat.div_lt_iff_lt_mul (by decide),← Nat.pow_succ]
        exact fits
      obtain ⟨s,length,bound,above,below,continued,byte,last,top⟩ := ih rest
      rw [varint_step large]
      refine ⟨s+1,by simp [length],by omega,?_,?_,?_,byte,by simpa using last,?_⟩
      · rw [Nat.pow_succ]
        exact (Nat.div_lt_iff_lt_mul (by decide)).mp above
      · intro _
        rw [Nat.pow_succ]
        cases s with
        | zero => simpa using large
        | succ s => exact (Nat.le_div_iff_mul_le (by decide)).mp (below (Nat.succ_pos _))
      · intro j within
        cases j with
        | zero =>
          refine ⟨UInt8.ofNat (value%128+128),by simp,?_⟩
          rw [UInt8.toNat_ofNat']
          omega
        | succ j =>
          obtain ⟨next,found,marked⟩ := continued j (by omega)
          exact ⟨next,by simpa using found,marked⟩
      · rw [top,Nat.div_div_eq_div_mul,Nat.pow_succ,Nat.mul_comm]

/-- The loop of the two writers with nothing to stop it at the end of `tmp`. -/
def groupLoop (value : Nat) : List UInt8 :=
  if 0x80 ≤ value then UInt8.ofNat ((value &&& 0x7F) ||| 0x80) :: groupLoop (value >>> 7)
  else [UInt8.ofNat value]
termination_by value
decreasing_by
  rw [Nat.shiftRight_eq_div_pow]
  omega

/-- A value of `room + 1` groups fits in `tmp`: the loop is over before the room is. -/
theorem varint_groupLoop {room value : Nat} (fits : value < 128^(room+1)) :
    varint room value = groupLoop value ∧ (groupLoop value).length ≤ room+1 := by
  induction room generalizing value with
  | zero =>
    rw [Nat.zero_add,Nat.pow_one] at fits
    rw [groupLoop,if_neg (Nat.not_le.mpr fits)]
    exact ⟨rfl,Nat.le_refl 1⟩
  | succ room ih =>
    rw [varint,groupLoop]
    by_cases large : 0x80 ≤ value
    · have rest : value >>> 7 < 128^(room+1) := by
        rw [Nat.shiftRight_eq_div_pow,Nat.div_lt_iff_lt_mul (by decide),← Nat.pow_succ]
        exact fits
      obtain ⟨same,few⟩ := ih rest
      rw [if_pos large,if_pos large,same]
      exact ⟨rfl,Nat.succ_le_succ few⟩
    · rw [if_neg large,if_neg large]
      exact ⟨rfl,Nat.succ_le_succ (Nat.zero_le _)⟩

theorem varint_ne_nil (room value : Nat) : varint room value ≠ [] := by
  cases room with
  | zero => simp [varint]
  | succ room =>
    rw [varint]
    split <;> simp

end MojoImpl.ByteArray
