import Mathlib.Data.List.Basic
import Mathlib.Algebra.Order.Ring.Nat
import Mathlib.Tactic.Ring

/-! Self-delimiting byte formats. A format prints values so that a byte sequence
starts with at most one printed value; reading is deciding whether it starts with one. -/
namespace Foundation

section LittleEndian

/-- The `w` low bytes of `n`, least significant first. -/
def littleEndian : Nat → Nat → List UInt8
  | 0, _ => []
  | w+1, n => UInt8.ofNat n :: littleEndian w (n/256)

def ofLittleEndian : List UInt8 → Nat
  | [] => 0
  | byte::rest => byte.toNat + 256 * ofLittleEndian rest

@[simp] theorem littleEndian_length (w n : Nat) : (littleEndian w n).length = w := by
  induction w generalizing n with
  | zero => rfl
  | succ w ih => simp [littleEndian,ih]

theorem ofLittleEndian_littleEndian (w n : Nat) :
    ofLittleEndian (littleEndian w n) = n % 256^w := by
  induction w generalizing n with
  | zero => simp [littleEndian,ofLittleEndian,Nat.mod_one]
  | succ w ih =>
    have digit : (UInt8.ofNat n).toNat = n % 256 := by simp
    rw [littleEndian,ofLittleEndian,ih,digit,Nat.pow_succ,Nat.mul_comm (256^w),Nat.mod_mul]

theorem littleEndian_ofLittleEndian (bytes : List UInt8) :
    littleEndian bytes.length (ofLittleEndian bytes) = bytes := by
  induction bytes with
  | nil => rfl
  | cons byte rest ih =>
    have bound := byte.toNat_lt
    have low : UInt8.ofNat (byte.toNat + 256 * ofLittleEndian rest) = byte := by
      apply UInt8.toNat.inj
      simp only [UInt8.toNat_ofNat']
      omega
    have high : (byte.toNat + 256 * ofLittleEndian rest) / 256 = ofLittleEndian rest := by omega
    rw [List.length_cons,ofLittleEndian,littleEndian,low,high,ih]

theorem ofLittleEndian_lt (bytes : List UInt8) : ofLittleEndian bytes < 256^bytes.length := by
  induction bytes with
  | nil => simp [ofLittleEndian]
  | cons byte rest ih =>
    have bound := byte.toNat_lt
    rw [ofLittleEndian,List.length_cons,Nat.pow_succ]
    omega

theorem littleEndian_mod (w n : Nat) : littleEndian w (n % 256^w) = littleEndian w n := by
  have sized : (littleEndian w n).length = w := littleEndian_length w n
  have back := littleEndian_ofLittleEndian (littleEndian w n)
  rwa [sized,ofLittleEndian_littleEndian] at back

theorem littleEndian_digit (w n j : Nat) (inside : j < w) :
    (littleEndian w n)[j]? = some (UInt8.ofNat (n/256^j)) := by
  induction w generalizing n j with
  | zero => omega
  | succ w ih =>
    cases j with
    | zero => simp [littleEndian]
    | succ j =>
      rw [littleEndian,List.getElem?_cons_succ,ih _ _ (by omega),Nat.div_div_eq_div_mul,
        Nat.pow_succ,Nat.mul_comm]

end LittleEndian

structure Format (α : Type) where
  Valid : α → Prop
  print : α → List UInt8
  unique : ∀ a b bytes, Valid a → Valid b → print a <+: bytes → print b <+: bytes → a = b

/-- One case of a sum type, as the data it carries. -/
structure Case (α β : Type) where
  into : β → Option α
  out : α → β
  exact : ∀ b a, into b = some a → out a = b
  known : ∀ a, into (out a) = some a

namespace Format
variable {α β : Type}

/-- `bytes` starts with the printed form of `a`. -/
def Starts (F : Format α) (a : α) (bytes : List UInt8) : Prop := F.Valid a ∧ F.print a <+: bytes

theorem Starts.unique {F : Format α} {a b : α} {bytes : List UInt8} (first : F.Starts a bytes)
    (second : F.Starts b bytes) : a = b :=
  F.unique a b bytes first.1 second.1 first.2 second.2

def uint (w : Nat) : Format Nat where
  Valid n := n < 256^w
  print n := littleEndian w n
  unique a b bytes small small' first second := by
    have same : littleEndian w a = littleEndian w b :=
      List.IsPrefix.eq_of_length
        (List.prefix_of_prefix_length_le first second (by simp)) (by simp)
    have equal := congrArg ofLittleEndian same
    rwa [ofLittleEndian_littleEndian,ofLittleEndian_littleEndian,Nat.mod_eq_of_lt small,
      Nat.mod_eq_of_lt small'] at equal

def via (F : Format α) (into : β → α) (injective : Function.Injective into) : Format β where
  Valid b := F.Valid (into b)
  print b := F.print (into b)
  unique _ _ bytes valid valid' first second := injective (F.unique _ _ bytes valid valid' first second)

/-- The values of `β` that come `out` of `F` are printed as in `F`. -/
def part (F : Format α) (c : Case α β) : Format β where
  Valid b := ∃ a, c.into b = some a ∧ F.Valid a
  print b := match c.into b with
    | some a => F.print a
    | none => []
  unique b b' bytes valid valid' first second := by
    obtain ⟨a,known,valid⟩ := valid
    obtain ⟨a',known',valid'⟩ := valid'
    simp only [known,known'] at first second
    cases F.unique a a' bytes valid valid' first second
    exact (c.exact b a known).symm.trans (c.exact b' a known')

theorem part_starts {F : Format α} {c : Case α β} (b : β) (bytes : List UInt8) :
    (F.part c).Starts b bytes ↔ ∃ a, c.into b = some a ∧ F.Starts a bytes := by
  constructor
  · rintro ⟨⟨a,known,valid⟩,starts⟩
    simp only [part,known] at starts
    exact ⟨a,known,valid,starts⟩
  · rintro ⟨a,known,valid,starts⟩
    refine ⟨⟨a,known,valid⟩,?_⟩
    simpa only [part,known] using starts

theorem part_print {F : Format α} {c : Case α β} {b : β} {a : α} (known : c.into b = some a) :
    (F.part c).print b = F.print a := by
  simp only [part,known]

def empty : Format β where
  Valid _ := False
  print _ := []
  unique _ _ _ none _ _ _ := none.elim

theorem prefix_append_iff (a b bytes : List UInt8) :
    a ++ b <+: bytes ↔ a <+: bytes ∧ b <+: bytes.drop a.length := by
  constructor
  · rintro ⟨rest,rfl⟩
    refine ⟨⟨b++rest,by simp⟩,?_⟩
    simp
  · rintro ⟨⟨rest,rfl⟩,second⟩
    rw [List.drop_left] at second
    obtain ⟨tail,rfl⟩ := second
    exact ⟨tail,by simp⟩

/-- One value after another, the format of the second depending on the first. -/
def seq (F : Format α) (G : α → Format β) : Format (α × β) where
  Valid p := F.Valid p.1 ∧ (G p.1).Valid p.2
  print p := F.print p.1 ++ (G p.1).print p.2
  unique p q bytes valid valid' first second := by
    obtain ⟨a,b⟩ := p
    obtain ⟨c,d⟩ := q
    have ⟨head,tail⟩ := (prefix_append_iff _ _ _).mp first
    have ⟨head',tail'⟩ := (prefix_append_iff _ _ _).mp second
    cases F.unique a c bytes valid.1 valid'.1 head head'
    cases (G a).unique b d _ valid.2 valid'.2 tail tail'
    rfl

theorem seq_starts (F : Format α) (G : α → Format β) (a : α) (b : β) (bytes : List UInt8) :
    (F.seq G).Starts (a,b) bytes ↔
      F.Starts a bytes ∧ (G a).Starts b (bytes.drop (F.print a).length) := by
  simp only [Starts,seq,prefix_append_iff]
  tauto

/-- `n` values one after another. -/
def items (F : Format α) (n : Nat) : Format (List α) where
  Valid l := l.length = n ∧ ∀ a ∈ l, F.Valid a
  print l := l.flatMap F.print
  unique l m bytes valid valid' first second := by
    induction l generalizing m n bytes with
    | nil => exact (List.length_eq_zero_iff.mp (valid'.1.trans valid.1.symm)).symm
    | cons a l ih =>
      obtain ⟨b,m,rfl⟩ := List.exists_cons_of_length_pos (l := m) (by rw [valid'.1,← valid.1]; exact Nat.succ_pos _)
      rw [List.flatMap_cons] at first second
      obtain ⟨head,tail⟩ := (prefix_append_iff _ _ _).mp first
      obtain ⟨head',tail'⟩ := (prefix_append_iff _ _ _).mp second
      cases F.unique a b bytes (valid.2 a (by simp)) (valid'.2 b (by simp)) head head'
      have counted : m.length = l.length := Nat.succ.inj (valid'.1.trans valid.1.symm)
      rw [ih l.length m _ ⟨rfl,fun c member => valid.2 c (by simp [member])⟩
        ⟨counted,fun c member => valid'.2 c (by simp [member])⟩ tail tail']

def block (n : Nat) : Format (List UInt8) where
  Valid l := l.length = n
  print l := l
  unique a b bytes sized sized' first second :=
    List.IsPrefix.eq_of_length (List.prefix_of_prefix_length_le first second (by omega)) (by omega)

/-- A byte string after its length in `w` bytes. -/
def counted (w : Nat) : Format (List UInt8) :=
  ((uint w).seq block).via (fun l => (l.length,l)) (fun _ _ same => (Prod.mk.inj same).2)

theorem counted_print (w : Nat) (l : List UInt8) :
    (counted w).print l = littleEndian w l.length ++ l := rfl

theorem counted_valid (w : Nat) (l : List UInt8) : (counted w).Valid l ↔ l.length < 256^w := by
  simp [counted,via,seq,uint,block]

end Format

end Foundation
