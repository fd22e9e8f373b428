import Mathlib.Data.List.Basic

/-! Overwriting and reading a window of a finite sequence.
`splice` is an in-place overwrite, `window` the bytes it would replace; both are
described on a concatenation, which is how a store kept in blocks is walked. -/
namespace Foundation

section Windows
variable {α : Type}

/-- `l` with the elements at `[i, i + d.length)` replaced by `d`. -/
def splice (l : List α) (i : Nat) (d : List α) : List α := l.take i ++ d ++ l.drop (i+d.length)

/-- The elements of `l` at `[i, i + n)`. -/
def window (l : List α) (i n : Nat) : List α := (l.drop i).take n

theorem splice_length (l : List α) (i : Nat) (d : List α) (inside : i+d.length ≤ l.length) :
    (splice l i d).length = l.length := by
  simp only [splice,List.length_append,List.length_take,List.length_drop]
  omega

@[simp] theorem splice_nil (l : List α) (i : Nat) : splice l i [] = l := by
  simp [splice]

theorem splice_append_left (a b : List α) (i : Nat) (d : List α) (inside : i+d.length ≤ a.length) :
    splice (a++b) i d = splice a i d ++ b := by
  have low : i ≤ a.length := by omega
  simp [splice,List.take_append_of_le_length low,List.drop_append_of_le_length inside]

theorem splice_append_right (a b : List α) (i : Nat) (d : List α) (beyond : a.length ≤ i) :
    splice (a++b) i d = a ++ splice b (i-a.length) d := by
  have first : a.length ≤ i+d.length := by omega
  have shift : i+d.length-a.length = i-a.length+d.length := by omega
  simp [splice,List.take_append,List.drop_append,List.take_of_length_le beyond,
    List.drop_eq_nil_of_le first,shift]

theorem splice_append_split (a b : List α) (i : Nat) (d : List α) (low : i ≤ a.length)
    (reach : a.length ≤ i+d.length) :
    splice (a++b) i d =
      splice a i (d.take (a.length-i)) ++ splice b 0 (d.drop (a.length-i)) := by
  have size : (d.take (a.length-i)).length = a.length-i := by
    rw [List.length_take]
    omega
  have whole : i+(a.length-i) = a.length := by omega
  have rest : i+d.length-a.length = d.length-(a.length-i) := by omega
  simp only [splice,size,whole,List.drop_length,List.append_nil,List.take_zero,List.nil_append,
    Nat.zero_add,List.length_drop,List.drop_append,List.drop_eq_nil_of_le reach,
    List.take_append_of_le_length low,rest,List.append_assoc]
  rw [← List.append_assoc (d.take _),List.take_append_drop]

theorem take_splice (l : List α) (i : Nat) (d : List α) (low : i ≤ l.length) :
    (splice l i d).take (i+d.length) = l.take i ++ d := by
  apply List.take_left'
  simp only [List.length_append,List.length_take]
  omega

theorem window_length (l : List α) (i n : Nat) (inside : i+n ≤ l.length) :
    (window l i n).length = n := by
  simp only [window,List.length_take,List.length_drop]
  omega

theorem window_append_left (a b : List α) (i n : Nat) (inside : i+n ≤ a.length) :
    window (a++b) i n = window a i n := by
  have low : i ≤ a.length := by omega
  have fits : n ≤ (a.drop i).length := by
    rw [List.length_drop]
    omega
  simp [window,List.drop_append_of_le_length low,List.take_append_of_le_length fits]

/-- A window that reaches the end of `a` continues at the start of `b`. -/
theorem window_append_split (a b : List α) (i n : Nat) (low : i ≤ a.length)
    (reach : a.length ≤ i+n) :
    window (a++b) i n = window a i (a.length-i) ++ window b 0 (n-(a.length-i)) := by
  have size : (a.drop i).length = a.length-i := List.length_drop
  have short : (a.drop i).length ≤ n := by omega
  have exact : (a.drop i).length ≤ a.length-i := by omega
  simp only [window,List.drop_append_of_le_length low,List.take_append,List.take_of_length_le short,
    List.take_of_length_le exact,size,List.drop_zero]

theorem window_drop (l : List α) (i n k : Nat) :
    (window l i n).drop k = window l (i+k) (n-k) := by
  simp [window,List.drop_take,List.drop_drop]

theorem window_take (l : List α) (i n k : Nat) (fits : k ≤ n) :
    (window l i n).take k = window l i k := by
  simp [window,List.take_take,Nat.min_eq_left fits]

end Windows

end Foundation
