import Mathlib.Data.Nat.Digits.Lemmas
import PSystem.Decimal.Magnitude

/-!
# Digit arithmetic is exact

Every operation on magnitudes has two laws: the value of its result is the operation's result on
the values, and the digits of its result are proper, that is, below ten.  Trimming ties the two
together: `trim_eq_digits` says that proper digits, trimmed, are the digits of their value.  So
sums, differences and products of proper digits are the digits of the sum, difference and product,
and the order of trimmed digits is the order of the numbers.
-/

namespace PSystem
namespace Magnitude

variable {a b ds : Magnitude} {carry : Nat}

/-! ## Proper digits -/

/-- Every digit is below ten. -/
def Proper (ds : Magnitude) : Prop :=
  ∀ d ∈ ds, d < 10

@[simp]
theorem proper_nil : Proper [] := by
  simp [Proper]

@[simp]
theorem proper_cons {d : Nat} : Proper (d :: ds) ↔ d < 10 ∧ Proper ds := by
  simp [Proper]

@[simp]
theorem proper_append : Proper (a ++ b) ↔ Proper a ∧ Proper b := by
  simp [Proper, or_imp, forall_and]

@[simp]
theorem proper_reverse : Proper ds.reverse ↔ Proper ds := by
  simp [Proper]

theorem Proper.tail (h : Proper ds) : Proper ds.tail := by
  cases ds with
  | nil => exact h
  | cons d ds => exact (proper_cons.1 h).2

theorem Proper.headD_lt (h : Proper ds) : ds.headD 0 < 10 := by
  cases ds with
  | nil => decide
  | cons d ds => exact (proper_cons.1 h).1

theorem Proper.take (h : Proper ds) (n : Nat) : Proper (ds.take n) :=
  fun d hd => h d (List.mem_of_mem_take hd)

theorem proper_replicate (n : Nat) : Proper (List.replicate n 0) := by
  simp +contextual [Proper, List.mem_replicate]

theorem proper_digits (n : Nat) : Proper (Nat.digits 10 n) :=
  fun _ h => Nat.digits_lt_base (by decide) h

/-! ## Values -/

@[simp]
theorem value_nil : value [] = 0 := rfl

@[simp]
theorem value_cons (d : Nat) (ds : Magnitude) : value (d :: ds) = d + 10 * value ds := rfl

theorem value_eq_ofDigits (ds : Magnitude) : value ds = Nat.ofDigits 10 ds := by
  induction ds with
  | nil => rfl
  | cons d ds ih => simp [Nat.ofDigits_cons, ih]

@[simp]
theorem value_digits (n : Nat) : value (Nat.digits 10 n) = n := by
  rw [value_eq_ofDigits, Nat.ofDigits_digits]

theorem value_append (a b : Magnitude) : value (a ++ b) = value a + 10 ^ a.length * value b := by
  simp only [value_eq_ofDigits, Nat.ofDigits_append]

theorem value_replicate (n : Nat) : value (List.replicate n 0) = 0 := by
  rw [value_eq_ofDigits, Nat.ofDigits_replicate_zero]

theorem Proper.value_lt (h : Proper ds) : value ds < 10 ^ ds.length := by
  rw [value_eq_ofDigits]
  exact Nat.ofDigits_lt_base_pow_length (by decide) h

/-- The lowest digits make up the remainder by a power of ten. -/
theorem Proper.value_take (h : Proper ds) (n : Nat) : value (ds.take n) = value ds % 10 ^ n := by
  rw [value_eq_ofDigits, value_eq_ofDigits,
    Nat.ofDigits_mod_pow_eq_ofDigits_take n (by decide) ds h]

theorem value_headD_tail (ds : Magnitude) : value ds = ds.headD 0 + 10 * value ds.tail := by
  cases ds with
  | nil => rfl
  | cons d ds => rfl

/-! ## Trimming -/

/-- Proper digits without the zeros at the most significant end are the digits of their value. -/
theorem trim_eq_digits (h : Proper ds) : trim ds = Nat.digits 10 (value ds) := by
  induction ds with
  | nil => rfl
  | cons d ds ih =>
    obtain ⟨small, rest⟩ := proper_cons.1 h
    rw [trim, ih rest, value_cons]
    by_cases zero : value ds = 0
    · by_cases none : d = 0
      · simp [zero, none]
      · simp [zero, none, Nat.digits_of_lt 10 d none small]
    · rw [Nat.digits_add 10 (by decide) d (value ds) small (.inr zero)]
      -- the digits of a number that is not zero are not empty
      have some : Nat.digits 10 (value ds) ≠ [] := Nat.digits_ne_nil_iff_ne_zero.2 zero
      split
      · contradiction
      · rfl

@[simp]
theorem trim_digits (n : Nat) : trim (Nat.digits 10 n) = Nat.digits 10 n := by
  rw [trim_eq_digits (proper_digits n), value_digits]

/-- The lowest digit of a number stands before the digits of the rest. -/
theorem ofNat_succ (width n : Nat) : ofNat (width + 1) n = n % 10 :: ofNat width (n / 10) := by
  simp only [ofNat, List.range_succ_eq_map, List.map_cons, List.map_map, Nat.pow_eq, Nat.pow_zero,
    Nat.div_one]
  congr 1
  apply List.map_congr_left
  intro i _
  rw [Function.comp_apply, Nat.pow_succ', Nat.div_div_eq_div_mul]

theorem proper_ofNat (width n : Nat) : Proper (ofNat width n) := by
  induction width generalizing n with
  | zero => simp [ofNat]
  | succ width ih =>
    rw [ofNat_succ, proper_cons]
    exact ⟨Nat.mod_lt n (by decide), ih _⟩

theorem value_ofNat (width n : Nat) : value (ofNat width n) = n % 10 ^ width := by
  induction width generalizing n with
  | zero => simp [ofNat, Nat.mod_one]
  | succ width ih => rw [ofNat_succ, value_cons, ih, Nat.pow_succ', Nat.mod_mul]

/-! ## Order -/

/-- Two numbers compare as what is left of them without their last digits, then as these. -/
theorem compare_by_last_digit (m n : Nat) :
    Ord.compare m n = (Ord.compare (m / 10) (n / 10)).then (Ord.compare (m % 10) (n % 10)) := by
  simp only [Nat.compare_eq_ite_lt]
  split_ifs <;> first | rfl | omega

/-- The order of digits without leading zeros is the order of the numbers. -/
theorem compare_digits (m n : Nat) :
    compare (Nat.digits 10 m) (Nat.digits 10 n) = Ord.compare m n := by
  induction m using Nat.strongRecOn generalizing n with
  | ind m ih =>
    rcases Nat.eq_zero_or_pos m with rfl | hm <;> rcases Nat.eq_zero_or_pos n with rfl | hn
    · rfl
    · rw [Nat.digits_def' (by decide) hn, Nat.digits_zero]
      exact (Nat.compare_eq_lt.2 hn).symm
    · rw [Nat.digits_def' (by decide) hm, Nat.digits_zero]
      exact (Nat.compare_eq_gt.2 hm).symm
    · rw [Nat.digits_def' (by decide) hm, Nat.digits_def' (by decide) hn, compare,
        ih (m / 10) (by omega), ← compare_by_last_digit]

/-! ## Sums -/

theorem value_addWith (carry : Nat) (a b : Magnitude) :
    value (addWith carry a b) = value a + value b + carry := by
  fun_induction addWith carry a b <;> simp_all <;> omega

theorem proper_addWith (small : carry < 10) (ha : Proper a) (hb : Proper b) :
    Proper (addWith carry a b) := by
  have last (n : Nat) : n % 10 < 10 := Nat.mod_lt n (by decide)
  fun_induction addWith carry a b with
  | case1 => exact proper_nil
  | case2 => exact proper_cons.2 ⟨small, proper_nil⟩
  | case3 carry x xs ih =>
    obtain ⟨first, rest⟩ := proper_cons.1 ha
    exact proper_cons.2 ⟨last _, ih (by omega) rest proper_nil⟩
  | case4 carry y ys ih =>
    obtain ⟨first, rest⟩ := proper_cons.1 hb
    exact proper_cons.2 ⟨last _, ih (by omega) proper_nil rest⟩
  | case5 carry x xs y ys ih =>
    obtain ⟨first, rest⟩ := proper_cons.1 ha
    obtain ⟨first', rest'⟩ := proper_cons.1 hb
    exact proper_cons.2 ⟨last _, ih (by omega) rest rest'⟩

theorem add_eq_digits (ha : Proper a) (hb : Proper b) :
    add a b = Nat.digits 10 (value a + value b) := by
  rw [add, trim_eq_digits (proper_addWith (by decide) ha hb), value_addWith, Nat.add_zero]

/-! ## Differences -/

/-- What is taken off, put back on the difference, gives the minuend. -/
theorem value_subWith (borrow : Nat) (small : borrow ≤ 1) (ha : Proper a) (hb : Proper b)
    (le : value b + borrow ≤ value a) :
    value (subWith borrow a b) + (value b + borrow) = value a := by
  induction a generalizing b borrow with
  | nil =>
    rw [value_nil] at le
    rw [subWith, value_nil, Nat.zero_add]
    omega
  | cons x xs ih =>
    obtain ⟨digit, proper⟩ := proper_cons.1 ha
    have split := value_headD_tail b
    have head := hb.headD_lt
    rw [value_cons] at le ⊢
    rw [subWith]
    split
    · have rest := ih 0 (by omega) proper hb.tail (by omega)
      rw [value_cons]
      omega
    · have rest := ih 1 (by omega) proper hb.tail (by omega)
      rw [value_cons]
      omega

theorem proper_subWith (borrow : Nat) (ha : Proper a) : Proper (subWith borrow a b) := by
  induction a generalizing b borrow with
  | nil => exact proper_nil
  | cons x xs ih =>
    obtain ⟨digit, proper⟩ := proper_cons.1 ha
    rw [subWith]
    split
    · exact proper_cons.2 ⟨by omega, ih _ proper⟩
    · exact proper_cons.2 ⟨by omega, ih _ proper⟩

theorem sub_eq_digits (ha : Proper a) (hb : Proper b) (le : value b ≤ value a) :
    sub a b = Nat.digits 10 (value a - value b) := by
  have back := value_subWith 0 (by decide) ha hb le
  rw [sub, trim_eq_digits (proper_subWith 0 ha)]
  congr 1
  omega

/-! ## Products -/

/-- What is added to a column counts as much as the column's place. -/
theorem value_modify_add {cells : List Nat} {k : Nat} (n : Nat) (inside : k < cells.length) :
    value (cells.modify k (· + n)) = value cells + 10 ^ k * n := by
  induction cells generalizing k with
  | nil => cases inside
  | cons c cs ih =>
    cases k with
    | zero => simp; omega
    | succ k =>
      have rest := ih (k := k) (by simpa using inside)
      simp only [List.modify_succ_cons, value_cons, rest, pow_succ']
      ring

@[simp]
theorem length_addRow (x : Nat) (ys : Magnitude) (k : Nat) (cells : List Nat) :
    (addRow x ys k cells).length = cells.length := by
  induction ys generalizing k cells with
  | nil => rfl
  | cons y ys ih => simp [addRow, ih]

theorem value_addRow (x : Nat) {ys : Magnitude} {k : Nat} {cells : List Nat}
    (room : k + ys.length ≤ cells.length) :
    value (addRow x ys k cells) = value cells + 10 ^ k * (x * value ys) := by
  induction ys generalizing k cells with
  | nil => simp [addRow]
  | cons y ys ih =>
    simp only [List.length_cons] at room
    rw [addRow, ih (by simpa using by omega), value_modify_add _ (by omega), value_cons, pow_succ']
    ring

@[simp]
theorem length_addRows (xs ys : Magnitude) (i : Nat) (cells : List Nat) :
    (addRows xs ys i cells).length = cells.length := by
  induction xs generalizing i cells with
  | nil => rfl
  | cons x xs ih => simp [addRows, ih]

theorem value_addRows {xs ys : Magnitude} {i : Nat} {cells : List Nat}
    (room : i + xs.length + ys.length ≤ cells.length) :
    value (addRows xs ys i cells) = value cells + 10 ^ i * (value xs * value ys) := by
  induction xs generalizing i cells with
  | nil => simp [addRows]
  | cons x xs ih =>
    simp only [List.length_cons] at room
    rw [addRows, ih (by simpa using by omega), value_addRow x (by omega), value_cons, pow_succ']
    ring

@[simp]
theorem length_columns (a b : Magnitude) : (columns a b).length = a.length + b.length := by
  simp [columns]

/-- The columns stand for the product. -/
theorem value_columns (a b : Magnitude) : value (columns a b) = value a * value b := by
  rw [columns, value_addRows (by simp), value_replicate]
  simp

/-- Settling the columns loses only what the last one carries. -/
theorem value_settle (carry : Nat) (cells : List Nat) :
    value (settle carry cells) = (value cells + carry) % 10 ^ cells.length := by
  induction cells generalizing carry with
  | nil => simp [settle, Nat.mod_one]
  | cons c cs ih =>
    calc
      value (settle carry (c :: cs))
          = (c + carry) % 10 + 10 * ((value cs + (c + carry) / 10) % 10 ^ cs.length) := by
        rw [settle, value_cons, ih]
      _ = (c + carry + 10 * value cs) % (10 * 10 ^ cs.length) := by
        rw [Nat.mod_mul]
        congr 1
        · omega
        · congr 2
          omega
      _ = (value (c :: cs) + carry) % 10 ^ (c :: cs).length := by
        rw [value_cons, List.length_cons, pow_succ', Nat.add_right_comm]

theorem proper_settle (carry : Nat) (cells : List Nat) : Proper (settle carry cells) := by
  induction cells generalizing carry with
  | nil => exact proper_nil
  | cons c cs ih => exact proper_cons.2 ⟨Nat.mod_lt _ (by decide), ih _⟩

/-- The product fits in the columns, so the last one carries nothing. -/
theorem mul_eq_digits (ha : Proper a) (hb : Proper b) :
    mul a b = Nat.digits 10 (value a * value b) := by
  have fits : value a * value b < 10 ^ (columns a b).length := by
    rw [length_columns, pow_add]
    exact Nat.mul_lt_mul'' ha.value_lt hb.value_lt
  rw [mul]
  split
  · rename_i empty
    rcases Bool.or_eq_true_iff.1 empty with none | none <;> simp [List.isEmpty_iff.1 none]
  · rw [trim_eq_digits (proper_settle 0 _), value_settle, value_columns, Nat.add_zero,
      Nat.mod_eq_of_lt fits]

end Magnitude
end PSystem
