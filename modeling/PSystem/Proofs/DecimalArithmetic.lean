import PSystem.Decimal.Basic
import PSystem.Proofs.LongDivision

/-!
# Long integers compute with integers

`Decimal.canonical v` is the decimal of the integer `v`: its sign and the digits of its absolute
value.  `Decimal.represent v` is what an operation with the result `v` has to give: the canonical
decimal, or an overflow if there are more than 36 digits.  On canonical decimals every operation
represents the operation on integers.
-/

namespace PSystem
namespace Decimal

open Magnitude

variable {v : Int} {ds : Magnitude}

/-- The decimal of an integer. -/
def canonical (v : Int) : Decimal where
  negative := decide (v < 0)
  digits := Nat.digits 10 v.natAbs

@[simp]
theorem negative_canonical (v : Int) : (canonical v).negative = decide (v < 0) := rfl

@[simp]
theorem digits_canonical (v : Int) : (canonical v).digits = Nat.digits 10 v.natAbs := rfl

@[simp]
theorem isZero_canonical (v : Int) : (canonical v).isZero = decide (v = 0) := by
  rw [isZero, digits_canonical, Bool.eq_iff_iff, List.isEmpty_iff, decide_eq_true_iff,
    Nat.digits_eq_nil_iff_eq_zero, Int.natAbs_eq_zero]

@[simp]
theorem toInt_canonical (v : Int) : (canonical v).toInt = v := by
  simp only [toInt, canonical, value_digits, decide_eq_true_iff]
  split <;> omega

/-- Equal decimals stand for equal integers, and different ones for different integers. -/
theorem canonical_inj {v w : Int} : canonical v = canonical w ↔ v = w := by
  constructor
  · intro same
    simpa using congrArg toInt same
  · exact congrArg canonical

theorem beq_canonical (v w : Int) : (canonical v == canonical w) = decide (v = w) := by
  rw [Bool.eq_iff_iff, beq_iff_eq, canonical_inj, decide_eq_true_iff]

theorem bne_canonical (v w : Int) : (canonical v != canonical w) = decide (v ≠ w) := by
  rw [bne, beq_canonical, decide_not]

/-- The outcome of an operation whose result is the integer `v`. -/
def represent (v : Int) : Except Fault Decimal :=
  if v.natAbs < 10 ^ maxDigits then .ok (canonical v) else .error .integerOverflow

/-- The integer of a sign and an absolute value. -/
def withSign (negative : Bool) (n : Nat) : Int :=
  if negative then -(n : Int) else n

@[simp]
theorem natAbs_withSign (negative : Bool) (n : Nat) : (withSign negative n).natAbs = n := by
  rw [withSign]
  split <;> simp

@[simp]
theorem withSign_natAbs (v : Int) : withSign (decide (v < 0)) v.natAbs = v := by
  simp only [withSign, decide_eq_true_iff]
  split <;> omega

/-- Zero loses its sign. -/
theorem canonical_withSign (negative : Bool) (n : Nat) :
    canonical (withSign negative n) = ⟨negative && decide (n ≠ 0), Nat.digits 10 n⟩ := by
  rw [canonical, natAbs_withSign, withSign]
  congr 1
  cases negative with
  | false => simp
  | true => simp [Nat.pos_iff_ne_zero]

/-- Digits and a sign represent their integer. -/
theorem ofParts_eq_represent (negative : Bool) (h : Proper ds) :
    ofParts negative ds = represent (withSign negative (value ds)) := by
  have few : maxDigits < (Nat.digits 10 (value ds)).length ↔ ¬ value ds < 10 ^ maxDigits := by
    rw [Nat.lt_digits_length_iff (by decide), Nat.not_lt]
  have some : (!(Nat.digits 10 (value ds)).isEmpty) = decide (value ds ≠ 0) := by
    rw [Bool.eq_iff_iff, Bool.not_eq_true', List.isEmpty_eq_false_iff,
      Nat.digits_ne_nil_iff_ne_zero, decide_eq_true_iff]
  simp only [ofParts, represent, trim_eq_digits h, natAbs_withSign, few, ite_not, some,
    canonical_withSign]

/-- The same for the digits of a number. -/
theorem ofParts_digits (negative : Bool) (n : Nat) :
    ofParts negative (Nat.digits 10 n) = represent (withSign negative n) := by
  rw [ofParts_eq_represent negative (proper_digits n), value_digits]

theorem ofParts_add (negative : Bool) (m n : Nat) :
    ofParts negative (Magnitude.add (Nat.digits 10 m) (Nat.digits 10 n)) =
      represent (withSign negative (m + n)) := by
  rw [add_eq_digits (proper_digits m) (proper_digits n), value_digits, value_digits,
    ofParts_digits]

theorem ofParts_sub (negative : Bool) {m n : Nat} (le : n ≤ m) :
    ofParts negative (Magnitude.sub (Nat.digits 10 m) (Nat.digits 10 n)) =
      represent (withSign negative (m - n)) := by
  rw [sub_eq_digits (proper_digits m) (proper_digits n) (by simpa using le), value_digits,
    value_digits, ofParts_digits]

/-! ## Machine integers -/

theorem natAbs_signed_lt (w : Word) : (Word.signed w).natAbs < 10 ^ 5 := by
  have bound := w.toNat_lt
  rw [Word.signed]
  split <;> omega

theorem ofInt_eq_canonical (small : v.natAbs < 10 ^ 5) : ofInt v = canonical v := by
  rw [ofInt, canonical, trim_eq_digits (proper_ofNat 5 _), value_ofNat, Nat.mod_eq_of_lt small]

theorem toMachineInt_canonical (v : Int) :
    (canonical v).toMachineInt =
      if -32768 ≤ v ∧ v ≤ 32767 then .ok v else .error .integerOverflow := by
  have few : 5 < (canonical v).digits.length ↔ 10 ^ 5 ≤ v.natAbs :=
    Nat.lt_digits_length_iff (by decide : 1 < 10) _
  simp only [toMachineInt, few, toInt_canonical]
  split_ifs <;> first | rfl | omega

/-! ## Arithmetic -/

theorem negate_canonical (v : Int) : (canonical v).negate = canonical (-v) := by
  rw [negate, isZero_canonical, negative_canonical, digits_canonical, canonical, Int.natAbs_neg]
  congr 1
  rw [Bool.eq_iff_iff]
  simp only [Bool.and_eq_true, Bool.not_eq_true', decide_eq_false_iff_not, decide_eq_true_iff]
  omega

/-- The order of decimals is the order of integers. -/
theorem compare_canonical (a b : Int) : (canonical a).compare (canonical b) = Ord.compare a b := by
  simp only [compare, negative_canonical, digits_canonical, compare_digits]
  by_cases ha : a < 0 <;> by_cases hb : b < 0 <;>
    simp only [ha, hb, decide_true, decide_false, Nat.compare_eq_ite_lt, Int.compare_eq_ite_lt] <;>
    split_ifs <;> first | rfl | omega

/-- Equal signs add up; of different signs the larger number decides. -/
theorem add_canonical (a b : Int) : (canonical a).add (canonical b) = represent (a + b) := by
  simp only [add, negative_canonical, digits_canonical, compare_digits, decide_eq_decide]
  -- Equal signs add the magnitudes; different signs subtract the smaller from the larger, whose
  -- sign the result has.
  split
  · rename_i same
    rw [ofParts_add]
    congr 1
    simp only [withSign, decide_eq_true_iff]
    split <;> omega
  · rename_i differ
    split
    · rename_i less
      rw [Nat.compare_eq_lt] at less
      rw [ofParts_sub _ less.le]
      congr 1
      simp only [withSign, decide_eq_true_iff]
      split <;> omega
    · rename_i notLess
      have le : b.natAbs ≤ a.natAbs := Nat.le_of_not_lt fun less =>
        notLess (Nat.compare_eq_lt.2 less)
      rw [ofParts_sub _ le]
      congr 1
      simp only [withSign, decide_eq_true_iff]
      split <;> omega

theorem subtract_canonical (a b : Int) :
    (canonical a).subtract (canonical b) = represent (a - b) := by
  rw [subtract, negate_canonical, add_canonical, Int.sub_eq_add_neg]

theorem withSign_mul (p q : Bool) (m n : Nat) :
    withSign (p != q) (m * n) = withSign p m * withSign q n := by
  cases p <;> cases q <;> simp [withSign]

theorem multiply_canonical (a b : Int) :
    (canonical a).multiply (canonical b) = represent (a * b) := by
  rw [multiply, digits_canonical, digits_canonical, mul_eq_digits (proper_digits _)
    (proper_digits _), value_digits, value_digits, ofParts_digits, withSign_mul,
    negative_canonical, negative_canonical, withSign_natAbs, withSign_natAbs]

theorem withSign_div (p q : Bool) (m n : Nat) :
    withSign (p != q) (m / n) = (withSign p m).tdiv (withSign q n) := by
  cases p <;> cases q <;> simp [withSign]

/-- The quotient is rounded toward zero. -/
theorem divide_canonical (a b : Int) :
    (canonical a).divide (canonical b) =
      if b = 0 then .error .divideByZero else represent (a.tdiv b) := by
  rw [divide, isZero_canonical]
  by_cases zero : b = 0
  · simp [zero]
  · have pos : 0 < b.natAbs := Int.natAbs_pos.2 zero
    rw [if_neg (by simpa using zero), if_neg zero, digits_canonical, digits_canonical,
      div_eq_digits _ pos, ofParts_digits, withSign_div,
      negative_canonical, negative_canonical, withSign_natAbs, withSign_natAbs]

end Decimal
end PSystem
