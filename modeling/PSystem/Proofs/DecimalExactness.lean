import PSystem.Proofs.DecimalDivision

/-!
# Sums, differences and products of long integers are exact

A normalised decimal is the canonical decimal of its integer (`Normalised.eq_canonical`), so that
what holds of canonical decimals holds of all normalised ones.  `Exact r v` says that the outcome
`r` of an operation is right for the integer `v`: a normalised decimal of that value, or an overflow
if `v` has more than 36 digits.
-/

namespace PSystem
namespace Decimal

open Magnitude

variable {a b : Decimal} {v : Int} {r : Except Fault Decimal}

/-! ## Normalised decimals and integers -/

/-- Digits without a leading zero are the digits of their value. -/
theorem Normalised.digits_eq (h : a.Normalised) : Nat.digits 10 a.digits.value = a.digits := by
  rw [value_eq_ofDigits]
  refine Nat.digits_ofDigits 10 (by decide) a.digits h.proper fun some zero => ?_
  exact h.trimmed (by rw [List.getLast?_eq_some_getLast some, zero])

theorem toInt_eq_withSign (a : Decimal) : a.toInt = withSign a.negative a.digits.value := rfl

theorem natAbs_toInt (a : Decimal) : a.toInt.natAbs = a.digits.value := by
  rw [toInt_eq_withSign, natAbs_withSign]

theorem Normalised.eq_canonical (h : a.Normalised) : a = canonical a.toInt := by
  -- a zero has no sign to lose
  have sign : (a.negative && decide (a.digits.value ≠ 0)) = a.negative := by
    cases negative : a.negative with
    | false => rfl
    | true =>
      have some : a.digits ≠ [] := fun none => by simp [h.unsigned none] at negative
      rw [← h.digits_eq] at some
      simpa using Nat.digits_ne_nil_iff_ne_zero.1 some
  rw [toInt_eq_withSign, canonical_withSign, sign, h.digits_eq]

theorem Normalised.natAbs_lt (h : a.Normalised) : a.toInt.natAbs < 10 ^ maxDigits := by
  calc
    a.toInt.natAbs = a.digits.value := natAbs_toInt a
    _ < 10 ^ a.digits.length := h.proper.value_lt
    _ ≤ 10 ^ maxDigits := Nat.pow_le_pow_right (by decide) h.few

/-! ## Arithmetic -/

/-- What an operation gives is right for the integer `v`. -/
structure Exact (r : Except Fault Decimal) (v : Int) : Prop where
  result : v.natAbs < 10 ^ maxDigits → ∃ c, r = .ok c ∧ c.Normalised ∧ c.toInt = v
  overflow : r = .error .integerOverflow ↔ 10 ^ maxDigits ≤ v.natAbs

theorem exact_represent (v : Int) : Exact (represent v) v where
  result small :=
    ⟨canonical v, by rw [represent, if_pos small], normalised_canonical small, toInt_canonical v⟩
  overflow := by
    rw [represent]
    split <;> simp <;> omega

/-- Addition, subtraction and multiplication are exact. -/
theorem arithmetic_exact (ha : a.Normalised) (hb : b.Normalised) :
    Exact (a.add b) (a.toInt + b.toInt) ∧
    Exact (a.subtract b) (a.toInt - b.toInt) ∧
    Exact (a.multiply b) (a.toInt * b.toInt) := by
  have sum := add_canonical a.toInt b.toInt
  have difference := subtract_canonical a.toInt b.toInt
  have product := multiply_canonical a.toInt b.toInt
  rw [← ha.eq_canonical, ← hb.eq_canonical] at sum difference product
  rw [sum, difference, product]
  exact ⟨exact_represent _, exact_represent _, exact_represent _⟩

/-- With 36 nines one more overflows, one less borrows nothing, and minus one only turns the
sign. -/
theorem arithmetic_exact_at_limit :
    ∃ nines one : Decimal, nines.toInt = 10 ^ 36 - 1 ∧ one.toInt = 1 ∧
      nines.add one = .error .integerOverflow ∧
      (∃ c, nines.subtract one = .ok c ∧ c.Normalised ∧ c.toInt = 10 ^ 36 - 2) ∧
      ∃ c, nines.multiply one.negate = .ok c ∧ c.Normalised ∧ c.toInt = 1 - 10 ^ 36 := by
  have nines : (canonical (10 ^ 36 - 1)).Normalised := normalised_canonical (by decide)
  have one : (canonical 1).Normalised := normalised_canonical (by decide)
  have minus : (canonical (-1)).Normalised := normalised_canonical (by decide)
  obtain ⟨sum, difference, -⟩ := arithmetic_exact nines one
  obtain ⟨-, -, product⟩ := arithmetic_exact nines minus
  simp only [toInt_canonical] at sum difference product
  refine ⟨_, _, toInt_canonical _, toInt_canonical _, sum.overflow.2 (by decide),
    difference.result (by decide), ?_⟩
  rw [negate_canonical]
  exact product.result (by decide)

end Decimal
end PSystem
