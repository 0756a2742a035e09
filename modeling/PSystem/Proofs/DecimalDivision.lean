import PSystem.Decimal.Operation
import PSystem.Proofs.DecimalArithmetic
import PSystem.Proofs.Keeps

/-!
# Dividing the decimals that arise

`Produced a` says where the decimal `a` can come from: a text, the evaluation stack, a machine
integer, or an operation on decimals that came from there.  All of these are the canonical decimals
of integers with at most 36 digits (`Produced.eq_canonical`), and `Normalised` says the same digit
by digit.  On them division is the division of integers, rounded toward zero: it cannot overflow, as
a quotient is not larger than the dividend, and its steps are those of `Magnitude.longDivide_spec`.
-/

namespace PSystem
namespace Decimal

open Magnitude

variable {a b : Decimal} {v : Int}

/-! ## Normalised decimals -/

/-- Digits without a zero at the most significant end, at most 36 of them, and no sign at zero. -/
structure Normalised (a : Decimal) : Prop where
  proper : Proper a.digits
  trimmed : a.digits.getLast? ≠ some 0
  few : a.digits.length ≤ maxDigits
  unsigned : a.digits = [] → a.negative = false

theorem normalised_canonical (small : v.natAbs < 10 ^ maxDigits) : (canonical v).Normalised where
  proper := proper_digits v.natAbs
  trimmed := by
    rw [digits_canonical]
    intro zero
    have some : Nat.digits 10 v.natAbs ≠ [] := by
      intro empty
      rw [empty] at zero
      cases zero
    have last := Nat.getLast_digit_ne_zero 10 (Nat.digits_ne_nil_iff_ne_zero.1 some)
    rw [List.getLast?_eq_some_getLast some] at zero
    exact last (Option.some.inj zero)
  few := (Nat.digits_length_le_iff (by decide) v.natAbs).2 small
  unsigned empty := by
    rw [digits_canonical, Nat.digits_eq_nil_iff_eq_zero, Int.natAbs_eq_zero] at empty
    simp [empty]

/-! ## Where decimals come from -/

theorem canonical_of_represent (h : represent v = .ok a) :
    ∃ v : Int, v.natAbs < 10 ^ maxDigits ∧ a = canonical v := by
  rw [represent] at h
  split at h
  · rename_i small
    exact ⟨v, small, (Except.ok.inj h).symm⟩
  · cases h

/-- A result of `ofParts` for proper digits is the canonical decimal of a small integer. -/
theorem canonical_of_ofParts {negative : Bool} {ds : Magnitude} (proper : Proper ds)
    (h : ofParts negative ds = .ok a) : ∃ v : Int, v.natAbs < 10 ^ maxDigits ∧ a = canonical v := by
  rw [ofParts_eq_represent negative proper] at h
  exact canonical_of_represent h

theorem digitValue_lt {c : Char} {d : Nat} (h : digitValue? c = some d) : d < 10 := by
  rw [digitValue?] at h
  split at h
  · rename_i range
    obtain ⟨-, high⟩ := range
    have upper : c.toNat ≤ 57 := high
    obtain rfl := Option.some.inj h
    omega
  · cases h

theorem proper_of_mapM {text : List Char} {ds : List Nat} (h : text.mapM digitValue? = some ds) :
    Proper ds := by
  induction text generalizing ds with
  | nil =>
    cases h
    exact proper_nil
  | cons c text ih =>
    rw [List.mapM_cons] at h
    obtain ⟨d, digit, rest⟩ := Option.bind_eq_some_iff.1 h
    obtain ⟨ds, digits, whole⟩ := Option.bind_eq_some_iff.1 rest
    obtain rfl := Option.some.inj whole
    exact proper_cons.2 ⟨digitValue_lt digit, ih digits⟩

/-- Only digits are popped. -/
theorem proper_popDigits {n : Nat} {above ds : Magnitude} {s s' : Store} (proper : Proper above)
    (h : popDigits n above s = .ok ds s') : Proper ds := by
  induction n generalizing above s with
  | zero =>
    cases h
    exact proper
  | succ n ih =>
    obtain ⟨w, t, -, next⟩ := bind_eq_ok.1 h
    split at next
    · rename_i digits
      refine ih (proper_append.2 ⟨fun d hd => ?_, proper⟩) next
      exact Nat.lt_succ_of_le (by simpa using List.all_eq_true.1 digits d hd)
    · cases next

theorem canonical_of_reads {negative : Bool} {text : List Char}
    (h : (text.mapM digitValue?).bind (fun ds => (ofParts negative ds.reverse).toOption) = some a) :
    ∃ v : Int, v.natAbs < 10 ^ maxDigits ∧ a = canonical v := by
  obtain ⟨ds, digits, parts⟩ := Option.bind_eq_some_iff.1 h
  cases result : ofParts negative ds.reverse with
  | ok c =>
    rw [result] at parts
    cases parts
    exact canonical_of_ofParts (proper_reverse.2 (proper_of_mapM digits)) result
  | error e =>
    rw [result] at parts
    cases parts

theorem canonical_of_parse {text : String} (h : parse? text = some a) :
    ∃ v : Int, v.natAbs < 10 ^ maxDigits ∧ a = canonical v := by
  simp only [parse?] at h
  -- with the minus sign and without it
  split at h <;> split at h
  · cases h
  · exact canonical_of_reads h
  · cases h
  · exact canonical_of_reads h

theorem canonical_of_pop {s s' : Store} (h : pop s = .ok a s') :
    ∃ v : Int, v.natAbs < 10 ^ maxDigits ∧ a = canonical v := by
  obtain ⟨size, s₁, -, h⟩ := bind_eq_ok.1 h
  split at h
  · cases h
  obtain ⟨sign, s₂, -, h⟩ := bind_eq_ok.1 h
  obtain ⟨ds, s₃, digits, h⟩ := bind_eq_ok.1 h
  cases parts : ofParts (sign != 0) ds with
  | ok c =>
    rw [parts] at h
    cases h
    exact canonical_of_ofParts (proper_popDigits proper_nil digits) parts
  | error e =>
    rw [parts] at h
    cases h

/-- The decimals that texts, the evaluation stack, machine integers and arithmetic give. -/
inductive Produced : Decimal → Prop
  | parsed {text : String} {a : Decimal} (h : parse? text = some a) : Produced a
  | popped {s s' : Store} {a : Decimal} (h : pop s = .ok a s') : Produced a
  | ofInt (w : Word) : Produced (Decimal.ofInt w.signed)
  | negated {a : Decimal} (ha : Produced a) : Produced a.negate
  | sum {a b c : Decimal} (ha : Produced a) (hb : Produced b) (h : a.add b = .ok c) : Produced c
  | difference {a b c : Decimal} (ha : Produced a) (hb : Produced b) (h : a.subtract b = .ok c) :
    Produced c
  | product {a b c : Decimal} (ha : Produced a) (hb : Produced b) (h : a.multiply b = .ok c) :
    Produced c
  | quotient {a b c : Decimal} (ha : Produced a) (hb : Produced b) (h : a.divide b = .ok c) :
    Produced c

/-- What is produced is the canonical decimal of an integer with at most 36 digits. -/
theorem Produced.eq_canonical (h : Produced a) :
    ∃ v : Int, v.natAbs < 10 ^ maxDigits ∧ a = canonical v := by
  -- Each operation is the integer one followed by a check of the digits, so the induction carries
  -- the integer that the decimal stands for.
  induction h with
  | parsed h => exact canonical_of_parse h
  | popped h => exact canonical_of_pop h
  | ofInt w =>
    have small := natAbs_signed_lt w
    exact ⟨w.signed, small.trans (by decide), ofInt_eq_canonical small⟩
  | negated _ ih =>
    obtain ⟨v, small, rfl⟩ := ih
    exact ⟨-v, by rwa [Int.natAbs_neg], negate_canonical v⟩
  | sum _ _ h iha ihb =>
    obtain ⟨v, -, rfl⟩ := iha
    obtain ⟨w, -, rfl⟩ := ihb
    exact canonical_of_represent (add_canonical v w ▸ h)
  | difference _ _ h iha ihb =>
    obtain ⟨v, -, rfl⟩ := iha
    obtain ⟨w, -, rfl⟩ := ihb
    exact canonical_of_represent (subtract_canonical v w ▸ h)
  | product _ _ h iha ihb =>
    obtain ⟨v, -, rfl⟩ := iha
    obtain ⟨w, -, rfl⟩ := ihb
    exact canonical_of_represent (multiply_canonical v w ▸ h)
  | quotient _ _ h iha ihb =>
    obtain ⟨v, -, rfl⟩ := iha
    obtain ⟨w, -, rfl⟩ := ihb
    rw [divide_canonical] at h
    split at h
    · cases h
    · exact canonical_of_represent h

/-! ## Division -/

/-- A quotient has no more digits than the dividend. -/
theorem natAbs_tdiv_lt {v w : Int} {bound : Nat} (small : v.natAbs < bound) :
    (v.tdiv w).natAbs < bound := by
  rw [Int.natAbs_tdiv]
  exact (Nat.div_le_self _ _).trans_lt small

/-- Division by zero is an error.  Any other division has a result, which is normalised and stands
for the quotient of the integers, rounded toward zero.  If the divisor has several digits and is not
larger than the dividend, the result comes from long division, which gives one digit for each place
and never reads out of range: every estimate is a digit, the divisor is added back once at most, and
nothing is left at a position after its step. -/
theorem divide_exact (ha : Produced a) (hb : Produced b) :
    (b.toInt = 0 → a.divide b = .error .divideByZero) ∧
    (b.toInt ≠ 0 →
      (∃ q, a.divide b = .ok q ∧ q.Normalised ∧ q.toInt = a.toInt.tdiv b.toInt) ∧
      (b.digits.length ≠ 1 → a.digits.compare b.digits ≠ .lt →
        ∃ steps, longDivide a.digits b.digits = some steps ∧
          steps.length = a.digits.length + 1 - b.digits.length ∧ ∀ step ∈ steps, step.Exact)) := by
  obtain ⟨v, small, rfl⟩ := ha.eq_canonical
  obtain ⟨w, -, rfl⟩ := hb.eq_canonical
  simp only [toInt_canonical, divide_canonical, digits_canonical, compare_digits]
  refine ⟨fun zero => if_pos zero, fun nonzero => ⟨?_, fun several order => ?_⟩⟩
  · have fits := natAbs_tdiv_lt (w := w) small
    exact ⟨canonical (v.tdiv w), by rw [if_neg nonzero, represent, if_pos fits],
      normalised_canonical fits, toInt_canonical _⟩
  · have le : w.natAbs ≤ v.natAbs := Nat.le_of_not_lt fun less => order (Nat.compare_eq_lt.2 less)
    have ten : 10 ≤ w.natAbs := by
      by_contra small
      exact several (by rw [Nat.digits_of_lt 10 _ (Int.natAbs_ne_zero.2 nonzero) (by omega)]; rfl)
    obtain ⟨steps, run, count, exact, -⟩ := longDivide_spec ten le
    exact ⟨steps, run, count, exact⟩

/-- For 4100 by 588 the second estimate is 7, and the divisor is added back. -/
theorem divide_exact_adding_back :
    ∃ q, (ofInt 4100).divide (ofInt (-588)) = .ok q ∧ q.Normalised ∧ q.toInt = -6 ∧
      ∃ first second, longDivide [0, 0, 1, 4] [8, 8, 5] = some [first, second] ∧
        second.estimate = 7 ∧ second.addedBack = true ∧ second.Exact := by
  obtain ⟨-, division⟩ := divide_exact (.ofInt 4100) (.ofInt (Word.ofSigned (-588)))
  obtain ⟨⟨q, run, normalised, value⟩, steps⟩ := division (by decide)
  obtain ⟨all, divides, count, exact⟩ := steps (by decide) (by decide)
  have places : longDivide [0, 0, 1, 4] [8, 8, 5] = some [⟨0, false, 0, 0, [0, 4, 1, 0, 0]⟩,
      ⟨7, true, 6, 0, [0, 0, 5, 7, 2]⟩] := by decide
  have whole : all = [⟨0, false, 0, 0, [0, 4, 1, 0, 0]⟩, ⟨7, true, 6, 0, [0, 0, 5, 7, 2]⟩] :=
    Option.some.inj (divides.symm.trans places)
  refine ⟨q, run, normalised, value, _, _, places, rfl, rfl, exact _ ?_⟩
  simp [whole]

end Decimal
end PSystem
