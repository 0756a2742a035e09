import PSystem.Proofs.Digits

/-!
# Long division is exact

Division brings the digits of the dividend down one at a time.  What each step has to do is the
same for both kinds of divisor: with a remainder `r` below the divisor `v` and a new digit `d`, the
quotient digit is `(10 * r + d) / v` and the new remainder is `(10 * r + d) % v`.  `bring_down`
adds the steps up.

For a divisor of one digit a step is that by definition.  For a longer one the quotient digit is
estimated from the leading digits.  The estimate is never too small, and as the divisor's first
digit is at least five it is too large by at most one (`trialDigit_bounds`).  The sign of what is
left at the position tells which, and adding the divisor back once corrects it (`divideAt_spec`).
So no index is ever out of range, and every step leaves a zero at its position
(`longDivide_spec`).

The bounds on the estimate are those of Knuth's algorithm D.
-/

namespace PSystem
namespace Magnitude

variable {v r d q lead second third : Nat}

/-! ## Digits in the order of division -/

/-- The number that digits stand for, the most significant first. -/
def reading (ds : List Nat) : Nat :=
  value ds.reverse

@[simp]
theorem reading_nil : reading [] = 0 := rfl

theorem reading_cons (d : Nat) (ds : List Nat) :
    reading (d :: ds) = d * 10 ^ ds.length + reading ds := by
  simp only [reading, List.reverse_cons, value_append, value_cons, value_nil, List.length_reverse]
  ring

theorem reading_append (a b : List Nat) :
    reading (a ++ b) = reading a * 10 ^ b.length + reading b := by
  simp only [reading, List.reverse_append, value_append, List.length_reverse]
  ring

theorem reading_concat (ds : List Nat) (d : Nat) : reading (ds ++ [d]) = reading ds * 10 + d := by
  rw [reading_append]
  rfl

theorem reading_lt {ds : List Nat} (proper : Proper ds) : reading ds < 10 ^ ds.length := by
  have bound := (proper_reverse.2 proper).value_lt
  rwa [List.length_reverse] at bound

/-- The first digit of a quotient, and what is left to divide after it. -/
theorem bring_down (pos : 0 < v) (r d power rest : Nat) :
    (r * (10 * power) + (d * power + rest)) / v =
      (r * 10 + d) / v * power + ((r * 10 + d) % v * power + rest) / v := by
  have split := Nat.div_add_mod (r * 10 + d) v
  calc (r * (10 * power) + (d * power + rest)) / v
      = ((r * 10 + d) * power + rest) / v := by ring_nf
    _ = ((v * ((r * 10 + d) / v) + (r * 10 + d) % v) * power + rest) / v := by rw [split]
    _ = (v * ((r * 10 + d) / v * power) + ((r * 10 + d) % v * power + rest)) / v := by ring_nf
    _ = (r * 10 + d) / v * power + ((r * 10 + d) % v * power + rest) / v :=
      Nat.mul_add_div pos _ _

/-- A quotient digit is a digit as long as the remainder stays below the divisor. -/
theorem quotient_digit_lt (below : r < v) (digit : d < 10) : (r * 10 + d) / v < 10 := by
  rw [Nat.div_lt_iff_lt_mul (by omega)]
  omega

/-! ## Division by one digit -/

theorem length_shortDivide (v r : Nat) (ds : List Nat) :
    (shortDivide v r ds).length = ds.length := by
  induction ds generalizing r with
  | nil => rfl
  | cons d ds ih => simp [shortDivide, ih]

theorem reading_shortDivide (below : r < v) (ds : List Nat) :
    reading (shortDivide v r ds) = (r * 10 ^ ds.length + reading ds) / v := by
  induction ds generalizing r with
  | nil => simp [shortDivide, Nat.div_eq_of_lt below]
  | cons d ds ih =>
    have pos : 0 < v := by omega
    rw [shortDivide, reading_cons, reading_cons, length_shortDivide, ih (Nat.mod_lt _ pos),
      List.length_cons, Nat.pow_succ', bring_down pos]

theorem proper_shortDivide (below : r < v) {ds : List Nat} (h : Proper ds) :
    Proper (shortDivide v r ds) := by
  induction ds generalizing r with
  | nil => exact proper_nil
  | cons d ds ih =>
    obtain ⟨digit, rest⟩ := proper_cons.1 h
    have next : (r * 10 + d) % v < v := Nat.mod_lt _ (by omega)
    exact proper_cons.2 ⟨quotient_digit_lt below digit, ih next rest⟩

/-! ## The estimate -/

/-- Lowering the estimate keeps it at or above any digit `least` that the divisor's first two
digits do not refute, and ends at one that they do not refute either. -/
theorem refine_bounds {least numerator : Nat} (low : least ≤ q) (digit : q ≤ 9)
    (small : second ≤ 9) (taken : q * lead ≤ numerator)
    (refuted : ∀ p, numerator * 10 + third < p * (lead * 10 + second) → least < p) :
    least ≤ refine lead second third q (numerator - q * lead) ∧
      refine lead second third q (numerator - q * lead) ≤ 9 ∧
      refine lead second third q (numerator - q * lead) * (lead * 10 + second) ≤
        numerator * 10 + third := by
  induction q with
  | zero => simpa [refine] using low
  | succ q ih =>
    have product : (q + 1) * (lead * 10 + second) = (q + 1) * lead * 10 + (q + 1) * second := by
      ring
    have bound : (q + 1) * second ≤ 9 * 9 := Nat.mul_le_mul digit small
    have less : (q + 1) * lead = q * lead + lead := Nat.succ_mul q lead
    rw [refine]
    split
    · rename_i high
      -- the two digits refute `q + 1`
      have below : least < q + 1 := refuted (q + 1) (by omega)
      have given : numerator - (q + 1) * lead + lead = numerator - q * lead := by omega
      rw [given]
      exact ih (by omega) (by omega) (by omega)
    · exact ⟨low, digit, by omega⟩

/-- A divisor as long division needs it, the most significant digit first: with two digits at least,
and the first of them not below five. -/
structure Scaled (divisor : List Nat) : Prop where
  proper : Proper divisor
  two : 2 ≤ divisor.length
  lead : 5 ≤ divisor.headD 0

section Leading

/-! `numerator` and `third` make up the leading digits of the dividend `w`, `lead` and `second`
those of the divisor `v`; `unit` is the place of the last digit that the estimate reads. -/

variable {w unit numerator : Nat}

/-- The first digits alone do not make the quotient digit too small. -/
theorem quotient_le_leading (high : w < unit * (numerator * 10 + third + 1))
    (small : third ≤ 9) (low : unit * (lead * 10 + second) ≤ v) (five : 5 ≤ lead) :
    w / v ≤ numerator / lead := by
  rw [Nat.le_div_iff_mul_le (by omega)]
  apply Nat.le_of_lt_succ
  apply Nat.lt_of_mul_lt_mul_left (a := unit * 10)
  calc unit * 10 * (w / v * lead)
      = w / v * (unit * (lead * 10)) := by ring
    _ ≤ w / v * (unit * (lead * 10 + second)) := by gcongr; omega
    _ ≤ w / v * v := by gcongr
    _ ≤ w := Nat.div_mul_le_self w v
    _ < unit * (numerator * 10 + third + 1) := high
    _ ≤ unit * (numerator * 10 + 10) := Nat.mul_le_mul_left unit (by omega)
    _ = unit * 10 * (numerator + 1) := by ring

/-- A digit that the leading digits refute is too large. -/
theorem quotient_lt_of_refuted (pos : 0 < v) (high : w < unit * (numerator * 10 + third + 1))
    (low : unit * (lead * 10 + second) ≤ v) (p : Nat)
    (refuted : numerator * 10 + third < p * (lead * 10 + second)) : w / v < p := by
  rw [Nat.div_lt_iff_lt_mul pos]
  calc w < unit * (numerator * 10 + third + 1) := high
    _ ≤ unit * (p * (lead * 10 + second)) := by gcongr; omega
    _ = p * (unit * (lead * 10 + second)) := by ring
    _ ≤ p * v := by gcongr

/-- A digit that the leading digits do not refute is too large by one at most. -/
theorem le_quotient_succ (pos : 0 < v) (low : unit * (numerator * 10 + third) ≤ w)
    (high : v < unit * (lead * 10 + second + 1)) (five : 5 ≤ lead) {p : Nat} (digit : p ≤ 9)
    (allowed : p * (lead * 10 + second) ≤ numerator * 10 + third) : p ≤ w / v + 1 := by
  cases p with
  | zero => exact Nat.zero_le _
  | succ p =>
    apply Nat.succ_le_succ
    rw [Nat.le_div_iff_mul_le pos]
    calc p * v ≤ p * (unit * (lead * 10 + second + 1)) := by gcongr
      _ = unit * (p * (lead * 10 + second) + p) := by ring
      _ ≤ unit * ((p + 1) * (lead * 10 + second)) := by rw [Nat.succ_mul]; gcongr; omega
      _ ≤ unit * (numerator * 10 + third) := by gcongr
      _ ≤ w := low

end Leading


/-- Digits behind a place make up less than one unit of it. -/
theorem reading_append_bounds {low : List Nat} (proper : Proper low) (front : List Nat) {t : Nat}
    (ht : reading front = t) :
    10 ^ low.length * t ≤ reading (front ++ low) ∧
      reading (front ++ low) < 10 ^ low.length * (t + 1) := by
  have small := reading_lt proper
  rw [reading_append, ht, Nat.mul_comm t, Nat.mul_add _ _ 1]
  omega

/-- The estimated digit is the true one or the next one up. -/
theorem trialDigit_bounds {divisor behind : List Nat} {top : Nat} (scaled : Scaled divisor)
    (proper : Proper (top :: behind)) (length : behind.length = divisor.length)
    (below : reading (top :: behind) < 10 * reading divisor) (before after : List Nat) :
    ∃ q, trialDigit divisor (before ++ top :: (behind ++ after)) before.length = some q ∧ q ≤ 9 ∧
      reading (top :: behind) / reading divisor ≤ q ∧
      q ≤ reading (top :: behind) / reading divisor + 1 := by
  obtain ⟨digits, two, five⟩ := scaled
  rcases divisor with - | ⟨lead, - | ⟨second, low'⟩⟩
  · simp at two
  · simp at two
  rcases behind with - | ⟨y, - | ⟨third, low⟩⟩
  · simp at length
  · simp at length
  have same : low.length = low'.length := by simpa using length
  change 5 ≤ lead at five
  simp only [proper_cons] at proper digits
  obtain ⟨-, -, small, properLow⟩ := proper
  obtain ⟨-, small', properLow'⟩ := digits
  obtain ⟨low_w, high_w⟩ := reading_append_bounds properLow [top, y, third]
    (t := (top * 10 + y) * 10 + third) (by simp only [reading_cons, reading_nil]; simp; ring)
  obtain ⟨low_v, high_v⟩ := reading_append_bounds properLow' [lead, second]
    (t := lead * 10 + second) (by simp [reading_cons])
  rw [same] at low_w high_w
  simp only [List.cons_append, List.nil_append] at low_w high_w low_v high_v
  generalize reading (top :: y :: third :: low) = w at *
  generalize reading (lead :: second :: low') = v at *
  have pos : 0 < v := by omega
  -- the first estimate, before the second digit of the divisor corrects it
  have start : w / v ≤ min 9 ((top * 10 + y) / lead) := by
    apply le_min
    · exact Nat.le_of_lt_succ ((Nat.div_lt_iff_lt_mul pos).2 below)
    · exact quotient_le_leading high_w (by omega) low_v five
  have taken : min 9 ((top * 10 + y) / lead) * lead ≤ top * 10 + y :=
    (Nat.mul_le_mul_right lead (min_le_right _ _)).trans (Nat.div_mul_le_self _ _)
  obtain ⟨least, digit, allowed⟩ := refine_bounds start (min_le_left _ _) (by omega : second ≤ 9)
    taken (quotient_lt_of_refuted pos high_w low_v)
  refine ⟨_, ?_, digit, least, le_quotient_succ pos low_w high_v five digit allowed⟩
  simp [trialDigit]

/-! ## Work on the digits behind a position -/

section Access

variable {before after : List Nat} {x y k : Nat}

theorem getElem?_behind (h : before.length = k) : (before ++ x :: after)[k]? = some x := by
  simp [← h]

theorem set_behind (h : before.length = k) :
    (before ++ x :: after).set k y = before ++ y :: after := by
  simp [← h]

end Access

/-- What is left and what was taken off make up the digits again, except for what is owed at the
position. -/
theorem takeOff_spec (q carry borrow : Nat) (small : borrow ≤ 1) (before : List Nat) (top : Nat)
    (v v' : List Nat) {behind : List Nat} (proper : Proper behind)
    (length : behind.length = v.length) (after : List Nat) :
    ∃ low owed, takeOff q (v ++ v') before.length v.length carry borrow
        (before ++ top :: (behind ++ after)) = some (before ++ top :: (low ++ after), owed) ∧
      low.length = v.length ∧ Proper low ∧
      reading low + (q * reading v + carry + borrow) = reading behind + 10 ^ v.length * owed := by
  induction v using List.reverseRecOn generalizing behind carry borrow v' after with
  | nil =>
    obtain rfl := List.length_eq_zero_iff.1 length
    exact ⟨[], carry + borrow, by simp [takeOff], rfl, proper_nil, by simp⟩
  | append_singleton v y ih =>
    obtain ⟨behind, x, rfl⟩ : ∃ front x, behind = front ++ [x] := by
      simpa using (List.eq_nil_or_concat behind).resolve_left (by rintro rfl; simp at length)
    obtain ⟨rest, digit⟩ := proper_append.1 proper
    have digit : x < 10 := by simpa using digit
    have same : behind.length = v.length := by simpa using length
    have split := Nat.div_add_mod (q * y + carry) 10
    have place : (before ++ top :: behind).length = before.length + v.length + 1 := by
      simp [same]
      omega
    have last (z : Nat) : before ++ top :: (behind ++ [z] ++ after) =
        (before ++ top :: behind) ++ z :: after := by simp
    have divisor : (v ++ [y] ++ v')[v.length]? = some y := by simp
    have pow : 10 ^ (v.length + 1) = 10 * 10 ^ v.length := Nat.pow_succ'
    rw [List.length_append, List.length_singleton, takeOff, divisor, last, getElem?_behind place]
    simp only [Option.bind_eq_bind, Option.bind_some, set_behind place, reading_concat, pow]
    -- whichever digit `z` is written, it and what is owed before it make up the digit that was there
    have writes (z borrow' : Nat) (small' : borrow' ≤ 1) (digit' : z < 10)
        (written : z + ((q * y + carry) % 10 + borrow) = x + 10 * borrow') :
        ∃ low owed, takeOff q (v ++ [y] ++ v') before.length v.length ((q * y + carry) / 10) borrow'
            (before ++ top :: behind ++ z :: after) = some (before ++ top :: (low ++ after), owed) ∧
          low.length = v.length + 1 ∧ Proper low ∧
          reading low + (q * (reading v * 10 + y) + carry + borrow) =
            reading behind * 10 + x + 10 * 10 ^ v.length * owed := by
      obtain ⟨low, owed, run, size, digits, total⟩ := ih ((q * y + carry) / 10) borrow' small'
        ([y] ++ v') rest same (z :: after)
      refine ⟨low ++ [z], owed, by simpa using run, by simp [size], ?_, ?_⟩
      · exact proper_append.2 ⟨digits, by simpa using digit'⟩
      · rw [reading_concat]
        have moved : q * (reading v * 10 + y) = 10 * (q * reading v) + q * y := by ring
        rw [moved, Nat.mul_assoc]
        omega
    split
    · exact writes _ 0 (by omega) (by omega) (by omega)
    · exact writes _ 1 le_rfl (by omega) (by omega)

/-- What the digits were and the divisor make up the new digits and the carry into the position. -/
theorem addBack_spec (carry : Nat) (before : List Nat) (top : Nat) (v v' : List Nat)
    {behind : List Nat} (length : behind.length = v.length) (after : List Nat) :
    ∃ high carry', addBack (v ++ v') before.length v.length carry
        (before ++ top :: (behind ++ after)) = some (before ++ top :: (high ++ after), carry') ∧
      high.length = v.length ∧ Proper high ∧
      reading high + 10 ^ v.length * carry' = reading behind + reading v + carry := by
  -- The digits are added from the last one, as the carry goes, so the induction takes off the end.
  induction v using List.reverseRecOn generalizing behind carry v' after with
  | nil =>
    obtain rfl := List.length_eq_zero_iff.1 length
    exact ⟨[], carry, by simp [addBack], rfl, proper_nil, by simp⟩
  | append_singleton v y ih =>
    obtain ⟨behind, x, rfl⟩ : ∃ front x, behind = front ++ [x] := by
      simpa using (List.eq_nil_or_concat behind).resolve_left (by rintro rfl; simp at length)
    have same : behind.length = v.length := by simpa using length
    have place : (before ++ top :: behind).length = before.length + v.length + 1 := by
      simp [same]
      omega
    have last : before ++ top :: (behind ++ [x] ++ after) =
        (before ++ top :: behind) ++ x :: after := by simp
    have divisor : (v ++ [y] ++ v')[v.length]? = some y := by simp
    have pow : 10 ^ (v.length + 1) = 10 * 10 ^ v.length := Nat.pow_succ'
    rw [List.length_append, List.length_singleton, addBack, divisor, last, getElem?_behind place]
    simp only [Option.bind_eq_bind, Option.bind_some, set_behind place, reading_concat, pow]
    obtain ⟨high, carry', run, size, digits, total⟩ := ih ((x + y + carry) / 10) ([y] ++ v') same
      ((x + y + carry) % 10 :: after)
    refine ⟨high ++ [(x + y + carry) % 10], carry', ?_, by simp [size], ?_, ?_⟩
    · simpa using run
    · exact proper_append.2 ⟨digits, by simp; omega⟩
    · rw [reading_concat, Nat.mul_assoc]
      omega

/-! ## Division by several digits -/

/-- A remainder of long division: as long as the divisor and below it. -/
structure Remains (divisor remainder : List Nat) : Prop where
  proper : Proper remainder
  length : remainder.length = divisor.length
  below : reading remainder < reading divisor

/-- What holds of every step of long division: the estimate is a digit, the divisor is added back
once at most, and then nothing is left at the position. -/
structure DivisionStep.Exact (step : DivisionStep) : Prop where
  digit : step.estimate ≤ 9
  once : step.estimate = step.quotient + if step.addedBack then 1 else 0
  cleared : step.left = 0

/-- Digits below a unit that make up a number below it with what is left above them are that number,
and nothing is left. -/
theorem cleared_of_small {rest n unit : Nat} {left : Int}
    (total : (rest : Int) + left * unit = n) (small : rest < unit) (below : n < unit) :
    left = 0 ∧ rest = n := by
  have none : left = 0 := by
    rcases lt_trichotomy left 0 with negative | zero | positive
    · have low : left * unit ≤ -1 * unit := by gcongr; omega
      omega
    · exact zero
    · have high : 1 * (unit : Int) ≤ left * unit := by gcongr; omega
      omega
  rw [none, Int.zero_mul, Int.add_zero] at total
  exact ⟨none, by exact_mod_cast total⟩

/-- A step at a position finds the quotient digit and leaves the remainder behind the position. -/
theorem divideAt_spec {divisor behind : List Nat} {top : Nat} (scaled : Scaled divisor)
    (proper : Proper (top :: behind)) (length : behind.length = divisor.length)
    (below : reading (top :: behind) < 10 * reading divisor) (before after : List Nat) :
    ∃ step rest, divideAt divisor before.length (before ++ top :: (behind ++ after)) = some step ∧
      step.Exact ∧ step.quotient = reading (top :: behind) / reading divisor ∧
      step.digits = before ++ 0 :: (rest ++ after) ∧ Remains divisor rest ∧
      reading rest = reading (top :: behind) % reading divisor := by
  obtain ⟨q, trial, digit, least, most⟩ := trialDigit_bounds scaled proper length below before after
  obtain ⟨low, owed, lowered, size, digits, taken⟩ := takeOff_spec q 0 0 (by decide) before top
    divisor [] (proper_cons.1 proper).2 length after
  obtain ⟨high, carry, raised, size', digits', restored⟩ :=
    addBack_spec 0 before top divisor [] size after
  rw [List.append_nil] at lowered raised
  have window : reading (top :: behind) = top * 10 ^ divisor.length + reading behind := by
    rw [reading_cons, length]
  have full := reading_lt scaled.proper
  have small := reading_lt digits
  have small' := reading_lt digits'
  rw [size] at small
  rw [size'] at small'
  rw [divideAt, trial]
  simp only [Option.bind_eq_bind, Option.bind_some, lowered, getElem?_behind rfl, raised,
    set_behind rfl]
  generalize reading (top :: behind) = w at *
  generalize divides : reading divisor = v at *
  generalize 10 ^ divisor.length = unit at *
  have pos : 0 < v := by omega
  have whole : (w : Int) = (w / v : Nat) * v + (w % v : Nat) := by
    exact_mod_cast (Nat.div_add_mod' w v).symm
  have fits := (Nat.mod_lt w pos).trans full
  -- what was taken off, over the integers, since the position may go below zero
  have total : (reading low : Int) + ((top : Int) - owed) * unit = w - q * v := by
    have parts : (reading low : Int) + q * v = reading behind + unit * owed := by
      exact_mod_cast taken
    have front : (w : Int) = top * unit + reading behind := by exact_mod_cast window
    rw [front, Int.sub_mul]
    linarith
  split
  · rename_i missing
    have exceeded : w < q * v := by
      have owes : 1 * (unit : Int) ≤ ((owed : Int) - top) * unit := by gcongr; omega
      have below : (reading low : Int) < unit := by exact_mod_cast small
      have bound : (w : Int) < q * v := by linarith
      exact_mod_cast bound
    obtain rfl : q = w / v + 1 := le_antisymm most ((Nat.div_lt_iff_lt_mul pos).2 exceeded)
    have left : (reading high : Int) + ((top : Int) - owed + carry) * unit = (w % v : Nat) := by
      have back : (reading high : Int) + unit * carry = reading low + v := by
        exact_mod_cast restored
      rw [Nat.cast_add, Nat.cast_one] at total
      linarith
    obtain ⟨cleared, rest⟩ := cleared_of_small left small' fits
    refine ⟨_, high, rfl, ⟨digit, rfl, cleared⟩, rfl, ?_, ⟨digits', size', ?_⟩, rest⟩
    · simp only [cleared, Int.toNat_zero]
    · rw [divides, rest]
      exact Nat.mod_lt w pos
  · rename_i covered
    have enough : q * v ≤ w := by
      have some : 0 ≤ ((top : Int) - owed) * unit := mul_nonneg (by omega) (by omega)
      have bound : (q : Int) * v ≤ w := by linarith
      exact_mod_cast bound
    obtain rfl : q = w / v := le_antisymm ((Nat.le_div_iff_mul_le pos).2 enough) least
    have left : (reading low : Int) + ((top : Int) - owed) * unit = (w % v : Nat) := by linarith
    obtain ⟨cleared, rest⟩ := cleared_of_small left small fits
    refine ⟨_, low, rfl, ⟨digit, rfl, cleared⟩, rfl, ?_, ⟨digits, size, ?_⟩, rest⟩
    · simp only [cleared, Int.toNat_zero]
    · rw [divides, rest]
      exact Nat.mod_lt w pos

/-- The steps of long division exist, and their digits are those of the quotient. -/
theorem divideFrom_spec {divisor remainder : List Nat} (scaled : Scaled divisor)
    (remains : Remains divisor remainder) (ds : List Nat) (proper : Proper ds) (before : List Nat) :
    ∃ steps, divideFrom divisor ds.length before.length (before ++ (remainder ++ ds)) = some steps ∧
      steps.length = ds.length ∧ (∀ step ∈ steps, step.Exact) ∧
      Proper (steps.map DivisionStep.quotient) ∧
      reading (steps.map DivisionStep.quotient) =
        (reading remainder * 10 ^ ds.length + reading ds) / reading divisor := by
  induction ds generalizing remainder before with
  | nil => exact ⟨[], rfl, rfl, by simp, proper_nil, by simp [Nat.div_eq_of_lt remains.below]⟩
  | cons d ds ih =>
    obtain ⟨digit, rest⟩ := proper_cons.1 proper
    have below := remains.below
    have two := scaled.two
    have properRemainder := remains.proper
    have length := remains.length
    rcases remainder with - | ⟨top, behind⟩
    · simp only [List.length_nil] at length
      omega
    -- the next digit is brought down behind the remainder
    have window : reading (top :: (behind ++ [d])) = reading (top :: behind) * 10 + d :=
      reading_concat (top :: behind) d
    have proper' : Proper (top :: (behind ++ [d])) :=
      proper_append.2 ⟨properRemainder, proper_cons.2 ⟨digit, proper_nil⟩⟩
    obtain ⟨step, remainder', run, exact, quotient, left, next, remainder⟩ :=
      divideAt_spec scaled proper' (by simpa using length) (by omega) before ds
    obtain ⟨steps, runs, count, exacts, digits, value⟩ := ih next rest (before ++ [0])
    have pos : 0 < reading divisor := Nat.zero_lt_of_lt below
    rw [window] at quotient remainder
    refine ⟨step :: steps, ?_, by simp [count], ?_, ?_, ?_⟩
    · have place : before ++ (top :: behind ++ d :: ds) =
          before ++ top :: (behind ++ [d] ++ ds) := by simp
      rw [List.length_cons, divideFrom, place, run]
      simp only [Option.bind_eq_bind, Option.bind_some, left]
      simp only [List.length_append, List.length_singleton, List.append_assoc,
        List.singleton_append] at runs
      rw [runs]
      rfl
    · simpa [exact] using exacts
    · rw [List.map_cons, proper_cons, quotient]
      exact ⟨quotient_digit_lt below digit, digits⟩
    · rw [List.map_cons, reading_cons step.quotient, reading_cons d ds, List.length_map, count,
        value, remainder, quotient, List.length_cons, Nat.pow_succ', bring_down pos]


/-! ## Scaling -/

/-- A number between two powers of ten has as many digits as the higher one has zeros, and its
first digit is its quotient by the lower one. -/
theorem digits_between {k n : Nat} (low : 10 ^ k ≤ n) (high : n < 10 ^ (k + 1)) :
    (Nat.digits 10 n).length = k + 1 ∧ (Nat.digits 10 n).getLastD 0 = n / 10 ^ k := by
  have atLeast := (Nat.lt_digits_length_iff (by decide : 1 < 10) n).2 low
  have atMost := (Nat.digits_length_le_iff (by decide : 1 < 10) n).2 high
  have length : (Nat.digits 10 n).length = k + 1 := by omega
  refine ⟨length, ?_⟩
  have digit : n / 10 ^ k < 10 := by
    rwa [Nat.div_lt_iff_lt_mul (by positivity), ← Nat.pow_succ']
  rw [List.getLastD_eq_getLast?, List.getLast?_eq_getElem?, length, Nat.add_sub_cancel,
    ← List.getD_eq_getElem?_getD, Nat.getD_digits n k (by decide), Nat.mod_eq_of_lt digit]

/-- The number of digits of a number, and its first digit. -/
theorem digits_first {n : Nat} (pos : 0 < n) :
    ∃ k, 10 ^ k ≤ n ∧ n < 10 ^ (k + 1) ∧ (Nat.digits 10 n).length = k + 1 ∧
      (Nat.digits 10 n).getLastD 0 = n / 10 ^ k ∧ 1 ≤ n / 10 ^ k ∧ n / 10 ^ k ≤ 9 := by
  have low : 10 ^ Nat.log 10 n ≤ n := Nat.pow_log_le_self 10 (by omega)
  have high : n < 10 ^ (Nat.log 10 n + 1) := Nat.lt_pow_succ_log_self (by decide) n
  have unit : 0 < 10 ^ Nat.log 10 n := by positivity
  obtain ⟨length, first⟩ := digits_between low high
  refine ⟨Nat.log 10 n, low, high, length, first, ?_, ?_⟩
  · rwa [Nat.le_div_iff_mul_le unit, Nat.one_mul]
  · rwa [← Nat.lt_succ_iff, Nat.div_lt_iff_lt_mul unit, ← Nat.pow_succ']

/-- The factor that raises a first digit to five at least, and what is below the next digit not
above ten. -/
theorem scale_bounds {first : Nat} (pos : 1 ≤ first) (digit : first ≤ 9) :
    5 ≤ 10 / (first + 1) * first ∧ 10 / (first + 1) * (first + 1) ≤ 10 ∧
      0 < 10 / (first + 1) ∧ 10 / (first + 1) < 10 := by
  interval_cases first <;> decide

theorem scale_digits {factor : Nat} (digit : factor < 10) (n : Nat) :
    scale factor (Nat.digits 10 n) = Nat.digits 10 (factor * n) := by
  rw [scale, mul_eq_digits (proper_digits n) (by simpa using digit), value_digits, value_cons,
    value_nil, Nat.mul_zero, Nat.add_zero, Nat.mul_comm]

theorem reading_digits (n : Nat) : reading (Nat.digits 10 n).reverse = n := by
  rw [reading, List.reverse_reverse, value_digits]

/-- The divisor that long division works with is as long as the one given. -/
theorem scaled_divisor {n : Nat} (ten : 10 ≤ n) :
    Scaled (Nat.digits 10 (10 / ((Nat.digits 10 n).getLastD 0 + 1) * n)).reverse ∧
      (Nat.digits 10 (10 / ((Nat.digits 10 n).getLastD 0 + 1) * n)).length =
        (Nat.digits 10 n).length := by
  obtain ⟨k, low, high, same, first, pos, digit⟩ := digits_first (by omega : 0 < n)
  have unit : 0 < 10 ^ k := by positivity
  have some : 1 ≤ k := by
    by_contra none
    obtain rfl : k = 0 := by omega
    omega
  obtain ⟨five, full, positive, -⟩ := scale_bounds pos digit
  rw [first, same]
  generalize 10 / (n / 10 ^ k + 1) = factor at *
  -- The scaled divisor has as many digits as before and its first is at least five, which is what
  -- the estimates need.
  have above : 5 * 10 ^ k ≤ factor * n :=
    calc 5 * 10 ^ k ≤ factor * (n / 10 ^ k) * 10 ^ k := by gcongr
      _ = factor * (n / 10 ^ k * 10 ^ k) := Nat.mul_assoc ..
      _ ≤ factor * n := by gcongr; exact Nat.div_mul_le_self n _
  have below : factor * n < 10 ^ (k + 1) :=
    calc factor * n < factor * ((n / 10 ^ k + 1) * 10 ^ k) := by
          gcongr
          rw [Nat.succ_mul]
          exact Nat.lt_div_mul_add unit
      _ = factor * (n / 10 ^ k + 1) * 10 ^ k := (Nat.mul_assoc ..).symm
      _ ≤ 10 * 10 ^ k := by gcongr
      _ = 10 ^ (k + 1) := (Nat.pow_succ' ..).symm
  obtain ⟨length, lead⟩ := digits_between (by omega) below
  refine ⟨⟨proper_reverse.2 (proper_digits _), by rw [List.length_reverse]; omega, ?_⟩, length⟩
  rwa [List.headD_eq_head?_getD, List.head?_reverse, ← List.getLastD_eq_getLast?, lead,
    Nat.le_div_iff_mul_le unit]

/-- The dividend that long division works with: the digits of a number, after zeros that make it one
digit longer than the digits given. -/
theorem scaled_dividend {factor m : Nat} (digit : factor < 10) :
    ∃ zeros, (Nat.digits 10 (factor * m)).length + zeros = (Nat.digits 10 m).length + 1 ∧
      reading (List.replicate zeros 0 ++ (Nat.digits 10 (factor * m)).reverse) = factor * m := by
  have full : m < 10 ^ (Nat.digits 10 m).length := Nat.lt_base_pow_length_digits (by decide)
  have fits : (Nat.digits 10 (factor * m)).length ≤ (Nat.digits 10 m).length + 1 := by
    rw [Nat.digits_length_le_iff (by decide)]
    calc factor * m ≤ 10 * m := Nat.mul_le_mul_right m digit.le
      _ < 10 * 10 ^ (Nat.digits 10 m).length := by omega
      _ = 10 ^ ((Nat.digits 10 m).length + 1) := (Nat.pow_succ' ..).symm
  refine ⟨(Nat.digits 10 m).length + 1 - (Nat.digits 10 (factor * m)).length, by omega, ?_⟩
  rw [reading_append, reading_digits, reading, List.reverse_replicate, value_replicate,
    Nat.zero_mul, Nat.zero_add]

/-- The first digits of a dividend that is below the divisor shifted to its length are a
remainder. -/
theorem remains_take {divisor digits : List Nat} (proper : Proper digits)
    (long : divisor.length ≤ digits.length)
    (below : reading digits < reading divisor * 10 ^ (digits.length - divisor.length)) :
    Remains divisor (digits.take divisor.length) := by
  refine ⟨proper.take _, by rw [List.length_take]; omega, ?_⟩
  have split := reading_append (digits.take divisor.length) (digits.drop divisor.length)
  rw [List.take_append_drop, List.length_drop] at split
  exact Nat.lt_of_mul_lt_mul_right (a := 10 ^ (digits.length - divisor.length)) (by omega)

/-- Long division of a number by one that is not larger and has several digits: no index is out of
range, every step is exact, and the digits are those of the quotient. -/
theorem longDivide_spec {m n : Nat} (ten : 10 ≤ n) (le : n ≤ m) :
    ∃ steps, longDivide (Nat.digits 10 m) (Nat.digits 10 n) = some steps ∧
      steps.length = (Nat.digits 10 m).length + 1 - (Nat.digits 10 n).length ∧
      (∀ step ∈ steps, step.Exact) ∧ Proper (steps.map DivisionStep.quotient) ∧
      reading (steps.map DivisionStep.quotient) = m / n := by
  obtain ⟨k, low, -, size, first, atLeast, atMost⟩ := digits_first (by omega : 0 < n)
  obtain ⟨scaled, same⟩ := scaled_divisor ten
  obtain ⟨-, -, positive, digit⟩ := scale_bounds atLeast atMost
  have longer : (Nat.digits 10 n).length ≤ (Nat.digits 10 m).length :=
    Nat.le_length_digits_le 10 n m le
  have full : m < 10 ^ (Nat.digits 10 m).length := Nat.lt_base_pow_length_digits (by decide)
  rw [← first] at positive digit
  simp only [longDivide]
  generalize 10 / ((Nat.digits 10 n).getLastD 0 + 1) = factor at *
  obtain ⟨zeros, fits, dividend⟩ := scaled_dividend (m := m) digit
  rw [scale_digits digit, scale_digits digit]
  have divisor : reading (Nat.digits 10 (factor * n)).reverse = factor * n := reading_digits _
  have proper : Proper (List.replicate zeros 0 ++ (Nat.digits 10 (factor * m)).reverse) :=
    proper_append.2 ⟨proper_replicate zeros, proper_reverse.2 (proper_digits _)⟩
  have length : (List.replicate zeros 0 ++ (Nat.digits 10 (factor * m)).reverse).length =
      (Nat.digits 10 m).length + 1 := by
    rw [List.length_append, List.length_replicate, List.length_reverse]
    omega
  have padding : (Nat.digits 10 m).length + 1 - (Nat.digits 10 (factor * m)).length = zeros := by
    omega
  have reversed : (Nat.digits 10 (factor * m)).reverse.length =
      (Nat.digits 10 (factor * m)).length := List.length_reverse
  rw [← List.length_reverse] at same
  rw [reversed, padding]
  generalize (Nat.digits 10 (factor * n)).reverse = v at *
  generalize List.replicate zeros 0 ++ (Nat.digits 10 (factor * m)).reverse = digits at *
  have shift : 10 ^ k * 10 ^ (digits.length - v.length) = 10 ^ (Nat.digits 10 m).length := by
    rw [← Nat.pow_add]
    congr 1
    omega
  -- The first digits of the scaled dividend are below the scaled divisor: that is the invariant the
  -- steps start from.
  have remains : Remains v (digits.take v.length) := by
    apply remains_take proper (by omega)
    calc reading digits = factor * m := dividend
      _ < factor * 10 ^ (Nat.digits 10 m).length := by gcongr
      _ = factor * 10 ^ k * 10 ^ (digits.length - v.length) := by rw [Nat.mul_assoc, shift]
      _ ≤ factor * n * 10 ^ (digits.length - v.length) := by gcongr
      _ = reading v * 10 ^ (digits.length - v.length) := by rw [divisor]
  obtain ⟨steps, run, count, exact, quotients, value⟩ := divideFrom_spec scaled remains
    (digits.drop v.length) (proper_append.1 (by rwa [List.take_append_drop])).2 []
  rw [List.nil_append, List.take_append_drop, List.length_drop, List.length_nil] at run
  -- The scale cancels in the quotient.
  rw [← reading_append, List.take_append_drop, dividend, divisor,
    Nat.mul_div_mul_left _ _ positive] at value
  rw [List.length_drop, length, same] at count
  refine ⟨steps, ?_, count, exact, quotients, value⟩
  rw [guard, if_pos (by omega), guard, if_pos (by omega)]
  exact run

/-! ## The quotient -/

theorem div_of_lt {m n : Nat} (less : m < n) : div (Nat.digits 10 m) (Nat.digits 10 n) = [] := by
  have order : compare (Nat.digits 10 m) (Nat.digits 10 n) = .lt := by
    rwa [compare_digits, Nat.compare_eq_lt]
  simp [div, order]

theorem div_of_two_le {a b : Magnitude} (order : a.compare b ≠ .lt) (two : 2 ≤ b.length) :
    div a b = trim (((longDivide a b).getD []).map DivisionStep.quotient).reverse := by
  rcases b with - | ⟨x, - | ⟨y, rest⟩⟩
  · simp at two
  · simp at two
  · simp [div, order]

/-- The quotient of two numbers, from their digits. -/
theorem div_eq_digits (m : Nat) {n : Nat} (pos : 0 < n) :
    div (Nat.digits 10 m) (Nat.digits 10 n) = Nat.digits 10 (m / n) := by
  rcases Nat.lt_or_ge m n with less | le
  · rw [div_of_lt less, Nat.div_eq_of_lt less, Nat.digits_zero]
  have order : compare (Nat.digits 10 m) (Nat.digits 10 n) ≠ .lt := by
    rw [compare_digits]
    exact fun less => Nat.not_lt.2 le (Nat.compare_eq_lt.1 less)
  rcases Nat.lt_or_ge n 10 with small | ten
  · have digits := proper_shortDivide pos (proper_reverse.2 (proper_digits m))
    have quotient := reading_shortDivide pos (Nat.digits 10 m).reverse
    rw [reading_digits, Nat.zero_mul, Nat.zero_add, reading] at quotient
    rw [Nat.digits_of_lt 10 n (by omega) small] at order ⊢
    rw [div, if_neg order, trim_eq_digits (proper_reverse.2 digits), quotient]
  · have two : 2 ≤ (Nat.digits 10 n).length :=
      (Nat.lt_digits_length_iff (k := 1) (by decide) n).2 (by simpa using ten)
    obtain ⟨steps, run, -, -, digits, quotient⟩ := longDivide_spec ten le
    rw [div_of_two_le order two, run, Option.getD_some, trim_eq_digits (proper_reverse.2 digits)]
    exact congrArg _ quotient

end Magnitude
end PSystem
