/-!
# Digit arithmetic

A magnitude is a list of decimal digits, the least significant first, without a zero at its most
significant end; the empty list is zero.  Addition and subtraction go digit by digit.
Multiplication sums up the products of single digits in columns and then settles the carries.
Division by one digit brings the dividend's digits down one at a time.  Long division estimates each
quotient digit from the leading digits of a divisor scaled to start with at least five, and corrects
an estimate that was one too large by adding the divisor back.
-/

namespace PSystem

/-- Decimal digits, the least significant first. -/
abbrev Magnitude := List Nat

namespace Magnitude

/-- The number that a list of digits stands for. -/
def value : Magnitude → Nat
  | [] => 0
  | d :: ds => d + 10 * value ds

/-- Drops zeros from the most significant end. -/
def trim : Magnitude → Magnitude
  | [] => []
  | d :: ds =>
    match trim ds with
    | [] => if d = 0 then [] else [d]
    | rest => d :: rest

/-- The lowest `width` digits of a number. -/
def ofNat (width n : Nat) : Magnitude :=
  (List.range width).map fun i => n / Nat.pow 10 i % 10

/-- The order of two trimmed magnitudes. -/
def compare : Magnitude → Magnitude → Ordering
  | [], [] => .eq
  | [], _ :: _ => .lt
  | _ :: _, [] => .gt
  | x :: xs, y :: ys => (compare xs ys).then (Ord.compare x y)

/-! ## Addition, subtraction, multiplication -/

/-- The sum of two magnitudes and a carry. -/
def addWith (carry : Nat) : Magnitude → Magnitude → Magnitude
  | [], [] => if carry = 0 then [] else [carry]
  | x :: xs, [] => (x + carry) % 10 :: addWith ((x + carry) / 10) xs []
  | [], y :: ys => (y + carry) % 10 :: addWith ((y + carry) / 10) [] ys
  | x :: xs, y :: ys => (x + y + carry) % 10 :: addWith ((x + y + carry) / 10) xs ys

/-- The sum of two magnitudes. -/
def add (a b : Magnitude) : Magnitude :=
  trim (addWith 0 a b)

/-- The difference of two magnitudes and a borrow, for a minuend that is large enough. -/
def subWith (borrow : Nat) : Magnitude → Magnitude → Magnitude
  | [], _ => []
  | x :: xs, ys =>
    let due := ys.headD 0 + borrow
    if due ≤ x then (x - due) :: subWith 0 xs ys.tail
    else (x + 10 - due) :: subWith 1 xs ys.tail

/-- The difference of two magnitudes, the first not below the second. -/
def sub (a b : Magnitude) : Magnitude :=
  trim (subWith 0 a b)

/-- Adds `x` times each digit of a magnitude to the columns from `k` on. -/
def addRow (x : Nat) : Magnitude → (k : Nat) → List Nat → List Nat
  | [], _, columns => columns
  | y :: ys, k, columns => addRow x ys (k + 1) (columns.modify k (· + x * y))

/-- Adds one row for each digit of the first factor, each one column further than the last. -/
def addRows : Magnitude → Magnitude → (i : Nat) → List Nat → List Nat
  | [], _, _, columns => columns
  | x :: xs, ys, i, columns => addRows xs ys (i + 1) (addRow x ys i columns)

/-- The products of single digits, summed up in columns: digit `i` of one factor times digit `j` of
the other one counts in column `i + j`. -/
def columns (a b : Magnitude) : List Nat :=
  addRows a b 0 (List.replicate (a.length + b.length) 0)

/-- Leaves one digit in each column and carries the rest into the next one.  What the last column
carries is dropped. -/
def settle (carry : Nat) : List Nat → Magnitude
  | [] => []
  | c :: cs => (c + carry) % 10 :: settle ((c + carry) / 10) cs

/-- The product of two magnitudes. -/
def mul (a b : Magnitude) : Magnitude :=
  if a.isEmpty || b.isEmpty then [] else trim (settle 0 (columns a b))

/-! ## Division -/

/-- Division by one digit: the quotient digits, most significant first, of digits given in the
same order after a remainder. -/
def shortDivide (divisor remainder : Nat) : List Nat → List Nat
  | [] => []
  | d :: ds =>
    let current := remainder * 10 + d
    current / divisor :: shortDivide divisor (current % divisor) ds

/-- Lowers an estimated quotient digit while the divisor's second digit shows it to be too large:
`lead` and `second` are the divisor's leading digits, `third` is the dividend's third digit, and
`rest` is what the estimate leaves of the dividend's first two. -/
def refine (lead second third : Nat) : (estimate rest : Nat) → Nat
  | 0, _ => 0
  | q + 1, rest =>
    if rest < 10 ∧ rest * 10 + third < (q + 1) * second then
      refine lead second third q (rest + lead)
    else q + 1

/-! ### Long division

The digits of the dividend, the most significant first, become those of the remainder in place, from
position to position.  An index out of range is `none`. -/

/-- The estimated quotient digit at position `j`, from three digits there and the divisor's first
two. -/
def trialDigit (divisor digits : List Nat) (j : Nat) : Option Nat := do
  let lead ← divisor[0]?
  let second ← divisor[1]?
  let numerator := (← digits[j]?) * 10 + (← digits[j + 1]?)
  let third ← digits[j + 2]?
  let q := min 9 (numerator / lead)
  return refine lead second third q (numerator - q * lead)

/-- Takes `q` times the divisor's first `i` digits off the `i` digits behind position `j`, from the
last one on.  What was carried and borrowed at the end is owed at position `j`. -/
def takeOff (q : Nat) (divisor : List Nat) (j : Nat) :
    (i carry borrow : Nat) → List Nat → Option (List Nat × Nat)
  | 0, carry, borrow, digits => some (digits, carry + borrow)
  | i + 1, carry, borrow, digits => do
    let product := q * (← divisor[i]?) + carry
    let digit ← digits[j + i + 1]?
    let due := product % 10 + borrow
    if due ≤ digit then
      takeOff q divisor j i (product / 10) 0 (digits.set (j + i + 1) (digit - due))
    else
      takeOff q divisor j i (product / 10) 1 (digits.set (j + i + 1) (digit + 10 - due))

/-- Adds the divisor's first `i` digits to the `i` digits behind position `j`, and gives the carry
into position `j`. -/
def addBack (divisor : List Nat) (j : Nat) :
    (i carry : Nat) → List Nat → Option (List Nat × Nat)
  | 0, carry, digits => some (digits, carry)
  | i + 1, carry, digits => do
    let sum := (← digits[j + i + 1]?) + (← divisor[i]?) + carry
    addBack divisor j i (sum / 10) (digits.set (j + i + 1) (sum % 10))

/-- What division does at one position. -/
structure DivisionStep where
  /-- The estimated digit, once the divisor's second digit has corrected it. -/
  estimate : Nat
  /-- Whether it was too large, so that the divisor was added back once. -/
  addedBack : Bool
  quotient : Nat
  /-- What is left at the position, negative as long as too much is taken off. -/
  left : Int
  digits : List Nat
  deriving DecidableEq, Repr

/-- Finds the quotient digit at position `j`. -/
def divideAt (divisor : List Nat) (j : Nat) (digits : List Nat) : Option DivisionStep := do
  let estimate ← trialDigit divisor digits j
  let (lowered, owed) ← takeOff estimate divisor j divisor.length 0 0 digits
  let left := ((← lowered[j]?) : Int) - owed
  if left < 0 then
    let (raised, carry) ← addBack divisor j divisor.length 0 lowered
    let left := left + carry
    return { estimate, addedBack := true, quotient := estimate - 1, left
             digits := raised.set j left.toNat }
  else
    return { estimate, addedBack := false, quotient := estimate, left
             digits := lowered.set j left.toNat }

/-- Finds `count` quotient digits from position `j` on. -/
def divideFrom (divisor : List Nat) :
    (count j : Nat) → List Nat → Option (List DivisionStep)
  | 0, _, _ => some []
  | count + 1, j, digits => do
    let step ← divideAt divisor j digits
    let rest ← divideFrom divisor count (j + 1) step.digits
    return step :: rest

/-- A magnitude times a digit. -/
def scale (factor : Nat) (a : Magnitude) : Magnitude :=
  mul a [factor]

/-- The steps of long division by a divisor of several digits, both magnitudes scaled so that the
divisor starts with at least five.  The dividend gets one more digit in front. -/
def longDivide (a b : Magnitude) : Option (List DivisionStep) := do
  let factor := 10 / (b.getLastD 0 + 1)
  let divisor := (scale factor b).reverse
  let dividend := (scale factor a).reverse
  guard (dividend.length ≤ a.length + 1)
  let digits := List.replicate (a.length + 1 - dividend.length) 0 ++ dividend
  guard (divisor.length + 1 ≤ digits.length)
  divideFrom divisor (digits.length - divisor.length) 0 digits

/-- The quotient of two magnitudes, the second not zero, rounded toward zero. -/
def div (a b : Magnitude) : Magnitude :=
  if a.compare b = .lt then []
  else
    match b with
    | [divisor] => trim (shortDivide divisor 0 a.reverse).reverse
    | _ => trim (((longDivide a b).getD []).map DivisionStep.quotient).reverse

end Magnitude
end PSystem
