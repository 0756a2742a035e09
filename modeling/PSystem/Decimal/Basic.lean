import PSystem.Fault
import PSystem.Decimal.Magnitude

/-!
# Long integers

A long integer has a sign and at most 36 decimal digits.  Every operation gives a canonical value:
no leading zero and no negative zero, so that equal numbers have equal representations.
-/

namespace PSystem

/-- A signed decimal integer. -/
structure Decimal where
  negative : Bool
  digits : Magnitude
  deriving DecidableEq, Repr

namespace Decimal

/-- The largest number of digits. -/
def maxDigits : Nat := 36

/-- Zero. -/
def zero : Decimal := ⟨false, []⟩

instance : Inhabited Decimal := ⟨zero⟩

/-- The integer that a decimal stands for. -/
def toInt (a : Decimal) : Int :=
  if a.negative then -(a.digits.value : Int) else a.digits.value

/-- Whether the decimal is zero. -/
def isZero (a : Decimal) : Bool :=
  a.digits.isEmpty

/-- The canonical decimal with a sign and digits, unless there are too many of them. -/
def ofParts (negative : Bool) (digits : Magnitude) : Except Fault Decimal :=
  let digits := digits.trim
  if maxDigits < digits.length then .error .integerOverflow
  else .ok ⟨negative && !digits.isEmpty, digits⟩

/-! ## Machine integers -/

/-- The decimal of a machine integer, which has at most five digits. -/
def ofInt (v : Int) : Decimal :=
  ⟨v < 0, (Magnitude.ofNat 5 v.natAbs).trim⟩

/-- The machine integer of a decimal, if it fits in a word. -/
def toMachineInt (a : Decimal) : Except Fault Int :=
  if 5 < a.digits.length then .error .integerOverflow
  else if -32768 ≤ a.toInt ∧ a.toInt ≤ 32767 then .ok a.toInt
  else .error .integerOverflow

/-! ## Arithmetic -/

/-- The opposite of a decimal. -/
def negate (a : Decimal) : Decimal :=
  ⟨!a.negative && !a.isZero, a.digits⟩

/-- The sum. -/
def add (a b : Decimal) : Except Fault Decimal :=
  if a.negative = b.negative then ofParts a.negative (a.digits.add b.digits)
  else
    match a.digits.compare b.digits with
    | .lt => ofParts b.negative (b.digits.sub a.digits)
    | _ => ofParts a.negative (a.digits.sub b.digits)

/-- The difference. -/
def subtract (a b : Decimal) : Except Fault Decimal :=
  a.add b.negate

/-- The product. -/
def multiply (a b : Decimal) : Except Fault Decimal :=
  ofParts (a.negative != b.negative) (a.digits.mul b.digits)

/-- The quotient, rounded toward zero. -/
def divide (a b : Decimal) : Except Fault Decimal :=
  if b.isZero then .error .divideByZero
  else ofParts (a.negative != b.negative) (a.digits.div b.digits)

/-- The order of the integers that two decimals stand for. -/
def compare (a b : Decimal) : Ordering :=
  match a.negative, b.negative with
  | false, true => .gt
  | true, false => .lt
  | false, false => a.digits.compare b.digits
  | true, true => b.digits.compare a.digits

/-! ## Text -/

/-- The value of an ASCII digit. -/
def digitValue? (c : Char) : Option Nat :=
  if '0' ≤ c ∧ c ≤ '9' then some (c.toNat - 48) else none

/-- Reads an optional minus sign and one or more ASCII digits. -/
def parse? (text : String) : Option Decimal :=
  let (negative, body) :=
    match text.toList with
    | '-' :: rest => (true, rest)
    | all => (false, all)
  if body.isEmpty then none
  else do
    let digits ← body.mapM digitValue?
    (ofParts negative digits.reverse).toOption

/-- The decimal as a sign and digits. -/
def text (a : Decimal) : String :=
  if a.isZero then "0"
  else
    let digits := a.digits.reverse.map fun d => Char.ofNat (48 + d)
    String.ofList (if a.negative then '-' :: digits else digits)

end Decimal
end PSystem
