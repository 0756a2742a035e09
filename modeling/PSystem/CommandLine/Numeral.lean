/-!
# Numbers on the command line

A number is written with decimal digits and an optional sign; there is nothing around it.
-/

namespace PSystem
namespace Numeral

/-- Whether a character is a decimal digit. -/
def isDigit (c : Char) : Bool :=
  '0' ≤ c && c ≤ '9'

/-- The value of decimal digits. -/
def value (digits : List Char) : Nat :=
  digits.foldl (fun n c => 10 * n + (c.toNat - 48)) 0

/-- The value of a list of digits that is not empty. -/
def digits? (cs : List Char) : Option Nat :=
  if !cs.isEmpty && cs.all isDigit then some (value cs) else none

/-- A natural number, which may have a plus sign. -/
def natural? : List Char → Option Nat
  | '+' :: cs => digits? cs
  | cs => digits? cs

/-- A natural number up to a limit. -/
def upTo? (limit : Nat) (cs : List Char) : Option Nat :=
  (natural? cs).filter (· ≤ limit)

/-- A number from zero up to a limit that may also have a minus sign, so that a negative zero is
one. -/
def signedUpTo? (limit : Nat) : List Char → Option Nat
  | '-' :: cs => (digits? cs).filter (· = 0)
  | cs => upTo? limit cs

end Numeral
end PSystem
