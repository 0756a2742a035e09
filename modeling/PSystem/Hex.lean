/-!
# Hexadecimal text

Addresses in messages, listings and panes are written with a fixed number of hexadecimal digits.
-/

namespace PSystem
namespace Hex

/-- The lower-case digit for a value below sixteen. -/
def digit (n : Nat) : Char :=
  if n < 10 then Char.ofNat (48 + n) else Char.ofNat (87 + n)

/-- The lowest `width` hexadecimal digits of `n`, most significant first. -/
def digits : Nat → Nat → List Char
  | 0, _ => []
  | width + 1, n => digits width (n / 16) ++ [digit (n % 16)]

/-- Exactly `width` lower-case hexadecimal digits. -/
def pad (width n : Nat) : String :=
  String.ofList (digits width n)

/-- Exactly `width` upper-case hexadecimal digits. -/
def padUpper (width n : Nat) : String :=
  String.ofList ((digits width n).map Char.toUpper)

end Hex
end PSystem
