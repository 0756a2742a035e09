import PSystem.Word

/-!
# Single-precision reals

A real occupies two words, the low half of its 32-bit pattern first.  A real is kept as its bit
pattern, so that loading, storing and changing the sign are exact for every pattern, and rounding
enters only where two reals are combined.
-/

namespace PSystem

/-- A single-precision real, given by its bit pattern. -/
structure Single where
  bits : UInt32
  deriving DecidableEq, Repr, Inhabited

namespace Single

/-! ## Words -/

/-- The half that lies at the lower address. -/
def low (r : Single) : Word :=
  r.bits.toUInt16

/-- The half that lies at the higher address: sign, exponent and leading digits. -/
def high (r : Single) : Word :=
  (r.bits >>> 16).toUInt16

/-- The real made of two halves. -/
def ofWords (low high : Word) : Single :=
  ⟨(high.toUInt32 <<< 16) ||| low.toUInt32⟩

/-! ## Sign -/

/-- The magnitude: the sign bit is cleared. -/
def abs (r : Single) : Single :=
  ⟨r.bits &&& 0x7FFFFFFF⟩

/-- The opposite: the sign bit is flipped. -/
def neg (r : Single) : Single :=
  ⟨r.bits ^^^ 0x80000000⟩

/-! ## Rounded arithmetic -/

/-- The number that the pattern stands for. -/
def value (r : Single) : Float32 :=
  Float32.ofBits r.bits

/-- The pattern of a number. -/
def ofValue (x : Float32) : Single :=
  ⟨x.toBits⟩

/-- The nearest real to an integer. -/
def ofInt (v : Int) : Single :=
  ofValue (Float32.ofInt v)

/-- Rounded sum. -/
def add (a b : Single) : Single :=
  ofValue (a.value + b.value)

/-- Rounded difference. -/
def sub (a b : Single) : Single :=
  ofValue (a.value - b.value)

/-- Rounded product. -/
def mul (a b : Single) : Single :=
  ofValue (a.value * b.value)

/-- Rounded quotient. -/
def div (a b : Single) : Single :=
  ofValue (a.value / b.value)

/-- Whether the real is zero of either sign. -/
def isZero (r : Single) : Bool :=
  r.bits &&& 0x7FFFFFFF == 0

/-- Two reals closer than this are equal: `2 ^ -23`. -/
def tolerance : Single :=
  ⟨0x34000000⟩

/-- The order of two reals, where a difference below `tolerance` counts as none. -/
def compare (a b : Single) : Ordering :=
  if (a.sub b).abs.value < tolerance.value then .eq
  else if a.value < b.value then .lt
  else if a.value == b.value then .eq
  else if b.value < a.value then .gt
  else .lt

end Single
end PSystem
