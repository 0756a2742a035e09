import PSystem.Machine.State

/-!
# Fetching operands

Operands are read from the code at the instruction pointer, which moves past each byte only after
it was read.
-/

namespace PSystem
namespace Machine

/-- Moves the instruction pointer forward. -/
def advance (n : Word) : Run Machine Unit :=
  modify fun m => { m with ipc := m.ipc + n }

/-- Fetches a byte. -/
def fetchByte : Run Machine UInt8 := do
  let b ← reading (·.readByte (← get).nextAddress)
  advance 1
  return b

/-- Fetches an operand of one or two bytes. -/
def fetchBig : Run Machine Word := do
  let first ← fetchByte
  if first < 0x80 then return first.toUInt16
  let second ← fetchByte
  return ((first.toUInt16 &&& 0x7F) <<< 8) ||| second.toUInt16

/-- Moves the instruction pointer to an even address. -/
def alignPointer : Run Machine Unit :=
  modify fun m => if m.nextAddress % 2 == 1 then { m with ipc := m.ipc + 1 } else m

/-- Fetches a word at the next even address. -/
def fetchWord : Run Machine Word := do
  alignPointer
  let w ← reading (·.readWord (← get).nextAddress)
  advance 2
  return w

end Machine
end PSystem
