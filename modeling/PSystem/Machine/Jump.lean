import PSystem.Machine.Fetch
import PSystem.Machine.Frame

/-!
# Jumps

A displacement that is not negative counts from the byte after the instruction.  A negative one
names a word below the attribute table of the current procedure, and that word gives the target as
a distance back from itself.  A case jump finds such words after its bounds and a default jump.
-/

namespace PSystem
namespace Machine

/-- Goes on at an address. -/
def jumpTo (target : Address) : Run Machine Unit :=
  modify fun m => { m with ipc := target - m.ipcBase }

/-- Takes a jump with a displacement. -/
def takeJump (displacement : Int) : Run Machine Unit := do
  if 0 ≤ displacement then advance (Word.ofSigned displacement)
  else
    let slot := (← get).jtab + Word.ofSigned displacement
    jumpTo (← reading (AttributeTable.follow · slot))

/-- When a jump is taken. -/
inductive Condition where
  | always
  /-- The popped truth value is false. -/
  | onFalse
  /-- The popped words differ. -/
  | onUnequal
  /-- The popped words are equal. -/
  | onEqual
  deriving DecidableEq, Repr

/-- Pops what a condition asks for and tells whether the jump is taken. -/
def testCondition : Condition → Run Machine Bool
  | .always => pure true
  | .onFalse => do return !(← onStore Store.popBool)
  | .onUnequal => do
    let b ← pop
    let a ← pop
    return a != b
  | .onEqual => do
    let b ← pop
    let a ← pop
    return a == b

/-- A jump instruction. -/
def jump (condition : Condition) : Run Machine Unit := do
  let displacement := signedByte (← fetchByte)
  if ← testCondition condition then takeJump displacement

/-- A jump through the word for the popped value; a value out of bounds goes on at the default
jump. -/
def caseJump : Run Machine Unit := do
  let value ← popInt
  let low := Word.signed (← fetchWord)
  let high := Word.signed (← fetchWord)
  if low ≤ value ∧ value ≤ high then
    let entry := (← get).nextAddress + 2 + Word.ofSigned (value - low) * 2
    jumpTo (← reading (AttributeTable.follow · entry))

end Machine
end PSystem
