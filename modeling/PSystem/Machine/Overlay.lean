import PSystem.Machine.State

/-!
# Loading and releasing segments

A segment is loaded right below the program stack pointer when its use count rises from zero, and
its space is given back when the count falls to zero.  Until then it stays where it is, so the
program stack pointer never rises above `residentFloor`.

The extension of segment 0 was linked to lie right below segment 0.  Wherever else it is loaded,
the dictionary words of the procedures in it are corrected by the distance.
-/

namespace PSystem
namespace Machine

/-- Changes the table entry of a segment. -/
def modifySegment (number : UInt8) (f : Segment → Segment) : Run Machine Unit :=
  modify fun m => { m with segments := m.segments.modify number f }

/-- The address at which `footprint` bytes fit between the heap and the program stack. -/
def carve (m : Machine) (footprint : Word) : Except Fault Address :=
  if footprint ≤ m.psp ∧ m.heap.np ≤ m.psp - footprint then .ok (m.psp - footprint)
  else .error .stackOverflow

/-- The bytes of a segment on disk. -/
def fetchCode (m : Machine) (unit block size : Word) : Except Fault Bytes :=
  match m.storage.readBlocks unit block size.toNat with
  | .ok bytes => .ok bytes
  | .error e => .error (.systemIo e.ioResult)

/-- Sets or clears the protection of cells. -/
def protect (start stop : Address) (on : Bool) : Run Machine Unit :=
  onMemory (modify (·.protect start stop on))

/-- Brings a segment that is not resident into memory. -/
def bringIn (s : Segment) : Run Machine Unit := do
  let m ← get
  let base ← orFault (m.carve s.footprint)
  let bytes ← orFault (m.fetchCode s.unit s.block s.size)
  modifySegment s.number fun s => { s with useCount := 1 }
  onMemory (Memory.writeBytes base bytes)
  protect base (base + s.footprint) true
  modifySegment s.number fun s => { s with codeBase := base }
  modify fun m => { m with psp := base }

/-- Counts one more use of a segment, and loads it on the first. -/
def loadSegment (number : UInt8) : Run Machine Unit := do
  let s ← orFault ((← get).segments.require number)
  if s.isResident then
    modifySegment number fun s => { s with useCount := s.useCount + 1 }
  else bringIn s

/-- Counts one use of a segment less, and gives up the protection of its code after the last. -/
def unloadSegment (number : UInt8) : Run Machine Unit := do
  let s ← orFault ((← get).segments.require number)
  if !s.isResident then throw (.system (.releaseOfAbsent number))
  modifySegment number fun s => { s with useCount := s.useCount - 1 }
  if s.useCount = 1 then protect s.codeBase (s.codeBase + s.footprint) false

/-- The lowest address that still holds resident code. -/
def residentFloor (m : Machine) : Address :=
  m.segments.residentFloor programTop

/-- Moves the program stack pointer up to the lowest live frame or resident segment. -/
def reclaim : Run Machine Unit :=
  modify fun m =>
    { m with psp := min (if m.mp = 0 then programTop else m.mp) m.residentFloor }

/-! ## The extension of segment 0 -/

/-- Corrects the dictionary words of `n` procedures, from the one at `slot` downward, that point
below `resident`. -/
def relocate (resident : Address) (delta : Word) : (n : Nat) → (slot : Address) → Run Machine Unit
  | 0, _ => pure ()
  | n + 1, slot => do
    let offset ← reading (·.readWord slot)
    if slot - offset < resident then
      onMemory (Memory.writeWord slot (offset + delta))
    relocate resident delta n (slot - 2)

/-- Loads the extension of segment 0 unless it is loaded, and gives its address. -/
def loadExtension : Run Machine Address := do
  let m ← get
  let count ← orFault (m.segments.procedureCount m.memory 0)
  let s ← orFault (m.segments.require 0)
  let firstSlot ← orFault (s.dictionarySlot count)
  match s.extension with
  | none => throw (.noSuchSegment 0)
  | some e =>
    match e.base with
    | some base => return base
    | none =>
      let footprint := evenSize e.size
      let base ← orFault (m.carve footprint)
      let bytes ← orFault (m.fetchCode e.unit e.block e.size)
      onMemory (Memory.writeBytes base bytes)
      protect base (base + footprint) true
      protect firstSlot s.topWord false
      relocate s.codeBase (s.codeBase - footprint - base) count.toNat (s.topWord - 2)
      protect firstSlot s.topWord true
      modifySegment 0 fun s => { s with extension := some { e with base := some base } }
      modify fun m => { m with psp := base }
      return base

end Machine
end PSystem
