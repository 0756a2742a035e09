import PSystem.Machine.State

/-!
# Frames and attribute tables

A frame lies in the program stack: a header of seven words, then parameters and data.  Words of a
frame are numbered from 1 after the header.  The attribute table of a procedure gives its number,
lexical level and sizes, and the distances back to its entry and exit code.
-/

namespace PSystem
namespace Frame

/-! ## Header slots, as offsets from the frame -/

/-- The program stack pointer before the call. -/
def savedPsp : Word := 0

/-- The frame of the lexically enclosing procedure. -/
def staticLink : Word := 2

/-- The frame of the caller. -/
def dynamicLink : Word := 4

/-- The caller's attribute table. -/
def savedJtab : Word := 6

/-- The caller's segment. -/
def savedSeg : Word := 8

/-- Where the caller goes on, as an offset from its entry point. -/
def savedIpc : Word := 10

/-- The evaluation stack pointer to return to. -/
def savedSp : Word := 12

/-- The bytes of the header. -/
def headerSize : Word := 14

/-- The address of word `n` of a frame. -/
def word (frame : Address) (n : Word) : Address :=
  frame + headerSize + (n - 1) * 2

/-- The frame reached over `n` static links. -/
def outward (m : Memory) (frame : Address) : Nat → Except Fault Address
  | 0 => .ok frame
  | n + 1 => do
    let next ← m.readWord (frame + staticLink)
    outward m next n

end Frame

namespace AttributeTable

/-- The address that a word gives as a distance back from itself. -/
def follow (m : Memory) (slot : Address) : Except Fault Address := do
  let back ← m.readWord slot
  return slot - back

/-- The procedure number; 0 for a procedure bound to the host. -/
def number (m : Memory) (jtab : Address) : Except Fault UInt8 :=
  m.readByte jtab

/-- The lexical level. -/
def level (m : Memory) (jtab : Address) : Except Fault Int := do
  return signedByte (← m.readByte (jtab + 1))

/-- The address of the first instruction. -/
def entry (m : Memory) (jtab : Address) : Except Fault Address :=
  follow m (jtab - 2)

/-- The address of the exit code. -/
def exit (m : Memory) (jtab : Address) : Except Fault Address :=
  follow m (jtab - 4)

/-- The bytes of the parameters. -/
def parameterBytes (m : Memory) (jtab : Address) : Except Fault Word :=
  m.readWord (jtab - 6)

/-- The bytes of the local data. -/
def dataBytes (m : Memory) (jtab : Address) : Except Fault Word :=
  m.readWord (jtab - 8)

end AttributeTable

namespace Machine

/-! ## The call chain -/

/-- The most frames that a call chain lists. -/
def maxChain : Nat := 64

/-- At most `n` frames from the given activation outward, read without checks. -/
def chainFrom (m : Memory) : (n : Nat) → (mp jtab : Address) → (seg : UInt8) → (ipc : Word) →
    List FrameSummary
  | 0, _, _, _, _ => []
  | n + 1, mp, jtab, seg, ipc =>
    if mp = 0 ∨ jtab = 0 then []
    else
      { mp := mp, segment := seg, procedure := m.peekByte jtab
        level := signedByte (m.peekByte (jtab + 1)), ipc := ipc }
        :: chainFrom m n (m.peekWord (mp + Frame.dynamicLink)) (m.peekWord (mp + Frame.savedJtab))
          (m.peekWord (mp + Frame.savedSeg)).toUInt8 (m.peekWord (mp + Frame.savedIpc))

/-- The active frames, innermost first. -/
def callChain (m : Machine) : List FrameSummary :=
  chainFrom m.memory (min (max m.depth 1) maxChain) m.mp m.jtab m.seg m.ipc

/-! ## Recording -/

/-- The snapshot of a state. -/
def snapshot (m : Machine) : Snapshot where
  instruction := m.instructions
  registers := m.registers
  depth := m.depth
  stack := m.store.words snapshotWords
  frames := m.callChain
  code := (Listing.window m.memory m.ipcBase m.nextAddress snapshotLines).map fun line =>
    (line.address, line.opcode, line.text)
  consoleLength := m.console.output.size
  halted := m.halted

/-- Adds the state to the history, if one is kept. -/
def record (m : Machine) : Machine :=
  match m.history with
  | none => m
  | some h => if h.full then m else { m with history := some (h.record m.snapshot) }

end Machine
end PSystem
