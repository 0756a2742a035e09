import PSystem.Listing

/-!
# Recorded history

A snapshot is what the viewer shows of one state: registers, the top of the evaluation stack, the
active frames and the code around the next instruction.  A history keeps the first snapshots of a
run as long as their estimated sizes stay within a limit, and nothing after the first that does not
fit.
-/

namespace PSystem

/-- The registers of the machine. -/
structure Registers where
  /-- Program stack pointer. -/
  psp : Address
  /-- Evaluation stack pointer. -/
  sp : Address
  /-- The current frame. -/
  mp : Address
  /-- The frame of the innermost base procedure. -/
  base : Address
  /-- The current segment. -/
  seg : UInt8
  /-- The attribute table of the current procedure. -/
  jtab : Address
  /-- The offset of the next instruction from the entry point. -/
  ipc : Word
  /-- The entry point of the current procedure. -/
  ipcBase : Address
  /-- Heap pointer. -/
  np : Address
  deriving DecidableEq, Repr, Inhabited

namespace Registers

/-- The address of the next instruction. -/
def nextAddress (r : Registers) : Address :=
  r.ipcBase + r.ipc

end Registers

/-- An activation as the viewer shows it. -/
structure FrameSummary where
  mp : Address
  segment : UInt8
  procedure : UInt8
  level : Int
  /-- The offset at which the activation goes on. -/
  ipc : Word
  deriving DecidableEq, Repr

/-- What is recorded of one state. -/
structure Snapshot where
  /-- The number of instructions executed before. -/
  instruction : Nat
  registers : Registers
  depth : Nat
  /-- The top of the evaluation stack, top word first. -/
  stack : List Word
  /-- The active frames, innermost first. -/
  frames : List FrameSummary
  /-- The code around the next instruction. -/
  code : List (Address × UInt8 × String)
  /-- The length of the console transcript. -/
  consoleLength : Nat
  halted : Bool
  deriving DecidableEq, Repr

namespace Snapshot

/-- The bytes that a snapshot is counted with. -/
def estimatedSize (s : Snapshot) : Nat :=
  120 + 2 * s.stack.length + 8 * s.frames.length
    + s.code.foldr (fun (_, _, text) size => 48 + text.utf8ByteSize + size) 0

end Snapshot

/-- The snapshots of the beginning of a run. -/
structure History where
  snapshots : Array Snapshot := #[]
  /-- The largest sum of estimated sizes. -/
  limit : Nat
  /-- The sum of the estimated sizes so far. -/
  used : Nat := 0
  /-- Whether a snapshot did not fit, so that recording has ended. -/
  full : Bool := false

namespace History

/-- Adds a snapshot, unless recording has ended or ends with it. -/
def record (h : History) (s : Snapshot) : History :=
  if h.full then h
  else if h.limit < h.used + s.estimatedSize then { h with full := true }
  else { h with snapshots := h.snapshots.push s, used := h.used + s.estimatedSize }

/-- The snapshot at a position. -/
def get? (h : History) (i : Nat) : Option Snapshot :=
  h.snapshots[i]?

/-- The number of snapshots. -/
def length (h : History) : Nat :=
  h.snapshots.size

end History
end PSystem
