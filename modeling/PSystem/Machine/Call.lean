import PSystem.Blank
import PSystem.Machine.Frame
import PSystem.Machine.Overlay

/-!
# Calls and returns

A call carves a frame out of the program stack and moves the parameters into it byte by byte, so
that the word pushed last becomes word 1 of the frame.  A base procedure, of lexical level 0 or
below, also pushes the base register before the stack pointer is saved, and its return pops it.
-/

namespace PSystem
namespace Machine

/-! ## Calls -/

/-- The static link of a frame for a procedure of level `callee`. -/
def staticLinkFor (m : Machine) (callee : Int) : Except Fault Address := do
  if callee ≤ 1 then return m.base
  let caller ← if m.jtab = 0 then pure 0 else AttributeTable.level m.memory m.jtab
  let hops := caller - callee + 1
  if hops < 0 then throw (.system (.levelGap caller callee))
  Frame.outward m.memory m.mp hops.toNat

/-- Runs a procedure that is bound to the host. -/
def callBound (segment procedure : UInt8) : Run Machine Unit := do
  let m ← get
  let s ← orFault (m.segments.require segment)
  let name := String.ofList ((Blank.trim s.name.toList).map Char.toUpper)
  match m.bound.find? fun b => b.segment == name && b.procedure == procedure with
  | some b => onStore b.run
  | none => throw (.unimplemented (.boundProcedure procedure name))

/-- How a call was carried out. -/
inductive CallKind where
  /-- A frame was made and execution goes on in the procedure. -/
  | entered
  /-- The host ran the procedure to its end. -/
  | finished
  deriving DecidableEq, Repr

/-- The address of a frame of `size` bytes between the heap and the program stack. -/
def carveFrame (m : Machine) (size : Nat) : Except Fault Address :=
  if size ≤ m.psp.toNat ∧ m.heap.np.toNat ≤ m.psp.toNat - size then
    .ok (UInt16.ofNat (m.psp.toNat - size))
  else .error .stackOverflow

/-- Moves parameter bytes from the evaluation stack into a frame. -/
def moveParameters (segment procedure : UInt8) (frame : Address) (bytes : Word) :
    Run Machine Unit := do
  let m ← get
  if m.store.depth * 2 < bytes.toNat then
    throw (.system (.missingParameters procedure segment bytes))
  let parameters ← reading (·.readBytes m.store.sp bytes.toNat)
  onMemory (Memory.writeBytes (Frame.word frame 1) parameters)
  onStore (Store.release bytes)

/-- Writes the header of a frame from the registers of the caller. -/
def writeHeader (frame staticLink : Address) : Run Machine Unit := do
  let m ← get
  onMemory do
    Memory.writeWord (frame + Frame.savedPsp) m.psp
    Memory.writeWord (frame + Frame.staticLink) staticLink
    Memory.writeWord (frame + Frame.dynamicLink) m.mp
    Memory.writeWord (frame + Frame.savedJtab) m.jtab
    Memory.writeWord (frame + Frame.savedSeg) m.seg.toUInt16
    Memory.writeWord (frame + Frame.savedIpc) m.ipc
    Memory.writeWord (frame + Frame.savedSp) m.store.sp

/-- Makes a frame for a procedure with code and enters it. -/
def enter (segment procedure : UInt8) (jtab : Address) : Run Machine Unit := do
  let level ← reading (AttributeTable.level · jtab)
  let parameterBytes ← reading (AttributeTable.parameterBytes · jtab)
  let dataBytes ← reading (AttributeTable.dataBytes · jtab)
  let entry ← reading (AttributeTable.entry · jtab)
  let staticLink ← orFault ((← get).staticLinkFor level)
  let size := Frame.headerSize.toNat + parameterBytes.toNat + dataBytes.toNat
  let frame ← orFault ((← get).carveFrame size)
  moveParameters segment procedure frame parameterBytes
  if level ≤ 0 then push (← get).base
  writeHeader frame staticLink
  if level ≤ 0 then
    modify fun m => { m with base := frame }
    modifySegment segment fun s => { s with dataBase := frame }
  modify fun m =>
    { m with
      psp := frame, mp := frame, seg := segment, jtab := jtab, ipcBase := entry, ipc := 0
      depth := m.depth + 1 }
  let m ← get
  if m.heap.collides m.psp then throw .stackOverflow

/-- Calls a procedure of a resident segment. -/
def call (segment procedure : UInt8) : Run Machine CallKind := do
  let m ← get
  let jtab ← orFault (m.segments.jtab m.memory segment procedure)
  let number ← reading (AttributeTable.number · jtab)
  if number = 0 then
    callBound segment procedure
    return .finished
  else
    enter segment procedure jtab
    return .entered

/-- Gives up the use of a segment that an external call made. -/
def leaveSegment (segment : UInt8) : Run Machine Unit := do
  unloadSegment segment
  reclaim

/-- Calls a procedure of any segment, which is brought in for the duration of the call. -/
def callExternal (segment procedure : UInt8) : Run Machine Unit := do
  let loaded := segment ≠ (← get).seg ∧ segment ≠ 0
  if loaded then loadSegment segment
  match ← attempt (call segment procedure) with
  | .ok .entered => pure ()
  | .ok .finished => if loaded then leaveSegment segment
  | .error e =>
    if loaded then leaveSegment segment
    throw e

/-! ## Returns -/

/-- What a frame's header says about the caller. -/
structure Caller where
  mp : Address
  jtab : Address
  seg : UInt8
  ipc : Word
  sp : Address
  deriving DecidableEq, Repr

/-- Reads the caller from a frame's header. -/
def readCaller (m : Memory) (frame : Address) : Except Fault Caller := do
  let mp ← m.readWord (frame + Frame.dynamicLink)
  let jtab ← m.readWord (frame + Frame.savedJtab)
  let seg ← m.readWord (frame + Frame.savedSeg)
  let ipc ← m.readWord (frame + Frame.savedIpc)
  let sp ← m.readWord (frame + Frame.savedSp)
  return { mp, jtab, seg := seg.toUInt8, ipc, sp }

/-- Goes back to a caller, letting go of the segment that is left. -/
def resume (caller : Caller) : Run Machine Unit := do
  let left := (← get).seg
  onStore (Store.setPointer caller.sp)
  modify fun m => { m with mp := caller.mp, jtab := caller.jtab, seg := caller.seg }
  let entry ← if caller.jtab = 0 then pure 0 else reading (AttributeTable.entry · caller.jtab)
  modify fun m => { m with ipcBase := entry, ipc := caller.ipc, depth := m.depth - 1 }
  if left ≠ caller.seg ∧ left ≠ 0 then unloadSegment left
  reclaim

/-- Pops the base register, which has to lie in the program stack or be 0 at the outermost
level. -/
def restoreBase : Exec Unit := do
  let base ← pop
  let m ← get
  let valid := if base = 0 then m.depth = 0 else Heap.start ≤ base ∧ base < programTop
  if valid then set { m with base := base } else throw (.panic (.corruptBase base))

/-- Returns from the current procedure, with the first `results` words of its frame as results. -/
def returnFrom (results : UInt8) (baseProcedure : Bool) : Exec Unit := do
  let frame := (← get).mp
  let caller ← reading (readCaller · frame)
  let values ← reading fun m =>
    (List.range results.toNat).mapM fun i => m.readWord (Frame.word frame (UInt16.ofNat (i + 1)))
  resume caller
  if baseProcedure then restoreBase
  onStore (Store.pushBlock values)
  modify fun m => if m.depth = 0 then { m with halted := true } else m

/-! ## EXIT -/

/-- Whether an activation is of the procedure that EXIT names. -/
def isTarget (m : Memory) (segment procedure seg : UInt8) (jtab : Address) : Except Fault Bool :=
  if seg = segment then return (← m.readByte jtab) == procedure else return false

/-- What EXIT finds in the header of a frame: the attribute table of the caller, and the caller's frame
unless the caller is of the procedure that EXIT names. -/
def exitLook (m : Memory) (segment procedure : UInt8) (mp : Address) :
    Except Fault (Address × Option Address) := do
  let jtab ← m.readWord (mp + Frame.savedJtab)
  let seg ← m.readWord (mp + Frame.savedSeg)
  if jtab = 0 then throw (.exitFromUncalled segment procedure)
  if ← isTarget m segment procedure seg.toUInt8 jtab then return (jtab, none)
  let next ← m.readWord (mp + Frame.dynamicLink)
  if next = 0 then throw (.exitFromUncalled segment procedure)
  return (jtab, some next)

/-- No chain of different frames is longer than this. -/
def longestChain : Nat := 0x10001

/-- The frames, with the attribute tables of their callers, from `mp` outward up to the activation
that EXIT names, the outermost first. -/
def exitFrames (m : Memory) (segment procedure : UInt8) :
    (fuel : Nat) → (mp : Address) → List (Address × Address) →
    Except Stop (List (Address × Address))
  | 0, _, _ => .error .endless
  | fuel + 1, mp, found =>
    match exitLook m segment procedure mp with
    | .error e => .error (.trap e)
    | .ok (jtab, none) => .ok ((mp, jtab) :: found)
    | .ok (jtab, some next) => exitFrames m segment procedure fuel next ((mp, jtab) :: found)

/-- Makes the callers of frames go on at their exit code. -/
def redirect : List (Address × Address) → Run Machine Unit
  | [] => pure ()
  | (frame, jtab) :: rest => do
    let exit ← reading (AttributeTable.exit · jtab)
    let entry ← reading (AttributeTable.entry · jtab)
    onMemory (Memory.writeWord (frame + Frame.savedIpc) (exit - entry))
    redirect rest

/-- Leaves all activations up to the innermost one of a procedure: each goes on at its own exit
code, so that the ordinary returns which follow unwind them. -/
def exitProcedure (segment procedure : UInt8) : Exec Unit := do
  let m ← get
  let here ← reading (isTarget · segment procedure m.seg m.jtab)
  let frames ←
    if here then pure []
    else
      match exitFrames m.memory segment procedure longestChain m.mp [] with
      | .ok frames => pure frames.reverse
      | .error stop => throw stop
  let exit ← reading (AttributeTable.exit · m.jtab)
  modify fun m => { m with ipc := exit - m.ipcBase }
  redirect frames

end Machine
end PSystem
