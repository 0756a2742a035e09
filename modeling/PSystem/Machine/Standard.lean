import PSystem.Decimal.Operation
import PSystem.Machine.Call
import PSystem.Machine.Operators
import PSystem.StandardProcedure

/-!
# The standard procedures at work

Standard procedures take their arguments from the evaluation stack, the last one on top.  Unit
transfers do not fault when they fail: they leave a result that the program can ask for.
-/

namespace PSystem
namespace Single

/-! ## Real functions -/

/-- The nearest integer, a half away from zero. -/
def round (r : Single) : Float32 :=
  r.value.round

/-- The integer part. -/
def truncate (r : Single) : Float32 :=
  if r.value < 0 then r.value.ceil else r.value.floor

/-- An integral real as a machine integer, if it fits in a word. -/
def toMachineInt (x : Float32) : Except Fault Int :=
  if -32768 ≤ x ∧ x ≤ 32767 then .ok x.toInt16.toInt else .error .integerOverflow

/-- A real function that is defined everywhere. -/
def apply (f : Float32 → Float32) (r : Single) : Except Fault Single :=
  .ok (ofValue (f r.value))

/-- A logarithm, for a positive argument. -/
def applyPositive (f : Float32 → Float32) (r : Single) : Except Fault Single :=
  if r.value ≤ 0 then .error .floatingPoint else apply f r

/-- The square root, for an argument that is not negative. -/
def squareRoot (r : Single) : Except Fault Single :=
  if r.value < 0 then .error .floatingPoint else apply Float32.sqrt r

/-- A power by repeated squaring, the exponent given by its bits from the lowest on. -/
def powerBits (square result : Float32) : List Bool → Float32
  | [] => result
  | b :: bits => powerBits (square * square) (if b then result * square else result) bits

/-- Ten to a power from 0 to 37. -/
def powerOfTen (exponent : Nat) : Single :=
  ofValue (powerBits 10 1 ((List.range 6).map exponent.testBit))

end Single

namespace Machine

/-! ## Memory -/

/-- Takes a block from the heap and stores its address in a pointer. -/
def newBlock : Run Machine Unit := do
  let words ← pop
  let pointer ← pop
  let m ← get
  let (address, heap) ← orFault (m.heap.allocate words m.psp)
  modify fun m => { m with heap := heap }
  onMemory (Memory.writeWord pointer address)

/-- Stores the heap pointer. -/
def markHeap : Run Machine Unit := do
  let a ← pop
  onMemory (Memory.writeWord a (← get).heap.np)

/-- Puts a stored heap pointer back. -/
def releaseHeap : Run Machine Unit := do
  let a ← pop
  let mark ← reading (·.readWord a)
  let heap ← orFault (Heap.release mark)
  modify fun m => { m with heap := heap }

/-- Copies one byte after another at the given offsets from two addresses. -/
def copyBytes (source destination : Address) : List Word → Run Machine Unit
  | [] => pure ()
  | offset :: rest => do
    let b ← reading (·.readByte (source + offset))
    onMemory (Memory.writeByte (destination + offset) b)
    copyBytes source destination rest

/-- Copies bytes, from the low end up or from the high end down. -/
def moveBytes (fromRight : Bool) : Run Machine Unit := do
  let count ← popInt
  let destination ← pop
  let source ← pop
  let offsets := (List.range count.toNat).map UInt16.ofNat
  copyBytes source destination (if fromRight then offsets.reverse else offsets)

/-- Fills bytes with a character. -/
def fillBytes : Run Machine Unit := do
  let character := (← pop).toUInt8
  let count ← popInt
  let destination ← pop
  onMemory (Memory.writeBytes destination (List.replicate count.toNat character))

/-- The first of the given offsets whose byte passes a test, or `limit`. -/
def scanOffsets (m : Memory) (a : Address) (test : UInt8 → Bool) (limit : Int) :
    List Int → Except Fault Int
  | [] => .ok limit
  | offset :: rest => do
    let b ← m.readByte (a + Word.ofSigned offset)
    if test b then return offset
    scanOffsets m a test limit rest

/-- The offsets from 0 up or down to a limit, without it. -/
def offsetsBefore (limit : Int) : List Int :=
  (List.range limit.natAbs).map fun (i : Nat) => if limit < 0 then -(i : Int) else (i : Int)

/-- Searches upward or downward for a byte that equals a character or differs from it. -/
def scanBytes : Run Machine Unit := do
  let _mask ← pop
  let a ← pop
  let character := (← pop).toUInt8
  let kind ← pop
  let limit ← popInt
  let test := fun b => if kind = 0 then b == character else b != character
  let offset ← reading (scanOffsets · a test limit (offsetsBefore limit))
  pushInt offset

/-- Stores the clock in two words. -/
def storeTime : Run Machine Unit := do
  let low ← pop
  let high ← pop
  let ticks := (← get).host.ticks
  onMemory do
    Memory.writeWord high (ticks >>> 16).toUInt16
    Memory.writeWord low ticks.toUInt16

/-! ## Reals -/

/-- Replaces a real by an integer near it. -/
def roundReal (f : Single → Float32) : Run Machine Unit := do
  let r ← popReal
  pushInt (← orFault (Single.toMachineInt (f r)))

/-- Replaces a real by a function of it. -/
def realFunction (f : Single → Except Fault Single) : Run Machine Unit := do
  let r ← popReal
  pushReal (← orFault (f r))

/-- Pushes a power of ten. -/
def pushPowerOfTen : Run Machine Unit := do
  let exponent ← popInt
  if exponent < 0 ∨ 37 < exponent then throw (.invalidIndex exponent)
  pushReal (Single.powerOfTen exponent.toNat)

/-! ## Units -/

/-- Sets the result of a unit transfer, and shows it in the communication block. -/
def setIoResult (result : Word) : Run Machine Unit := do
  modify fun m => { m with ioResult := result }
  onMemory (Syscom.writeIoResult result)

/-- Writes to the console. -/
def writeConsole (bytes : Bytes) : Run Machine Unit :=
  modify fun m => { m with console := m.console.write bytes }

/-- Takes a byte from the console. -/
def readConsole : Run Machine (Option UInt8) := do
  let m ← get
  let (byte, console) := m.console.read
  set { m with console := console }
  return byte

/-- Reads `n` bytes from a console unit to an address, and gives the result number; the input of
the first unit is echoed. -/
def readConsoleTo (unit : Word) (a : Address) : Nat → Run Machine Word
  | 0 => return 0
  | n + 1 => do
    match ← readConsole with
    | none => return 64
    | some b =>
      if unit = Storage.consoleUnit then writeConsole [b]
      onMemory (Memory.writeByte a b)
      readConsoleTo unit (a + 1) n

/-- The direction of a unit transfer. -/
inductive Transfer where
  | read
  | write
  deriving DecidableEq, Repr

/-- A transfer between a disk and memory, and its result number. -/
def diskTransfer (direction : Transfer) (unit block : Word) (a : Address) (length : Nat) :
    Run Machine Word := do
  match direction with
  | .read =>
    match (← get).storage.readBlocks unit block length with
    | .ok bytes =>
      onMemory (Memory.writeBytes a bytes)
      return 0
    | .error e => return e.ioResult
  | .write =>
    let bytes ← reading (·.readBytes a length)
    let m ← get
    match Storage.writeBlocks unit block bytes m.storage with
    | .ok () storage =>
      set { m with storage := storage }
      return 0
    | .error e storage =>
      set { m with storage := storage }
      return e.ioResult

/-- A transfer between the console and memory, and its result number. -/
def consoleTransfer (direction : Transfer) (unit : Word) (a : Address) (length : Nat) :
    Run Machine Word := do
  match direction with
  | .read => readConsoleTo unit a length
  | .write =>
    let bytes ← reading (·.readBytes a length)
    writeConsole bytes
    return 0

/-- A unit transfer: the arguments are unit, address, byte offset, length, block and a control
word. -/
def unitTransfer (direction : Transfer) : Run Machine Unit := do
  let _control ← pop
  let block ← pop
  let length ← pop
  let offset ← pop
  let address ← pop
  let unit ← pop
  let result ←
    if Storage.isConsole unit then
      consoleTransfer direction unit (address + offset) length.toNat
    else diskTransfer direction unit block (address + offset) length.toNat
  setIoResult result

/-- The state of a unit: waiting input of a console, or the blocks of a disk. -/
def statusOf (m : Machine) (unit : Word) : Except Word Word :=
  if Storage.isConsole unit then .ok (Word.ofTruth m.console.hasInput)
  else if Storage.maxUnit < unit then .error 2
  else
    match m.storage.disk? unit with
    | some disk => .ok (UInt16.ofNat (min disk.blocks 65535))
    | none => .error 9

/-- Stores the state of a unit in the second of two words. -/
def unitStatus : Run Machine Unit := do
  let _control ← pop
  let a ← pop
  let unit ← pop
  match (← get).statusOf unit with
  | .ok w =>
    onMemory (Memory.writeWord a 0)
    onMemory (Memory.writeWord (a + 2) w)
    setIoResult 0
  | .error result => setIoResult result

/-- Resets a unit. -/
def clearUnit : Run Machine Unit := do
  let unit ← pop
  let m ← get
  setIoResult
    (if Storage.maxUnit < unit then 2
    else if Storage.isConsole unit || m.storage.isMounted unit then 0
    else 9)

/-- Faults if a result is pending. -/
def checkIo : Run Machine Unit := do
  let result := (← get).ioResult
  if result ≠ 0 then throw (.userIo result)

/-! ## Segments -/

/-- Lets a segment go that the program brought in; segment 0 always stays. -/
def releaseSegment : Run Machine Unit := do
  let segment := (← pop).toUInt8
  if segment ≠ 0 then leaveSegment segment

/-! ## All procedures -/

/-- Leaves the procedure that the two top words name. -/
def exitNamed : Exec Unit := do
  let procedure ← pop
  let segment ← pop
  exitProcedure segment.toUInt8 procedure.toUInt8

/-- Carries out a standard procedure. -/
def perform : StandardProcedure → Exec Unit
  | .iocheck => checkIo
  | .new => newBlock
  | .moveleft => moveBytes false
  | .moveright => moveBytes true
  | .exit => exitNamed
  | .unitread => unitTransfer .read
  | .unitwrite => unitTransfer .write
  | .time => storeTime
  | .fillchar => fillBytes
  | .scan => scanBytes
  | .unitstatus => unitStatus
  | .getseg => do loadSegment (← pop).toUInt8
  | .relseg => releaseSegment
  | .trunc => roundReal Single.truncate
  | .round => roundReal Single.round
  | .sin => realFunction (Single.apply Float32.sin)
  | .cos => realFunction (Single.apply Float32.cos)
  | .log => realFunction (Single.applyPositive Float32.log10)
  | .atan => realFunction (Single.apply Float32.atan)
  | .ln => realFunction (Single.applyPositive Float32.log)
  | .exp => realFunction (Single.apply Float32.exp)
  | .sqrt => realFunction Single.squareRoot
  | .mark => markHeap
  | .release => releaseHeap
  | .ioresult => do push (← get).ioResult
  | .unitbusy => do
    let _ ← pop
    pushBool false
  | .pwroften => pushPowerOfTen
  | .unitwait => do
    let _ ← pop
  | .unitclear => clearUnit
  | .halt => throw (.trap .halt)
  | .memavail => do
    let m ← get
    push (min (m.heap.available m.psp) 32767)
  | .decops => onStore Decimal.execute
  | .idsearch => throw (.trap (.unimplemented (.namedProcedure StandardProcedure.idsearch.name)))
  | .treesearch =>
    throw (.trap (.unimplemented (.namedProcedure StandardProcedure.treesearch.name)))

/-- Carries out the standard procedure with the number in the code. -/
def callStandard : Exec Unit := do
  let code ← fetchByte
  match StandardProcedure.ofCode? code with
  | some procedure => perform procedure
  | none => throw (.trap (.unimplemented (.numberedProcedure code)))

end Machine
end PSystem
