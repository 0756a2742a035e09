import PSystem.Fault
import PSystem.Memory.Cells

/-!
# Memory

Memory is 65536 byte cells.  Each cell carries four marks besides its value: whether it was ever
written, whether it is protected against writing, whether it lies in a reserved region, and
whether accesses to it go to a device instead of the stored value.  Address 0 is never valid.

Reading never changes memory, so reads are functions to `Except Fault`; writes are computations
in `Run Memory`, because a write of several bytes that fails keeps the bytes written before it.
-/

namespace PSystem

/-! ## Cells and devices -/

/-- A byte cell with its marks. -/
structure Cell where
  value : UInt8 := 0
  /-- No write has reached the cell. -/
  uninitialized : Bool := true
  /-- Writes to the cell fail. -/
  readOnly : Bool := false
  /-- The cell lies in a region that programs should leave alone. -/
  reserved : Bool := false
  /-- Accesses to the cell go to a device. -/
  mapped : Bool := false
  deriving DecidableEq, Repr, Inhabited

/-- Host state shown in a range of cells. -/
structure Device where
  /-- First address of the range. -/
  start : Address
  /-- First address past the range. -/
  stop : Address
  /-- The byte shown at an address under a byte order. -/
  read : Address → ByteOrder → UInt8
  /-- Whether written bytes are delivered to the host; otherwise they are dropped. -/
  listening : Bool := false

namespace Device

/-- Whether an address lies in the device's range. -/
def covers (device : Device) (a : Address) : Bool :=
  device.start ≤ a && a < device.stop

end Device

/-- The whole memory of the machine. -/
structure Memory where
  cells : Cells Cell 16
  order : ByteOrder
  /-- The devices in the order in which they were attached. -/
  devices : List Device
  /-- The bytes delivered to listening devices, oldest first. -/
  delivered : Array (Address × UInt8)

namespace Memory

/-- Memory to which nothing has been written. -/
def empty : Memory where
  cells := Cells.replicate {} 16
  order := .little
  devices := []
  delivered := #[]

instance : Inhabited Memory := ⟨empty⟩

/-- The cell at an address. -/
def cell (m : Memory) (a : Address) : Cell :=
  m.cells.get a.toNat

/-- The device that answers for an address: the first one attached whose range covers it. -/
def device? (m : Memory) (a : Address) : Option Device :=
  if (m.cell a).mapped then m.devices.find? (·.covers a) else none

/-! ## Reading -/

/-- The byte at an address. -/
def readByte (m : Memory) (a : Address) : Except Fault UInt8 :=
  if a = 0 then .error (.invalidReference a)
  else
    match m.device? a with
    | some device => .ok (device.read a m.order)
    | none => .ok (m.cell a).value

/-- The word at `a` and `a + 1`. -/
def readWord (m : Memory) (a : Address) : Except Fault Word := do
  let first ← m.readByte a
  let second ← m.readByte (a + 1)
  return m.order.join first second

/-- The `n` bytes from `a` on. -/
def readBytes (m : Memory) (a : Address) (n : Nat) : Except Fault Bytes :=
  (List.range n).mapM fun i => m.readByte (a + UInt16.ofNat i)

/-- The `n` words from `a` on. -/
def readWords (m : Memory) (a : Address) (n : Nat) : Except Fault (List Word) :=
  (List.range n).mapM fun i => m.readWord (a + UInt16.ofNat (2 * i))

/-- The byte count at `a` and as many bytes after it. -/
def readString (m : Memory) (a : Address) : Except Fault Bytes := do
  let length ← m.readByte a
  m.readBytes (a + 1) length.toNat

/-- The stored byte, whatever the marks of the cell. -/
def peekByte (m : Memory) (a : Address) : UInt8 :=
  (m.cell a).value

/-- The stored word, whatever the marks of its cells. -/
def peekWord (m : Memory) (a : Address) : Word :=
  m.order.join (m.peekByte a) (m.peekByte (a + 1))

/-- The stored bytes of all cells, in the order of their addresses. -/
def image (m : Memory) : ByteArray :=
  m.cells.foldl (fun bytes cell => bytes.push cell.value) ByteArray.empty

/-! ## Writing -/

/-- Stores a byte, whatever the marks of the cell, and notes that the cell was written. -/
def store (m : Memory) (a : Address) (v : UInt8) : Memory :=
  { m with cells := m.cells.modify a.toNat fun c => { c with value := v, uninitialized := false } }

/-- Writes a byte: to the device that answers for the address, else to the cell unless it is
protected. -/
def writeByte (a : Address) (v : UInt8) : Run Memory Unit := fun m =>
  if a = 0 then .error (.invalidReference a) m
  else
    match m.device? a with
    | some device =>
      if device.listening then .ok () { m with delivered := m.delivered.push (a, v) } else .ok () m
    | none =>
      if (m.cell a).readOnly then .error (.invalidReference a) m
      else .ok () (m.store a v)

/-- Writes a word at `a` and `a + 1`, the byte at `a` first. -/
def writeWord (a : Address) (w : Word) : Run Memory Unit := do
  let (first, second) := (← get).order.split w
  writeByte a first
  writeByte (a + 1) second

/-- Writes bytes from `a` on, up to the first that fails. -/
def writeBytes (a : Address) : Bytes → Run Memory Unit
  | [] => pure ()
  | b :: bs => do
    writeByte a b
    writeBytes (a + 1) bs

/-- Writes words from `a` on, up to the first that fails. -/
def writeWords (a : Address) : List Word → Run Memory Unit
  | [] => pure ()
  | w :: ws => do
    writeWord a w
    writeWords (a + 2) ws

/-! ## Marks -/

/-- Changes the cells of `n` consecutive addresses from `i` on. -/
def modifyRange (f : Cell → Cell) (cells : Cells Cell 16) (i : Nat) : Nat → Cells Cell 16
  | 0 => cells
  | n + 1 => modifyRange f (cells.modify i f) (i + 1) n

/-- Changes the cells from `start` up to but excluding `stop`. -/
def mark (m : Memory) (start stop : Address) (f : Cell → Cell) : Memory :=
  { m with cells := modifyRange f m.cells start.toNat (stop.toNat - start.toNat) }

/-- Sets or clears write protection from `start` up to but excluding `stop`. -/
def protect (m : Memory) (start stop : Address) (on : Bool) : Memory :=
  m.mark start stop fun c => { c with readOnly := on }

/-- Marks the cells from `first` to `last` as reserved. -/
def reserve (m : Memory) (first last : Address) : Memory :=
  { m with
    cells := modifyRange (fun c => { c with reserved := true }) m.cells first.toNat
      (last.toNat + 1 - first.toNat) }

/-- Attaches a device behind those already attached. -/
def attach (m : Memory) (device : Device) : Memory :=
  let marked := m.mark device.start device.stop
    fun c => { c with mapped := true, uninitialized := false }
  { marked with devices := marked.devices ++ [device] }

/-- Attaches devices one behind the other. -/
def attachAll (m : Memory) (devices : List Device) : Memory :=
  devices.foldl attach m

/-- The memory with these devices in place of all that were attached. -/
def withDevices (m : Memory) (devices : List Device) : Memory :=
  { m with devices := devices }

/-- The memory read and written in another byte order from now on. -/
def withOrder (m : Memory) (order : ByteOrder) : Memory :=
  { m with order := order }

/-- A one-line summary for diagnostics. -/
def summary (m : Memory) : String :=
  s!"Memory \x7b size: 65536, endianness: {m.order.name}, emulated_ranges: {m.devices.length} \x7d"

end Memory
end PSystem
