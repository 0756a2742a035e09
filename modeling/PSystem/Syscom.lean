import PSystem.Memory.Basic

/-!
# The system communication block

The block at `Syscom.base` is shared with the operating system.  The machine writes the fields of
a delivered trap and the result of the last unit transfer; the date, the screen size and the
machine flags are devices that always show the host, and what a program writes to them is dropped.
-/

namespace PSystem

/-- What the host shows to the machine. -/
structure HostView where
  /-- The packed date of the host. -/
  date : Word := 0
  rows : Word := 24
  columns : Word := 80
  /-- Sixtieths of a second since the machine was started. -/
  ticks : UInt32 := 0
  deriving DecidableEq, Repr, Inhabited

namespace Syscom

/-! ## Layout -/

/-- The address of the block. -/
def base : Address := 0x80

/-- The length of the block in bytes. -/
def size : Nat := 0x80

/-- The result of the last unit transfer. -/
def ioResult : Address := base

/-- The code of the last delivered trap. -/
def errorCode : Address := base + 2

/-- The unit the system was started from. -/
def systemUnit : Address := base + 4

/-- The address of the trapping instruction. -/
def errorAddress : Address := base + 6

/-- The frame that was current at the trap. -/
def errorFrame : Address := base + 8

/-- The packed date. -/
def date : Address := base + 10

/-- Screen height, followed by the width. -/
def screen : Address := base + 12

/-- The machine flags. -/
def flags : Address := base + 16

/-! ## Values -/

/-- A date in a word: month in bits 0 to 3, day in bits 4 to 8, year of the century above.  The year
is a number of 32 bits. -/
def packDate (year month day : Int) : Word :=
  (Word.ofSigned (Int.bmod year 0x100000000 % 100) <<< 9) ||| ((Word.ofSigned day &&& 0x1F) <<< 4) |||
    (Word.ofSigned month &&& 0x0F)

/-- Year, month and day of the Gregorian calendar, from the days since 1 January 1970.  Years are
counted from March, so that the leap day is the last day of a year, and are numbers of 32 bits. -/
def civilOfDays (days : Int) : Int × Int × Int :=
  let z := days + 719468
  let era := z / 146097
  let dayOfEra := z % 146097
  let yearOfEra := (dayOfEra - dayOfEra / 1460 + dayOfEra / 36524 - dayOfEra / 146096) / 365
  let dayOfYear := dayOfEra - (365 * yearOfEra + yearOfEra / 4 - yearOfEra / 100)
  let m := (5 * dayOfYear + 2) / 153
  let day := dayOfYear - (153 * m + 2) / 5 + 1
  let month := if m < 10 then m + 3 else m - 9
  (Int.bmod (yearOfEra + era * 400 + (if month ≤ 2 then 1 else 0)) 0x100000000, month, day)

/-- The machine flags: byte order, reals, long integers and byte addressing. -/
def machineFlags (order : ByteOrder) : Word :=
  (if order = .big then 1 else 0) ||| 2 ||| 4 ||| 8

/-! ## Devices -/

/-- The devices of the block: the date, the screen size and the machine flags. -/
def devices (host : HostView) : List Device :=
  [{ start := date, stop := date + 2, read := fun a order => order.byteAt host.date (a - date) },
    { start := screen, stop := screen + 4
      read := fun a order =>
        order.byteAt (if a - screen < 2 then host.rows else host.columns) (a - screen) },
    { start := flags, stop := flags + 2
      read := fun a order => order.byteAt (machineFlags order) (a - flags) }]

/-- Clears the block and attaches its devices. -/
def install (host : HostView) : Run Memory Unit := do
  Memory.writeBytes base (List.replicate size 0)
  modify (·.attachAll (devices host))

/-- Shows the result of a unit transfer. -/
def writeIoResult (result : Word) : Run Memory Unit :=
  Memory.writeWord ioResult result

/-- Fills in the fields of a trap: the fault, the address of its instruction and the frame. -/
def recordTrap (fault : Fault) (address mp : Address) : Run Memory Unit := do
  Memory.writeWord errorCode fault.code
  Memory.writeWord errorAddress address
  Memory.writeWord errorFrame mp
  match fault.ioResult? with
  | some result => writeIoResult result
  | none => pure ()

end Syscom
end PSystem
