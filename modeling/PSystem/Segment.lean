import PSystem.Dictionary
import PSystem.Fault
import PSystem.Memory.Basic

/-!
# The overlay table

The overlay table has an entry for each segment of the running code file: where it lies on disk,
how often it is in use, and where it was loaded.  A segment with a use count above zero is
resident.  The last word of a resident segment holds its number and procedure count; below it,
each procedure has a word with the distance back to its attribute table.
-/

namespace PSystem

/-- The second half of a segment that comes in two parts. -/
structure Extension where
  unit : Word
  block : Word
  size : Word
  /-- Where the extension lies, once it is loaded. -/
  base : Option Address := none
  deriving DecidableEq, Repr

/-- An entry of the overlay table. -/
structure Segment where
  number : UInt8
  name : String
  unit : Word
  /-- The first block on the unit. -/
  block : Word
  /-- The length in bytes. -/
  size : Word
  /-- How often the segment is in use.  A use count of the program has 16 bits: it wraps around to 0 at the 65536th
  use, or stops the program if overflows are checked.  Here it goes on, so a run agrees with the program as long as
  no use count passes 65535.  Calls alone do not get there: `Machine.Counted.useCount_lt` bounds the use counts of
  overlays by what the program gets and does not give up. -/
  useCount : Nat := 0
  /-- Where the code lies while the segment is resident. -/
  codeBase : Address := 0
  /-- The frame of the latest base procedure of the segment. -/
  dataBase : Address := 0
  extension : Option Extension := none
  deriving DecidableEq, Repr

/-- A size rounded up to whole words. -/
def evenSize (size : Word) : Word :=
  (size + 1) &&& 0xFFFE

namespace Segment

/-- Whether the segment is in memory. -/
def isResident (s : Segment) : Bool :=
  0 < s.useCount

/-- The bytes that the loaded segment takes. -/
def footprint (s : Segment) : Word :=
  evenSize s.size

/-- The address of the segment's last word. -/
def topWord (s : Segment) : Address :=
  s.codeBase + s.footprint - 2

/-- The address of a procedure's dictionary word, which has to lie in the segment. -/
def dictionarySlot (s : Segment) (procedure : UInt8) : Except Fault Address :=
  let back := 2 * procedure.toNat
  if s.topWord.toNat < back ∨ s.topWord.toNat - back < s.codeBase.toNat then
    .error (.system (.shortDictionary s.number procedure))
  else .ok (s.topWord - UInt16.ofNat back)

end Segment

/-- The segments of the running code file by number. -/
structure SegmentTable where
  entries : Cells (Option Segment) 8

namespace SegmentTable

/-- A table without segments. -/
def empty : SegmentTable := ⟨Cells.replicate none 8⟩

instance : Inhabited SegmentTable := ⟨empty⟩

/-! ## Entries -/

/-- The segment with a number. -/
def get? (t : SegmentTable) (number : UInt8) : Option Segment :=
  t.entries.get number.toNat

/-- Enters a segment under its number, in place of any other. -/
def insert (t : SegmentTable) (s : Segment) : SegmentTable :=
  ⟨t.entries.set s.number.toNat (some s)⟩

/-- Changes the segment with a number, if there is one. -/
def modify (t : SegmentTable) (number : UInt8) (f : Segment → Segment) : SegmentTable :=
  ⟨t.entries.modify number.toNat (Option.map f)⟩

/-- The segments in the order of their numbers. -/
def toList (t : SegmentTable) : List Segment :=
  t.entries.toArray.toList.filterMap id

/-- The segment with a number that the program named. -/
def require (t : SegmentTable) (number : UInt8) : Except Fault Segment :=
  match t.get? number with
  | some s => .ok s
  | none => .error (.noSuchSegment number)

/-- The first segment with a name, up to the case of letters. -/
def find? (t : SegmentTable) (name : String) : Option Segment :=
  t.toList.find? fun s => Bytes.sameName s.name name

/-- Enters a dictionary entry.  A second entry with number 0 is the extension of segment 0; any
other repeated number is ignored. -/
def addEntry (unit fileBlock : Word) (t : SegmentTable) (e : DictionaryEntry) : SegmentTable :=
  let block := fileBlock + e.block
  match t.get? e.number with
  | none =>
    t.insert { number := e.number, name := e.name, unit := unit, block := block, size := e.length }
  | some s =>
    if e.number = 0 ∧ s.extension.isNone then
      t.insert { s with extension := some { unit := unit, block := block, size := e.length } }
    else t

/-- The table of a code file that starts at `fileBlock` of a unit. -/
def ofDictionary (d : Dictionary) (unit fileBlock : Word) : SegmentTable :=
  d.entries.foldl (addEntry unit fileBlock) empty

/-! ## Residency -/

/-- The addresses at which a resident segment has code. -/
def codeAddresses (s : Segment) : List Address :=
  if s.isResident then s.codeBase :: (s.extension.bind (·.base)).toList else []

/-- The lowest address that still holds resident code, or `top` if there is none. -/
def residentFloor (t : SegmentTable) (top : Address) : Address :=
  match t.toList.flatMap codeAddresses with
  | [] => top
  | a :: rest => rest.foldl min a

/-- The segment with a number, which has to be resident. -/
def resident (t : SegmentTable) (number : UInt8) : Except Fault Segment := do
  let s ← t.require number
  if s.isResident then .ok s else .error (.system (.notResident number))

/-- The number of procedures of a resident segment. -/
def procedureCount (t : SegmentTable) (m : Memory) (number : UInt8) : Except Fault UInt8 := do
  let s ← t.resident number
  let w ← m.readWord s.topWord
  return (w >>> 8).toUInt8

/-- The address of a procedure's attribute table. -/
def jtab (t : SegmentTable) (m : Memory) (number procedure : UInt8) : Except Fault Address := do
  let count ← t.procedureCount m number
  if procedure = 0 ∨ count < procedure then
    .error (.system (.noProcedure procedure number))
  else
    let s ← t.resident number
    let slot ← s.dictionarySlot procedure
    let back ← m.readWord slot
    return slot - back

end SegmentTable
end PSystem
