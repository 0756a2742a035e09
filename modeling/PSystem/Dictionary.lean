import PSystem.ByteString

/-!
# Segment dictionaries

Block 0 of a code file describes up to sixteen segments: pairs of block and length, names of eight
characters, and an information word whose low byte is the segment number.  The byte order of the
file shows in the first pair: the first segment starts within the first 256 blocks, so a zero byte
before one that is not zero is a block number with the high byte first.
-/

namespace PSystem

/-- One occupied slot of a segment dictionary. -/
structure DictionaryEntry where
  slot : Nat
  number : UInt8
  name : String
  /-- The first block, counted from the start of the code file. -/
  block : Word
  /-- The length in bytes. -/
  length : Word
  deriving DecidableEq, Repr

/-- The dictionary of a code file. -/
structure Dictionary where
  order : ByteOrder
  entries : List DictionaryEntry
  deriving DecidableEq, Repr

namespace Dictionary

/-! ## Layout -/

/-- The number of slots. -/
def slots : Nat := 16

/-- Where the names start. -/
def namesOffset : Nat := 0x40

/-- The bytes of a name. -/
def nameLength : Nat := 8

/-- Where the information words start. -/
def infoOffset : Nat := 0x100

/-- The fewest bytes that hold a dictionary. -/
def size : Nat := infoOffset + 2 * slots

/-! ## Reading -/

/-- The byte order of a code file, from its first block. -/
def detectOrder : Bytes → ByteOrder
  | 0 :: second :: _ => if second = 0 then .little else .big
  | _ => .little

/-- A text without the blanks and zeros at its end. -/
def trimName (name : List Char) : List Char :=
  (name.reverse.dropWhile fun c => c = ' ' ∨ c = Char.ofNat 0).reverse

/-- The entry of a slot, unless its length is zero. -/
def readSlot? (order : ByteOrder) (block0 : Bytes) (slot : Nat) : Option DictionaryEntry :=
  let length := Bytes.wordAt order block0 (slot * 4 + 2)
  if length = 0 then none
  else
    let name := (block0.drop (namesOffset + slot * nameLength)).take nameLength
    some
      { slot := slot
        number := (Bytes.wordAt order block0 (infoOffset + slot * 2)).toUInt8
        name := String.ofList (trimName (name.map fun b => Char.ofNat b.toNat))
        block := Bytes.wordAt order block0 (slot * 4)
        length := length }

/-- Reads a dictionary; fails only on fewer bytes than it takes. -/
def parse? (block0 : Bytes) : Option Dictionary :=
  if block0.length < size then none
  else
    let order := detectOrder block0
    some { order := order, entries := (List.range slots).filterMap (readSlot? order block0) }

/-- The entries with a segment number, in slot order. -/
def entriesFor (d : Dictionary) (number : UInt8) : List DictionaryEntry :=
  d.entries.filter (·.number == number)

/-! ## Writing -/

/-- The bytes of a name: cut or filled with blanks. -/
def nameBytes (name : String) : Bytes :=
  let bytes := (Bytes.ofText name).take nameLength
  bytes ++ List.replicate (nameLength - bytes.length) 0x20

/-- Writes an entry into a block, if its slot lies in it. -/
def writeSlot? (order : ByteOrder) (block : Bytes) (e : DictionaryEntry) : Option Bytes := do
  let block ← Bytes.put? block (e.slot * 4) (order.bytes e.block ++ order.bytes e.length)
  let block ← Bytes.put? block (namesOffset + e.slot * nameLength) (nameBytes e.name)
  Bytes.put? block (infoOffset + e.slot * 2) (order.bytes e.number.toUInt16)

/-- The block that describes the given entries. -/
def encode? (order : ByteOrder) (entries : List DictionaryEntry) : Option Bytes :=
  entries.foldlM (writeSlot? order) (Bytes.zeros Bytes.blockSize)

end Dictionary
end PSystem
