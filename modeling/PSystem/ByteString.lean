import PSystem.Word

/-!
# Byte strings in files

Files are built by writing fields over a block of zeros and by padding to whole blocks.
-/

namespace PSystem
namespace Bytes

/-- The number of bytes in a disk block. -/
def blockSize : Nat := 512

/-- A byte string of zeros. -/
def zeros (n : Nat) : Bytes :=
  List.replicate n 0

/-- Writes `field` over `data` from position `i` on; the field has to fit. -/
def put? (data : Bytes) (i : Nat) (field : Bytes) : Option Bytes :=
  if i + field.length ≤ data.length then
    some (data.take i ++ field ++ data.drop (i + field.length))
  else none

/-- The number of blocks that hold `n` bytes. -/
def blocksFor (n : Nat) : Nat :=
  (n + (blockSize - 1)) / blockSize

/-- The bytes followed by zeros up to the end of `blocks` blocks. -/
def padBlocks (data : Bytes) (blocks : Nat) : Bytes :=
  data ++ zeros (blocks * blockSize - data.length)

/-- The text of bytes that are one character each. -/
def latin (data : Bytes) : String :=
  String.ofList (data.map fun b => Char.ofNat b.toNat)

/-- The bytes of a text. -/
def ofText (text : String) : Bytes :=
  text.toUTF8.toList

/-- The byte at a position, zero beyond the end. -/
def at0 (data : Bytes) (i : Nat) : UInt8 :=
  data.getD i 0

/-- The word at a position, with zeros beyond the end. -/
def wordAt (order : ByteOrder) (data : Bytes) (i : Nat) : Word :=
  order.join (at0 data i) (at0 data (i + 1))

/-- Whether two texts are equal up to the case of ASCII letters. -/
def sameName (a b : String) : Bool :=
  a.toList.map Char.toLower == b.toList.map Char.toLower

end Bytes
end PSystem
