import PSystem.ByteString

/-!
# Volume directories

The directory of a volume lies in four blocks from block 2 on, in entries of 26 bytes.  Entry 0 is
the volume header with the number of files; every other entry holds first block, next block, kind
and name of a file.  A file count above the largest possible one is read in the other byte order,
and so are then the words of all entries.
-/

namespace PSystem

/-- Where a file lies on its volume. -/
structure FileExtent where
  name : String
  firstBlock : Word
  /-- One past the last block. -/
  nextBlock : Word
  kind : Word
  deriving DecidableEq, Repr

namespace FileExtent

/-- The number of blocks of a file. -/
def blocks (f : FileExtent) : Word :=
  Word.monus f.nextBlock f.firstBlock

end FileExtent

/-- The directory of a volume. -/
structure Directory where
  volume : String := ""
  files : List FileExtent := []
  deriving DecidableEq, Repr, Inhabited

namespace Directory

/-! ## Layout -/

/-- The first block of the directory. -/
def firstBlock : Nat := 2

/-- The bytes of an entry. -/
def entrySize : Nat := 26

/-- The bytes of the whole directory. -/
def size : Nat := 4 * Bytes.blockSize

/-- The largest number of files. -/
def maxFiles : Nat := 77

/-- Where the number of files stands in the header. -/
def countOffset : Nat := 16

/-- Where the name stands in an entry. -/
def nameOffset : Nat := 6

/-- The longest file name. -/
def maxName : Nat := 15

/-- The longest volume name. -/
def maxVolumeName : Nat := 7

/-! ## Reading -/

/-- A length byte and at most `maxName` characters. -/
def nameAt (data : Bytes) (i : Nat) : String :=
  Bytes.latin ((data.drop (i + 1)).take (min (Bytes.at0 data i).toNat maxName))

/-- The byte order of a directory and its file count. -/
def countAndOrder (data : Bytes) : Nat × ByteOrder :=
  let count := (Bytes.wordAt .little data countOffset).toNat
  if count ≤ maxFiles then (count, .little)
  else ((Bytes.wordAt .big data countOffset).toNat, .big)

/-- The file entry that starts at a position. -/
def fileAt (order : ByteOrder) (data : Bytes) (i : Nat) : FileExtent where
  name := nameAt data (i + nameOffset)
  firstBlock := Bytes.wordAt order data i
  nextBlock := Bytes.wordAt order data (i + 2)
  kind := Bytes.wordAt order data (i + 4)

/-- Reads a directory; entries that the bytes do not hold entirely are left out. -/
def parse (data : Bytes) : Directory :=
  if data.length < entrySize then {}
  else
    let (count, order) := countAndOrder data
    let whole := data.length / entrySize - 1
    { volume :=
        if (Bytes.at0 data nameOffset).toNat ≤ maxVolumeName then nameAt data nameOffset else ""
      files :=
        (List.range (min (min count maxFiles) whole)).map fun i =>
          fileAt order data ((i + 1) * entrySize) }

/-- The first file with a name, up to the case of letters. -/
def find? (d : Directory) (name : String) : Option FileExtent :=
  d.files.find? fun f => Bytes.sameName f.name name

/-! ## Writing -/

/-- The first bytes of a text, if the cut does not go through a character. -/
def cutText? (text : String) (n : Nat) : Option Bytes :=
  let bytes := Bytes.ofText text
  if bytes.length ≤ n then some bytes
  else if (Bytes.at0 bytes n) &&& 0xC0 = 0x80 then none
  else some (bytes.take n)

/-- A length byte and at most `maxName` bytes of a name. -/
def nameField (name : Bytes) : Bytes :=
  let name := name.take maxName
  UInt8.ofNat name.length :: name

/-- The entry of a file up to the end of its name. -/
def fileField (f : FileExtent) : Bytes :=
  ByteOrder.little.bytes f.firstBlock ++ ByteOrder.little.bytes f.nextBlock
    ++ ByteOrder.little.bytes f.kind ++ nameField (Bytes.ofText f.name)

/-- Writes file entries from entry `i` on. -/
def putFiles? (i : Nat) (data : Bytes) : List FileExtent → Option Bytes
  | [] => some data
  | f :: rest => do
    let data ← Bytes.put? data (i * entrySize) (fileField f)
    putFiles? (i + 1) data rest

/-- The directory of a volume and its files, if they fit. -/
def encode? (volume : String) (files : List FileExtent) : Option Bytes := do
  let name ← cutText? volume maxVolumeName
  let data ← Bytes.put? (Bytes.zeros size) 2 (ByteOrder.little.bytes 6)
  let data ← Bytes.put? data nameOffset (nameField name)
  let data ← Bytes.put? data countOffset (ByteOrder.little.bytes (UInt16.ofNat files.length))
  putFiles? 1 data files

end Directory

/-! ## Volumes -/

namespace Volume

/-- The extents of files laid out one after another from a block on. -/
def extents (block : Nat) : List (String × Bytes) → List FileExtent
  | [] => []
  | (name, bytes) :: rest =>
    let next := block + max 1 (Bytes.blocksFor bytes.length)
    { name := name, firstBlock := UInt16.ofNat block, nextBlock := UInt16.ofNat next, kind := 2 }
      :: extents next rest

/-- A volume: two boot blocks, the directory and the files, each in at least one block. -/
def image? (volume : String) (files : List (String × Bytes)) : Option Bytes := do
  let first := Directory.firstBlock + Directory.size / Bytes.blockSize
  let directory ← Directory.encode? volume (extents first files)
  return Bytes.zeros (Directory.firstBlock * Bytes.blockSize) ++ directory
    ++ files.flatMap fun (_, bytes) =>
      Bytes.padBlocks bytes (max 1 (Bytes.blocksFor bytes.length))

end Volume
end PSystem
