import PSystem.Dictionary
import PSystem.SegmentImage

/-!
# Code files

A code file is a segment dictionary in block 0 and the segments after it, each from the start of a
block.
-/

namespace PSystem

/-- A segment of a code file. -/
structure CodePart where
  number : UInt8
  name : String
  bytes : Bytes
  deriving DecidableEq, Repr

namespace CodePart

/-- The part made of a laid out segment. -/
def ofSpec (order : ByteOrder) (s : SegmentSpec) : CodePart :=
  { number := s.number, name := s.name, bytes := s.image order }

end CodePart

namespace CodeFile

/-- The dictionary entries of parts in order, from a slot and a block on. -/
def entries (slot block : Nat) : List CodePart → List DictionaryEntry
  | [] => []
  | part :: rest =>
    { slot := slot
      number := part.number
      name := part.name
      block := UInt16.ofNat block
      length := UInt16.ofNat part.bytes.length }
      :: entries (slot + 1) (block + Bytes.blocksFor part.bytes.length) rest

/-- The code file of the given parts, if the dictionary has a slot for each. -/
def image? (order : ByteOrder) (parts : List CodePart) : Option Bytes := do
  let dictionary ← Dictionary.encode? order (entries 0 1 parts)
  return dictionary
    ++ parts.flatMap fun part => Bytes.padBlocks part.bytes (Bytes.blocksFor part.bytes.length)

end CodeFile
end PSystem
