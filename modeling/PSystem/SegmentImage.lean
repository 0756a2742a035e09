import PSystem.Assembler

/-!
# Segment images

A segment is its procedures one after another and, at the end, a dictionary of them.  Each
procedure is its code, its jump table and its attribute table:

* the jump table, its last entry first, each word the distance back to a target;
* data size, parameter size, and the distances back to the exit code and the entry;
* the procedure number, 0 for a bound procedure, and the lexical level.

All distances are relative to the word that holds them, so an image works at every address.
-/

namespace PSystem

/-- A procedure to be placed in a segment. -/
structure ProcedureSpec where
  level : Int := 1
  parameterBytes : Word := 0
  dataBytes : Word := 0
  /-- The code, or nothing for a procedure bound to the host. -/
  body : Option Body := none
  deriving DecidableEq, Repr

/-- A segment to be laid out; its procedures are numbered from 1. -/
structure SegmentSpec where
  number : UInt8
  name : String
  procedures : List ProcedureSpec
  deriving DecidableEq, Repr

namespace ProcedureSpec

/-- The distance back from `slot` to `target` as a word. -/
def distance (slot target : Nat) : Word :=
  Word.ofSigned ((slot : Int) - target)

/-- Code followed by a zero byte if its length is odd. -/
def evenCode (code : Bytes) : Bytes :=
  if code.length % 2 = 1 then code ++ [0] else code

/-- The offset of the attribute table from the start of the procedure. -/
def tableOffset (p : ProcedureSpec) : Nat :=
  let body := p.body.getD {}
  (evenCode body.code).length + 2 * body.jumpTable.length + 8

/-- The words of the jump table, its last entry first. -/
def jumpWords (p : ProcedureSpec) : List Word :=
  let body := p.body.getD {}
  (body.jumpTable.zipIdx.map fun (target, k) =>
    distance (p.tableOffset - 10 - 2 * k) target).reverse

/-- The procedure under a number. -/
def image (order : ByteOrder) (number : Nat) (p : ProcedureSpec) : Bytes :=
  let body := p.body.getD {}
  let jtab := p.tableOffset
  evenCode body.code
    ++ (p.jumpWords ++ [p.dataBytes, p.parameterBytes, distance (jtab - 4) body.exit,
        distance (jtab - 2) 0]).flatMap order.bytes
    ++ [if p.body.isSome then UInt8.ofNat number else 0, (Word.ofSigned p.level).toUInt8]

end ProcedureSpec

namespace SegmentSpec

/-- The procedures' images in order. -/
def procedureImages (order : ByteOrder) (s : SegmentSpec) : List Bytes :=
  s.procedures.zipIdx.map fun (p, i) => p.image order (i + 1)

/-- The offsets of the attribute tables, given the offset of the first image. -/
def tableOffsets (start : Nat) : List Bytes → List Nat
  | [] => []
  | image :: rest => (start + image.length - 2) :: tableOffsets (start + image.length) rest

/-- The dictionary words from `slot` on, for attribute tables given last first. -/
def dictionaryWords (slot : Nat) : List Nat → List Word
  | [] => []
  | jtab :: rest => ProcedureSpec.distance slot jtab :: dictionaryWords (slot + 2) rest

/-- The whole segment. -/
def image (order : ByteOrder) (s : SegmentSpec) : Bytes :=
  let images := s.procedureImages order
  let code := images.flatten
  let words := dictionaryWords code.length (tableOffsets 0 images).reverse
    ++ [s.number.toUInt16 ||| (UInt16.ofNat images.length <<< 8)]
  code ++ words.flatMap order.bytes

end SegmentSpec
end PSystem
