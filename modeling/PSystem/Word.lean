/-!
# Machine words

The machine stores everything in 16-bit words and 8-bit bytes.  This module fixes the two byte
orders in which a word is laid out over two adjacent cells, and the three readings of a word that
instructions use: a two's complement integer, a truth value in the lowest bit, and plain bits.
-/

namespace PSystem

/-- A 16-bit machine word. -/
abbrev Word := UInt16

/-- A byte address; the whole address space has 65536 cells. -/
abbrev Address := UInt16

/-- Bytes as they lie on a disk or in a file. -/
abbrev Bytes := List UInt8

namespace Word

/-- The two's complement reading of a word. -/
def signed (w : Word) : Int :=
  if w.toNat < 0x8000 then w.toNat else (w.toNat : Int) - 0x10000

/-- The word whose two's complement reading is `v` modulo `2 ^ 16`. -/
def ofSigned (v : Int) : Word :=
  UInt16.ofNat (v % 0x10000).toNat

/-- The truth value of a word: its lowest bit. -/
def truth (w : Word) : Bool :=
  w &&& 1 == 1

/-- The word that stands for a truth value. -/
def ofTruth (b : Bool) : Word :=
  if b then 1 else 0

/-- `a - b`, or zero where `b` is larger. -/
def monus (a b : Word) : Word :=
  if b ≤ a then a - b else 0

end Word

/-! ## Byte order -/

/-- How a word is laid out over the cells at `a` and `a + 1`. -/
inductive ByteOrder where
  | little
  | big
  deriving DecidableEq, Repr, Inhabited

namespace ByteOrder

/-- The bytes of a word, the one at the lower address first. -/
def split (order : ByteOrder) (w : Word) : UInt8 × UInt8 :=
  match order with
  | little => (w.toUInt8, (w >>> 8).toUInt8)
  | big => ((w >>> 8).toUInt8, w.toUInt8)

/-- The word whose byte at the lower address is `first`. -/
def join (order : ByteOrder) (first second : UInt8) : Word :=
  match order with
  | little => first.toUInt16 ||| (second.toUInt16 <<< 8)
  | big => (first.toUInt16 <<< 8) ||| second.toUInt16

/-- The two bytes of a word as they stand in a file. -/
def bytes (order : ByteOrder) (w : Word) : Bytes :=
  [(order.split w).1, (order.split w).2]

/-- The byte of `w` found `offset` cells after an even boundary. -/
def byteAt (order : ByteOrder) (w : Word) (offset : Address) : UInt8 :=
  if offset &&& 1 == 0 then (order.split w).1 else (order.split w).2

/-- The other byte order. -/
def swap : ByteOrder → ByteOrder
  | little => big
  | big => little

/-- The order's name in diagnostics. -/
def name : ByteOrder → String
  | little => "Little"
  | big => "Big"

/-- The word at position `i` of a byte string, if both of its bytes are there. -/
def wordAt? (order : ByteOrder) (data : Bytes) (i : Nat) : Option Word := do
  let first ← data[i]?
  let second ← data[i + 1]?
  return order.join first second

end ByteOrder

end PSystem
