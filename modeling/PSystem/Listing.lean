import PSystem.Memory.Basic
import PSystem.Opcode
import PSystem.StandardProcedure

/-!
# Listings

A listing decodes instructions from the stored bytes of memory, whatever the marks of the cells, so
it never fails.  `Line.decode` reads one instruction with its operands; `Listing.window` gives the
lines around the current instruction of a procedure.
-/

namespace PSystem

/-! ## Operand values -/

/-- An operand as it was decoded. -/
inductive OperandValue where
  /-- An unsigned byte or a count of levels or results. -/
  | byte (value : UInt8)
  /-- The displacement of a jump and the address it counts from. -/
  | displacement (distance : Int) (origin : Address)
  | big (value : Word)
  | word (value : Word)
  | text (characters : Bytes)
  | words (values : List Word)
  /-- A comparison type, with the size of its operands for arrays. -/
  | comparison (kind : UInt8) (size : Option Word)
  /-- The bounds of a case jump. -/
  | cases (low high : Int)
  deriving DecidableEq, Repr

/-- The two's complement reading of a byte. -/
def signedByte (b : UInt8) : Int :=
  if b.toNat < 0x80 then b.toNat else (b.toNat : Int) - 0x100

/-- The next even address. -/
def alignAddress (a : Address) : Address :=
  if a % 2 == 1 then a + 1 else a

/-- Whether a comparison type takes the size of its operands. -/
def comparesArrays (kind : UInt8) : Bool :=
  kind == 10 || kind == 12

namespace OperandValue

/-- Decodes a `big` operand: its value and the address after it. -/
def peekBig (m : Memory) (a : Address) : Word × Address :=
  let first := m.peekByte a
  if first < 0x80 then (first.toUInt16, a + 1)
  else (((first.toUInt16 &&& 0x7F) <<< 8) ||| (m.peekByte (a + 1)).toUInt16, a + 2)

/-- Decodes an operand of a kind: its value and the address after it.  The length of a case table is a number of 16
bits.  From 32767 entries on it wraps around, as it does in a program that does not check for overflows; one that
does stops there. -/
def decode (m : Memory) (a : Address) : OperandKind → OperandValue × Address
  | .byte | .level => (.byte (m.peekByte a), a + 1)
  | .displacement => (.displacement (signedByte (m.peekByte a)) (a + 1), a + 1)
  | .big =>
    let (value, next) := peekBig m a
    (.big value, next)
  | .word => (.word (m.peekWord (alignAddress a)), alignAddress a + 2)
  | .text =>
    let length := m.peekByte a
    (.text ((List.range length.toNat).map fun i => m.peekByte (a + 1 + UInt16.ofNat i)),
      a + 1 + length.toUInt16)
  | .words =>
    let count := m.peekByte a
    if count == 0 then (.words [], a + 1)
    else
      let start := alignAddress (a + 1)
      (.words ((List.range count.toNat).map fun i => m.peekWord (start + UInt16.ofNat (2 * i))),
        start + 2 * count.toUInt16)
  | .comparison =>
    let kind := m.peekByte a
    if comparesArrays kind then
      let (size, next) := peekBig m (a + 1)
      (.comparison kind (some size), next)
    else (.comparison kind none, a + 1)
  | .cases =>
    let start := alignAddress a
    let low := Word.signed (m.peekWord start)
    let high := Word.signed (m.peekWord (start + 2))
    let entries := UInt16.ofNat (high - low + 1).toNat
    (.cases low high, start + 6 + 2 * entries)

/-- The operand in a listing. -/
def render (encoding : Encoding) : OperandValue → String
  | byte v =>
    match encoding, StandardProcedure.ofCode? v with
    | .table .csp, some procedure => procedure.name
    | _, _ => toString v.toNat
  | displacement d origin =>
    if 0 ≤ d then Hex.pad 4 (origin + Word.ofSigned d).toNat else s!"jtab{d}"
  | big v => toString v.toNat
  | word v => toString (Word.signed v)
  | text cs => "'" ++ String.ofList (cs.map fun c => Char.ofNat c.toNat) ++ "'"
  | words ws => " ".intercalate (ws.map fun w => Hex.pad 4 w.toNat)
  | comparison kind (some size) => s!"{kind.toNat} {size.toNat}"
  | comparison kind none => toString kind.toNat
  | cases low high => s!"{low}..{high}"

end OperandValue

/-! ## Lines -/

/-- One decoded instruction. -/
structure Line where
  address : Address
  opcode : UInt8
  operands : List OperandValue
  /-- The bytes taken, operands and inline tables included. -/
  length : Word
  deriving DecidableEq, Repr

namespace Line

/-- Decodes operands of the given kinds, and gives the address after them. -/
def decodeOperands (m : Memory) (a : Address) : List OperandKind → List OperandValue × Address
  | [] => ([], a)
  | kind :: kinds =>
    let (value, next) := OperandValue.decode m a kind
    let (values, last) := decodeOperands m next kinds
    (value :: values, last)

/-- Decodes the instruction at an address. -/
def decode (m : Memory) (a : Address) : Line :=
  let opcode := m.peekByte a
  let (operands, next) := decodeOperands m (a + 1) (Encoding.ofCode opcode).operands
  { address := a, opcode := opcode, operands := operands, length := next - a }

/-- What the opcode stands for. -/
def encoding (line : Line) : Encoding :=
  Encoding.ofCode line.opcode

/-- The mnemonic of the line. -/
def mnemonic (line : Line) : String :=
  line.encoding.mnemonic

/-- Mnemonic and operands. -/
def text (line : Line) : String :=
  match line.encoding with
  | .shortConstant n | .shortLocal n | .shortGlobal n | .shortIndirect n =>
    s!"{line.mnemonic} {n.toNat}"
  | .unused _ => line.mnemonic
  | .table _ =>
    if line.operands.isEmpty then line.mnemonic
    else
      line.mnemonic ++ " " ++ ", ".intercalate (line.operands.map (·.render line.encoding))

end Line

/-! ## Windows -/

namespace Listing

/-- The `n` lines from an address on. -/
def linear (m : Memory) (a : Address) : Nat → List Line
  | 0 => []
  | n + 1 =>
    let line := Line.decode m a
    line :: linear m (a + line.length) n

/-- The most lines that a window looks at. -/
def maxLines : Nat := 4096

/-- Whether a window that has `lines` lines, the current one at `found`, needs no further line. -/
def complete (count lines : Nat) (found : Option Nat) (next current : Address) : Bool :=
  match found with
  | some index => index + count / 2 < lines
  | none => current < next && count ≤ lines

/-- Decodes lines from `a` on until half a window past the current instruction, until a window has
been filled without meeting it, or until the address space ends.  Gives the lines and the index of
the current one. -/
def scan (m : Memory) (entry current : Address) (count : Nat) :
    (fuel : Nat) → (a : Address) → (lines : Array Line) → (found : Option Nat) →
    Array Line × Option Nat
  | 0, _, lines, found => (lines, found)
  | fuel + 1, a, lines, found =>
    let line := Line.decode m a
    let found := if line.address = current then some lines.size else found
    let lines := lines.push line
    let next := a + max line.length 1
    if complete count lines.size found next current || next < entry then (lines, found)
    else scan m entry current count fuel next lines found

/-- At most `count` lines of the procedure that starts at `entry`, with the current instruction in
the middle. -/
def window (m : Memory) (entry current : Address) (count : Nat) : List Line :=
  if entry = 0 ∨ count = 0 then []
  else
    let (lines, found) := scan m entry current count maxLines entry #[] none
    let start := found.getD 0 - count / 2
    (lines.toList.drop start).take count

end Listing
end PSystem
