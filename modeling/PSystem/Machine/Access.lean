import PSystem.Machine.Fetch
import PSystem.Machine.Frame

/-!
# Loads, stores and addresses

Every variable is named through one of five modes, and each mode resolves to an address: a word of
the current frame, of the base frame, of a frame some static links up, of the base frame of another
segment, or a word beyond an address on the stack.
-/

namespace PSystem

/-- How an instruction names a variable. -/
inductive Mode where
  /-- A word of the current frame. -/
  | inner (n : Word)
  /-- A word of the base frame. -/
  | outermost (n : Word)
  /-- A word of the frame `levels` static links up. -/
  | intermediate (levels : UInt8) (n : Word)
  /-- A word of another segment's base frame. -/
  | external (segment : UInt8) (n : Word)
  /-- A word beyond an address on the stack. -/
  | indirect (offset : Word)
  deriving DecidableEq, Repr

namespace Machine

/-- The address that a mode names. -/
def resolve : Mode → Run Machine Address
  | .inner n => do return Frame.word (← get).mp n
  | .outermost n => do return Frame.word (← get).base n
  | .intermediate levels n => do
    let m ← get
    let frame ← orFault (Frame.outward m.memory m.mp levels.toNat)
    return Frame.word frame n
  | .external segment n => do
    let s ← orFault ((← get).segments.require segment)
    if s.dataBase = 0 then throw (.system (.noBaseFrame segment))
    return Frame.word s.dataBase n
  | .indirect offset => do
    let a ← pop
    return a + offset * 2

/-- Pushes the word that a mode names. -/
def load (mode : Mode) : Run Machine Unit := do
  let a ← resolve mode
  let w ← reading (·.readWord a)
  push w

/-- Pushes the address that a mode names. -/
def loadAddress (mode : Mode) : Run Machine Unit := do
  let a ← resolve mode
  push a

/-- Pops a word into what a mode names. -/
def storeAt (mode : Mode) : Run Machine Unit := do
  let w ← pop
  let a ← resolve mode
  onMemory (Memory.writeWord a w)

/-! ## Several words -/

/-- Pushes constant words from the code. -/
def loadConstants : Run Machine Unit := do
  let count ← fetchByte
  alignPointer
  let words ← reading (·.readWords (← get).nextAddress count.toNat)
  advance (2 * count.toUInt16)
  onStore (Store.pushBlock words)

/-- Pushes the words at an address. -/
def loadWords : Run Machine Unit := do
  let count ← fetchByte
  let a ← pop
  let words ← reading (·.readWords a count.toNat)
  onStore (Store.pushBlock words)

/-- Pops words and stores them at the address below them. -/
def storeWords : Run Machine Unit := do
  let count ← fetchByte
  let words ← onStore (Store.popBlock count.toNat)
  let a ← pop
  onMemory (Memory.writeWords a words)

/-- Copies words from one address to another. -/
def moveWords : Run Machine Unit := do
  let count ← fetchBig
  let source ← pop
  let destination ← pop
  let bytes ← reading (·.readBytes source (2 * count.toNat))
  onMemory (Memory.writeBytes destination bytes)

/-! ## Bytes -/

/-- Pushes the byte at an address and index. -/
def loadByte : Run Machine Unit := do
  let index ← pop
  let a ← pop
  let b ← reading (·.readByte (a + index))
  push b.toUInt16

/-- Pops a byte into an address and index. -/
def storeByte : Run Machine Unit := do
  let w ← pop
  let index ← pop
  let a ← pop
  onMemory (Memory.writeByte (a + index) w.toUInt8)

/-! ## Packed fields -/

/-- The lowest `width` bits. -/
def fieldMask (width : Word) : Word :=
  if 16 ≤ width then 0xFFFF else (1 <<< width) - 1

/-- A shift to the left that loses all bits from 16 places on. -/
def shiftUp (w n : Word) : Word :=
  if 16 ≤ n then 0 else w <<< n

/-- A shift to the right that loses all bits from 16 places on. -/
def shiftDown (w n : Word) : Word :=
  if 16 ≤ n then 0 else w >>> n

/-- The field of `width` bits from bit `right` on. -/
def extractField (w width right : Word) : Word :=
  shiftDown w right &&& fieldMask width

/-- The word with that field replaced. -/
def insertField (w width right value : Word) : Word :=
  let mask := shiftUp (fieldMask width) right
  let bits := shiftUp (value &&& fieldMask width) right
  (w &&& ~~~mask) ||| (bits &&& mask)

/-- Pushes the address of an array element. -/
def indexArray : Run Machine Unit := do
  let elementWords ← fetchBig
  let index ← pop
  let a ← pop
  push (a + index * elementWords * 2)

/-- Pushes address, width and rightmost bit of an element of a packed array. -/
def indexPacked : Run Machine Unit := do
  let perWord := max (← fetchByte) 1
  let width ← fetchByte
  let index ← pop
  let a ← pop
  push (a + 2 * (index / perWord.toUInt16))
  push width.toUInt16
  push (index % perWord.toUInt16 * width.toUInt16)

/-- Pushes a packed field. -/
def loadPacked : Run Machine Unit := do
  let right ← pop
  let width ← pop
  let a ← pop
  let w ← reading (·.readWord a)
  push (extractField w width right)

/-- Pops a value into a packed field. -/
def storePacked : Run Machine Unit := do
  let value ← pop
  let right ← pop
  let width ← pop
  let a ← pop
  let w ← reading (·.readWord a)
  onMemory (Memory.writeWord a (insertField w width right value))

/-! ## Strings -/

/-- Pushes the address of a string in the code, or of its first character. -/
def loadText (characters : Bool) : Run Machine Unit := do
  let a := (← get).nextAddress
  let length ← fetchByte
  advance length.toUInt16
  push (if characters then a + 1 else a)

/-- Assigns a string, or a character given by its code, to a string variable of a length. -/
def assignString (max : UInt8) : Run Machine Unit := do
  let source ← pop
  let destination ← pop
  if source < 256 then onMemory (Memory.writeBytes destination [1, source.toUInt8])
  else
    let length ← reading (·.readByte source)
    if max < length then throw (.stringTooLong length max)
    let bytes ← reading (·.readBytes source (length.toNat + 1))
    onMemory (Memory.writeBytes destination bytes)

/-- Checks an index into a string; both stay on the stack. -/
def checkStringIndex : Run Machine Unit := do
  let index := Word.signed (← onStore (Store.peek 0))
  let a ← onStore (Store.peek 1)
  let length ← reading (·.readByte a)
  if index < 1 ∨ (length.toNat : Int) < index then throw (.invalidIndex index)

end Machine
end PSystem
