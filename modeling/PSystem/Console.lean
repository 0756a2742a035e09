import PSystem.ByteString

/-!
# The console

The console units read from a queue of bytes and keep all that was written.  A carriage return ends
a line; to a host it is a line feed, in either direction.
-/

namespace PSystem

/-- The end of a line. -/
def carriageReturn : UInt8 := 13

/-- The end of a line on the host. -/
def lineFeed : UInt8 := 10

/-- A console with its pending input and all of its output. -/
structure Console where
  input : Bytes := []
  output : Array UInt8 := #[]
  /-- Whether the console can tell that input is waiting. -/
  announces : Bool := true
  deriving DecidableEq, Repr, Inhabited

namespace Console

/-- Host input as the machine reads it. -/
def fromHost (b : UInt8) : UInt8 :=
  if b = lineFeed then carriageReturn else b

/-- Machine output as the host shows it. -/
def toHost (b : UInt8) : UInt8 :=
  if b = carriageReturn then lineFeed else b

/-- A console with scripted input. -/
def ofInput (bytes : Bytes) : Console where
  input := bytes.map fromHost

/-- The console of the host, which cannot tell whether a read would wait. -/
def ofHost (bytes : Bytes) : Console where
  input := bytes.map fromHost
  announces := false

/-- The next input byte, if there is one. -/
def read (c : Console) : Option UInt8 × Console :=
  match c.input with
  | [] => (none, c)
  | b :: rest => (some b, { c with input := rest })

/-- Writes bytes. -/
def write (c : Console) (bytes : Bytes) : Console :=
  { c with output := c.output.appendList bytes }

/-- Whether the console tells that input is waiting. -/
def hasInput (c : Console) : Bool :=
  c.announces && !c.input.isEmpty

/-- Whether a byte ends a line, on either kind of host. -/
def isLineEnd (b : UInt8) : Bool :=
  b == carriageReturn || b == lineFeed

/-- Puts a byte in front of lines that are already split. -/
def consByte (b : UInt8) (lines : List Bytes) : List Bytes :=
  if isLineEnd b then [] :: lines
  else
    match lines with
    | [] => [[b]]
    | line :: rest => (b :: line) :: rest

/-- Splits bytes at line ends; there is one line more than there are line ends. -/
def splitLines (bytes : Bytes) : List Bytes :=
  bytes.foldr consByte [[]]

/-- The lines of bytes, without an empty one at the end. -/
def lines (bytes : Bytes) : List String :=
  let all := splitLines bytes
  let kept := if all.getLast? = some [] then all.dropLast else all
  kept.map Bytes.latin

end Console
end PSystem
