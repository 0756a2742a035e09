import PSystem.Word
import PSystem.Hex

/-!
# Faults

A fault is what a single instruction can raise.  Each fault has the number under which the
operating system knows it and a one-line text; the number is what a trap handler finds in the
system communication block.
-/

namespace PSystem

/-! ## Causes -/

/-- The inconsistencies reported as a system error. -/
inductive SystemCause where
  /-- A pop or peek beyond the bottom of the evaluation stack. -/
  | stackUnderflow
  /-- A digit above nine in a packed decimal word. -/
  | invalidDigits (word : Word)
  /-- The procedure dictionary would reach below its own segment. -/
  | shortDictionary (segment procedure : UInt8)
  /-- A release of a segment that is not in memory. -/
  | releaseOfAbsent (segment : UInt8)
  /-- A segment that should be in memory is not. -/
  | notResident (segment : UInt8)
  /-- A procedure number outside the segment's dictionary. -/
  | noProcedure (procedure segment : UInt8)
  /-- A call that would skip a lexical level. -/
  | levelGap (caller callee : Int)
  /-- Fewer parameter bytes on the evaluation stack than the procedure takes. -/
  | missingParameters (procedure segment : UInt8) (bytes : Word)
  /-- An external variable of a segment without an active base procedure. -/
  | noBaseFrame (segment : UInt8)
  /-- A cause given by a bound procedure in its own words. -/
  | reported (text : String)
  deriving DecidableEq, Repr

namespace SystemCause

/-- The wording of a cause. -/
def message : SystemCause → String
  | stackUnderflow => "evaluation stack underflow"
  | invalidDigits w => "invalid BCD word 0x" ++ Hex.pad 4 w.toNat
  | shortDictionary s p =>
    s!"dictionary of segment {s.toNat} is too short for procedure {p.toNat}"
  | releaseOfAbsent s => s!"unload of non-resident segment {s.toNat}"
  | notResident s => s!"segment {s.toNat} is not resident"
  | noProcedure p s => s!"no procedure {p.toNat} in segment {s.toNat}"
  | levelGap a b => s!"call from level {a} into level {b}"
  | missingParameters p s n =>
    s!"procedure {p.toNat} of segment {s.toNat} expects {n.toNat} parameter bytes"
  | noBaseFrame s => s!"segment {s.toNat} has no active base frame"
  | reported text => text

end SystemCause

/-- What a program may ask for and the machine does not have. -/
inductive Missing where
  | opcode (code : UInt8)
  | decimalOperation (code : Word)
  | comparison (mnemonic : String) (kind : UInt8)
  | boundProcedure (procedure : UInt8) (segment : String)
  | namedProcedure (name : String)
  | numberedProcedure (code : UInt8)
  | reported (text : String)
  deriving DecidableEq, Repr

namespace Missing

/-- The wording of what is missing. -/
def message : Missing → String
  | opcode c => s!"opcode {c.toNat}"
  | decimalOperation c => s!"DECOPS operation {c.toNat}"
  | comparison mnemonic kind => s!"{mnemonic} with comparison type {kind.toNat}"
  | boundProcedure p name => s!"native procedure {p.toNat} of {name}"
  | namedProcedure name => s!"standard procedure {name}"
  | numberedProcedure c => s!"standard procedure {c.toNat}"
  | reported text => text

end Missing

/-! ## Faults -/

/-- What executing one instruction can raise. -/
inductive Fault where
  /-- An inconsistency that the program may still handle. -/
  | system (cause : SystemCause)
  /-- A failed range, bounds or set element check. -/
  | invalidIndex (value : Int)
  /-- A segment number that the overlay table does not know. -/
  | noSuchSegment (segment : UInt8)
  /-- EXIT from a procedure without an active frame. -/
  | exitFromUncalled (segment procedure : UInt8)
  /-- The heap meets the program stack, or the evaluation stack is full. -/
  | stackOverflow
  /-- A result that its representation cannot hold. -/
  | integerOverflow
  /-- Integer, real or decimal division by zero. -/
  | divideByZero
  /-- An access to address 0 or a write to a protected cell. -/
  | invalidReference (address : Address)
  /-- The machine itself could not transfer from a unit. -/
  | systemIo (result : Word)
  /-- IOCHECK found a pending result. -/
  | userIo (result : Word)
  /-- An instruction or procedure that does not exist. -/
  | unimplemented (what : Missing)
  /-- A logarithm or square root outside its domain. -/
  | floatingPoint
  /-- A string longer than its destination. -/
  | stringTooLong (length max : UInt8)
  /-- The normal end of a program. -/
  | halt
  /-- A breakpoint instruction while breakpoints are on. -/
  | breakpoint (line : Word)
  deriving DecidableEq, Repr

namespace Fault

/-- The number by which the operating system knows a fault. -/
def code : Fault → Word
  | system _ => 0
  | invalidIndex _ => 1
  | noSuchSegment _ => 2
  | exitFromUncalled .. => 3
  | stackOverflow => 4
  | integerOverflow => 5
  | divideByZero => 6
  | invalidReference _ => 7
  | systemIo _ => 9
  | userIo _ => 10
  | unimplemented _ => 11
  | floatingPoint => 12
  | stringTooLong .. => 13
  | halt => 14
  | breakpoint _ => 15

/-- The one-line text of a fault. -/
def message : Fault → String
  | system cause => "system error: " ++ cause.message
  | invalidIndex v => s!"invalid index: {v}"
  | noSuchSegment s => s!"no such segment: {s.toNat}"
  | exitFromUncalled s p => s!"exit from uncalled procedure {p.toNat} of segment {s.toNat}"
  | stackOverflow => "stack overflow"
  | integerOverflow => "integer overflow"
  | divideByZero => "divide by zero"
  | invalidReference a => "invalid memory reference at 0x" ++ Hex.pad 4 a.toNat
  | systemIo r => s!"system I/O error {r.toNat}"
  | userIo r => s!"user I/O error {r.toNat}"
  | unimplemented what => "unimplemented instruction: " ++ what.message
  | floatingPoint => "floating point error"
  | stringTooLong n max => s!"string too long: {n.toNat} > {max.toNat}"
  | halt => "halt"
  | breakpoint line => s!"breakpoint at line {line.toNat}"

/-- The pending I/O result that a fault carries, if any. -/
def ioResult? : Fault → Option Word
  | systemIo r => some r
  | userIo r => some r
  | _ => none

/-- Whether a fault is the normal end of a program. -/
def isHalt : Fault → Bool
  | halt => true
  | _ => false

end Fault

/-- A computation on a state `σ` that ends with a value or with a fault, and in both cases with
the state it reached. -/
abbrev Run (σ α : Type) := EStateM Fault σ α

end PSystem
