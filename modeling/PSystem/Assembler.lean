import PSystem.ByteString
import PSystem.Opcode

/-!
# Assembling a procedure

A procedure body is written as a list of directives and assembled into code, a jump table and the
offset of the exit code.  A jump that reaches its label with a displacement of 0 to 127 is short;
any other goes through a word of the jump table, which the procedure's attribute table follows, so
its displacement is negative.
-/

namespace PSystem

/-- A label of a procedure body. -/
abbrev Label := Nat

/-- One step in writing a procedure body. -/
inductive Directive where
  /-- The opcode of an instruction. -/
  | op (code : UInt8)
  | byte (value : UInt8)
  /-- An operand of one or two bytes. -/
  | big (value : Word)
  /-- A word at the next even offset. -/
  | word (value : Word)
  /-- Nothing, or a zero byte before an odd offset. -/
  | align
  /-- A length byte and characters. -/
  | text (characters : Bytes)
  /-- The label stands for the current offset. -/
  | bind (label : Label)
  /-- The exit code starts here. -/
  | exit
  /-- A jump instruction to a label. -/
  | branch (code : UInt8) (label : Label)
  /-- A case jump with one label for each value from `low` to `high`. -/
  | cases (low high : Int) (default : Label) (targets : List Label)
  deriving DecidableEq, Repr

namespace Directive

/-- Pushes an integer in the shortest encoding. -/
def constant (value : Int) : List Directive :=
  if 0 ≤ value ∧ value ≤ 127 then [op (UInt8.ofNat value.toNat)]
  else [op Opcode.ldci.code, word (Word.ofSigned value)]

end Directive

/-- An assembled procedure body. -/
structure Body where
  code : Bytes := []
  /-- The code offsets reached through the jump table, entry 0 first. -/
  jumpTable : List Nat := []
  /-- The offset of the exit code. -/
  exit : Nat := 0
  deriving DecidableEq, Repr, Inhabited

/-- Why a body cannot be assembled. -/
inductive AssemblyError where
  | unboundLabel (label : Label)
  | tooManyTargets
  deriving DecidableEq, Repr

namespace AssemblyError

/-- The wording of the error. -/
def message : AssemblyError → String
  | unboundLabel label => s!"unbound label {label}"
  | tooManyTargets => "too many jump table entries"

end AssemblyError

/-! ## Emission -/

/-- A body with its jumps still open. -/
structure Draft where
  order : ByteOrder
  code : Array UInt8 := #[]
  /-- Where each label was bound, the latest binding first. -/
  bindings : List (Label × Nat) := []
  /-- The offsets of displacement bytes to fill in, the latest first. -/
  branches : List (Nat × Label) := []
  /-- The offsets of case words to fill in, the latest first. -/
  caseWords : List (Nat × Label) := []
  lastOp : Nat := 0
  exit : Option Nat := none

namespace Draft

/-- The current offset. -/
def offset (d : Draft) : Nat :=
  d.code.size

/-- Appends a byte. -/
def push (d : Draft) (b : UInt8) : Draft :=
  { d with code := d.code.push b }

/-- Appends a zero byte at an odd offset. -/
def align (d : Draft) : Draft :=
  if d.offset % 2 = 1 then d.push 0 else d

/-- Appends an opcode. -/
def op (d : Draft) (code : UInt8) : Draft :=
  { d with lastOp := d.offset }.push code

/-- Appends a word at the next even offset. -/
def word (d : Draft) (w : Word) : Draft :=
  let (first, second) := d.order.split w
  (d.align.push first).push second

/-- Appends a jump instruction with an open displacement. -/
def branch (d : Draft) (code : UInt8) (label : Label) : Draft :=
  let d := d.op code
  { d with branches := (d.offset, label) :: d.branches }.push 0

/-- Appends an open case word. -/
def caseWord (d : Draft) (label : Label) : Draft :=
  ({ d with caseWords := (d.offset, label) :: d.caseWords }.push 0).push 0

/-- Carries out a directive. -/
def apply (d : Draft) : Directive → Draft
  | .op code => d.op code
  | .byte v => d.push v
  | .big w =>
    if w < 0x80 then d.push w.toUInt8
    else (d.push ((0x80 : UInt8) ||| (w >>> 8).toUInt8)).push w.toUInt8
  | .word w => d.word w
  | .align => d.align
  | .text cs => cs.foldl push (d.push (UInt8.ofNat cs.length))
  | .bind label => { d with bindings := (label, d.offset) :: d.bindings }
  | .exit => { d with exit := some d.offset }
  | .branch code label => d.branch code label
  | .cases low high default targets =>
    let d := ((d.op Opcode.xjp.code).word (Word.ofSigned low)).word (Word.ofSigned high)
    targets.foldl caseWord (d.branch Opcode.ujp.code default)

/-- The offset of a label. -/
def resolve (d : Draft) (label : Label) : Except AssemblyError Nat :=
  match d.bindings.lookup label with
  | some target => .ok target
  | none => .error (.unboundLabel label)

end Draft

/-! ## Resolution -/

namespace Body

/-- The largest number of jump table entries that a displacement can name. -/
def maxTargets : Nat := 60

/-- The index of a target in the jump table, which gets a new entry if need be. -/
def tableIndex (table : List Nat) (target : Nat) : Nat × List Nat :=
  match table.idxOf? target with
  | some i => (i, table)
  | none => (table.length, table ++ [target])

/-- The displacement byte at `i` for a jump to `target`, and the jump table afterwards. -/
def displacement (table : List Nat) (i target : Nat) :
    Except AssemblyError (UInt8 × List Nat) :=
  if i + 1 ≤ target ∧ target ≤ i + 128 then .ok (UInt8.ofNat (target - (i + 1)), table)
  else
    let (index, table) := tableIndex table target
    if index < maxTargets then .ok (UInt8.ofNat (256 - (10 + 2 * index)), table)
    else .error .tooManyTargets

/-- Fills in displacement bytes, collecting the jump table. -/
def fillBranches (d : Draft) :
    List (Nat × Label) → Array UInt8 → List Nat → Except AssemblyError (Array UInt8 × List Nat)
  | [], code, table => .ok (code, table)
  | (i, label) :: rest, code, table => do
    let target ← d.resolve label
    let (byte, table) ← displacement table i target
    fillBranches d rest (code.setIfInBounds i byte) table

/-- Fills in case words: the distance back from a word to its target. -/
def fillCases (d : Draft) :
    List (Nat × Label) → Array UInt8 → Except AssemblyError (Array UInt8)
  | [], code => .ok code
  | (i, label) :: rest, code => do
    let target ← d.resolve label
    let (first, second) := d.order.split (Word.ofSigned ((i : Int) - target))
    fillCases d rest ((code.setIfInBounds i first).setIfInBounds (i + 1) second)

/-- Closes all jumps of a draft. -/
def ofDraft (d : Draft) : Except AssemblyError Body := do
  let (code, table) ← fillBranches d d.branches.reverse d.code []
  let code ← fillCases d d.caseWords.reverse code
  return { code := code.toList, jumpTable := table, exit := d.exit.getD d.lastOp }

/-- Assembles a list of directives. -/
def assemble (order : ByteOrder) (directives : List Directive) : Except AssemblyError Body :=
  ofDraft (directives.foldl Draft.apply { order := order })

end Body
end PSystem
