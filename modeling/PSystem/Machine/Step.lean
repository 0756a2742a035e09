import PSystem.Machine.Access
import PSystem.Machine.Jump
import PSystem.Machine.Standard

/-!
# Execution

`execute` carries out one instruction.  `step` does so and hands a fault to the program's own
handler, which is procedure 2 of segment 0: the fault's code, the address of the instruction and
the current frame are put in the communication block and the handler is called.  A fault that
occurs before the handler has returned is not delivered again but stops the machine.
-/

namespace PSystem
namespace Machine

/-! ## One instruction -/

/-- Calls a procedure of the current segment. -/
def callHere : Run Machine Unit := do
  let procedure ← fetchByte
  let _ ← call (← get).seg procedure

/-- A breakpoint, which stops the machine only if the host asked for that. -/
def breakpoint : Run Machine Unit := do
  let line ← fetchBig
  if (← get).config.breakpoints then throw (.breakpoint line)

/-- Fetches a level count and a word number. -/
def fetchIntermediate : Run Machine Mode := do
  let levels ← fetchByte
  let n ← fetchBig
  return .intermediate levels n

/-- Fetches a segment and a word number. -/
def fetchExternal : Run Machine Mode := do
  let segment ← fetchByte
  let n ← fetchBig
  return .external segment n

/-- Carries out an instruction of the table. -/
def executeTable : Opcode → Exec Unit
  -- Constants
  | .ldcn => push 0
  | .ldci => do push (← fetchWord)
  | .ldc => loadConstants
  | .lsa => loadText false
  | .lpa => loadText true
  -- Loads and stores
  | .ldl => do load (.inner (← fetchBig))
  | .lla => do loadAddress (.inner (← fetchBig))
  | .stl => do storeAt (.inner (← fetchBig))
  | .ldo => do load (.outermost (← fetchBig))
  | .lao => do loadAddress (.outermost (← fetchBig))
  | .sro => do storeAt (.outermost (← fetchBig))
  | .lod => do load (← fetchIntermediate)
  | .lda => do loadAddress (← fetchIntermediate)
  | .str => do storeAt (← fetchIntermediate)
  | .lde => do load (← fetchExternal)
  | .lae => do loadAddress (← fetchExternal)
  | .ste => do storeAt (← fetchExternal)
  | .ind => do load (.indirect (← fetchBig))
  | .inc => do loadAddress (.indirect (← fetchBig))
  | .sto => do storeAt (.indirect 0)
  | .mov => moveWords
  | .ldm => loadWords
  | .stm => storeWords
  | .ldb => loadByte
  | .stb => storeByte
  | .ldp => loadPacked
  | .stp => storePacked
  | .ixp => indexPacked
  | .ixa => indexArray
  -- Integers and truth values
  | .abi => unaryWord fun a => Word.ofSigned (Word.signed a).natAbs
  | .adi => binaryWord (· + ·)
  | .ngi => unaryWord fun a => 0 - a
  | .sbi => binaryWord (· - ·)
  | .mpi => binaryWord (· * ·)
  | .sqi => unaryWord fun a => a * a
  | .dvi => divideInt Int.tdiv
  | .modi => divideInt Int.tmod
  | .chk => checkRange
  | .land => binaryWord (· &&& ·)
  | .lor => binaryWord (· ||| ·)
  | .lnot => unaryWord (~~~ ·)
  | .equi => compareInt .eq
  | .neqi => compareInt .ne
  | .lesi => compareInt .lt
  | .leqi => compareInt .le
  | .grti => compareInt .gt
  | .geqi => compareInt .ge
  -- Reals
  | .abr => unaryReal Single.abs
  | .adr => binaryReal Single.add
  | .ngr => unaryReal Single.neg
  | .sbr => binaryReal Single.sub
  | .mpr => binaryReal Single.mul
  | .sqr => unaryReal fun a => a.mul a
  | .dvr => divideReal
  | .flt => floatTop
  | .flo => floatBelow
  -- Typed comparisons
  | .equ => compareTyped .eq
  | .neq => compareTyped .ne
  | .les => compareTyped .lt
  | .leq => compareTyped .le
  | .grt => compareTyped .gt
  | .geq => compareTyped .ge
  -- Sets
  | .adj => adjustSet
  | .srs => rangeSet
  | .sgs => singletonSet
  | .inn => testMember
  | .uni => binarySet WordSet.union
  | .int => binarySet WordSet.inter
  | .dif => binarySet WordSet.diff
  -- Strings
  | .sas => do assignString (← fetchByte)
  | .ixs => checkStringIndex
  -- Jumps
  | .ujp => jump .always
  | .fjp => jump .onFalse
  | .efj => jump .onUnequal
  | .nfj => jump .onEqual
  | .xjp => caseJump
  -- Calls and returns
  | .clp | .cgp | .cip | .cbp => callHere
  | .cxp => do
    let segment ← fetchByte
    let procedure ← fetchByte
    callExternal segment procedure
  | .rnp => do returnFrom (← fetchByte) false
  | .rbp => do returnFrom (← fetchByte) true
  | .csp => callStandard
  -- Others
  | .bpt => breakpoint
  | .xit => throw (.trap .halt)
  | .nop => pure ()

/-- Carries out the instruction of an opcode byte that has been fetched. -/
def execute (opcode : UInt8) : Exec Unit :=
  match Encoding.ofCode opcode with
  | .shortConstant n => push n.toUInt16
  | .shortLocal n => load (.inner n.toUInt16)
  | .shortGlobal n => load (.outermost n.toUInt16)
  | .shortIndirect n => load (.indirect n.toUInt16)
  | .unused code => throw (.trap (.unimplemented (.opcode code)))
  | .table op => executeTable op

/-- Fetches and carries out one instruction. -/
def executeNext : Exec Unit := do
  let opcode ← fetchByte
  execute opcode

/-! ## Traps -/

/-- The procedure of segment 0 that handles faults. -/
def handlerProcedure : UInt8 := 2

/-- Whether the program has a handler. -/
def hasHandler (m : Machine) : Bool :=
  match m.segments.procedureCount m.memory 0 with
  | .ok count => handlerProcedure ≤ count
  | .error _ => false

/-- Hands a fault to the program's handler. -/
def deliver (fault : Fault) : Exec Unit := do
  let m ← get
  if m.trapDepth.isSome then throw (.panic (.whileHandling fault))
  if !m.config.deliverTraps || !m.hasHandler then throw (.trap fault)
  onMemory (Syscom.recordTrap fault m.currentAddress m.mp)
  modify fun m => { m with trapDepth := some m.depth }
  let _ ← call 0 handlerProcedure

/-! ## Steps -/

/-- The state in which an instruction starts: a trap counts as handled once the depth has fallen
back to the one at which it was delivered. -/
def prepare (m : Machine) : Machine :=
  let handled := match m.trapDepth with
    | some d => decide (m.depth ≤ d)
    | none => false
  { m with
    trapDepth := if handled then none else m.trapDepth
    currentAddress := m.nextAddress }

/-- What follows the outcome of an instruction. -/
def conclude : Except Stop Unit → Exec Unit
  | .ok () => modify record
  | .error (.trap .halt) => modify fun m => { m with halted := true }.record
  | .error (.trap (.breakpoint line)) => do
    modify record
    throw (.trap (.breakpoint line))
  | .error (.trap fault) => do
    deliver fault
    modify record
  | .error stop => throw stop

/-- Executes one instruction, unless the machine has halted, and delivers a fault it raises. -/
def step : Exec Unit := fun m =>
  if m.halted then .ok () m
  else
    match executeNext m.prepare with
    | .ok () m => conclude (.ok ()) { m with instructions := m.instructions + 1 }
    | .error stop m => conclude (.error stop) { m with instructions := m.instructions + 1 }

/-- Executes at most `n` instructions, until the machine has halted. -/
def runFor : Nat → Exec Unit
  | 0 => pure ()
  | n + 1 => do
    if !(← get).halted then
      step
      runFor n

end Machine
end PSystem
