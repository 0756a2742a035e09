import PSystem.Console
import PSystem.EvalStack
import PSystem.Heap
import PSystem.History
import PSystem.Segment
import PSystem.Storage
import PSystem.Syscom

/-!
# The machine

The machine has the store that evaluation works on, the heap, the overlay table, the disks and the
console, and the registers of the current activation.  Instructions that can only raise faults are
computations in `Run Machine`; what can stop the whole machine is a computation in `Exec`.
-/

namespace PSystem

/-! ## How a machine stops -/

/-- Why the machine finds itself in an impossible state. -/
inductive PanicCause where
  /-- A return from a base procedure found an impossible base frame. -/
  | corruptBase (base : Address)
  /-- A fault inside the trap handler. -/
  | whileHandling (fault : Fault)
  | reported (text : String)
  deriving DecidableEq, Repr

namespace PanicCause

/-- The wording of a cause. -/
def message : PanicCause → String
  | corruptBase a => "corrupt base pointer 0x" ++ Hex.pad 4 a.toNat ++ " on return"
  | whileHandling f => f.message ++ " raised while handling a trap"
  | reported text => text

end PanicCause

/-- Why the system cannot be started. -/
inductive BootFailure where
  | storage (error : StorageError)
  /-- Block 0 of the system file is shorter than a dictionary. -/
  | shortDictionary (found : Nat)
  /-- The system file has no segment 0. -/
  | noKernel (file : String)
  | loading (fault : Fault)
  | loadingExtension (fault : Fault)
  | reported (text : String)
  deriving DecidableEq, Repr

namespace BootFailure

/-- The wording of a failure. -/
def message : BootFailure → String
  | storage e => e.message
  | shortDictionary found => s!"segment dictionary needs {Dictionary.size} bytes, found {found}"
  | noKernel file => s!"{file} has no segment 0"
  | loading f => "loading segment 0: " ++ f.message
  | loadingExtension f => "loading segment 0 extension: " ++ f.message
  | reported text => text

end BootFailure

/-- How a computation of the machine ends if it does not succeed. -/
inductive Stop where
  /-- A fault that no handler took. -/
  | trap (fault : Fault)
  | panic (cause : PanicCause)
  | boot (failure : BootFailure)
  /-- A walk along frame links that run in a circle, which has no end. -/
  | endless
  deriving DecidableEq, Repr

namespace Stop

/-- The one-line text of a stop. -/
def message : Stop → String
  | trap f => s!"unhandled execution error {f.code.toNat}: " ++ f.message
  | panic cause => "p-machine panic: " ++ cause.message
  | boot failure => "boot failed: " ++ failure.message
  | endless => "frame links run in a circle"

end Stop

/-! ## State -/

/-- What the host chooses about a machine. -/
structure Config where
  /-- Faults are handed to the program's own handler. -/
  deliverTraps : Bool := true
  /-- Breakpoint instructions stop the machine. -/
  breakpoints : Bool := false
  deriving DecidableEq, Repr, Inhabited

/-- A procedure bound to the host, by segment name and number.  It works on the memory and the evaluation stack,
as the procedures do that the machine binds itself; a host that handed the whole machine to its procedures could
also change registers, the overlay table and the disks, which is outside of this model. -/
structure BoundProcedure where
  segment : String
  procedure : UInt8
  run : Run Store Unit

/-- The whole machine. -/
structure Machine where
  store : Store
  heap : Heap
  segments : SegmentTable
  storage : Storage
  console : Console
  bound : List BoundProcedure
  config : Config
  host : HostView
  /-- Program stack pointer: frames and segments lie above it. -/
  psp : Address
  /-- The current frame. -/
  mp : Address
  /-- The frame of the innermost base procedure. -/
  base : Address
  /-- The current segment. -/
  seg : UInt8
  /-- The attribute table of the current procedure. -/
  jtab : Address
  /-- The offset of the next instruction from `ipcBase`. -/
  ipc : Word
  /-- The entry point of the current procedure. -/
  ipcBase : Address
  /-- The number of active frames. -/
  depth : Nat
  /-- The result of the last unit transfer. -/
  ioResult : Word
  /-- The depth at which the trap being handled was delivered. -/
  trapDepth : Option Nat
  /-- The address of the instruction being executed. -/
  currentAddress : Address
  halted : Bool
  /-- The number of instructions executed. -/
  instructions : Nat
  history : Option History

/-- A computation of the machine that may stop it. -/
abbrev Exec (α : Type) := EStateM Stop Machine α

namespace Machine

/-- The highest address of the program stack, exclusive. -/
def programTop : Address := 0xF000

/-- The number of evaluation stack words in a snapshot. -/
def snapshotWords : Nat := 32

/-- The number of code lines in a snapshot. -/
def snapshotLines : Nat := 24

/-- The registers as one value. -/
def registers (m : Machine) : Registers where
  psp := m.psp
  sp := m.store.sp
  mp := m.mp
  base := m.base
  seg := m.seg
  jtab := m.jtab
  ipc := m.ipc
  ipcBase := m.ipcBase
  np := m.heap.np

/-- The memory of the machine. -/
def memory (m : Machine) : Memory :=
  m.store.memory

/-- The address of the next instruction byte. -/
def nextAddress (m : Machine) : Address :=
  m.ipcBase + m.ipc

/-- The machine once the host shows something else.  The devices of the communication block, which are all the
devices that a machine has, show it from then on. -/
def observe (m : Machine) (host : HostView) : Machine :=
  { m with
    store := { m.store with memory := m.store.memory.withDevices (Syscom.devices host) }
    host := host }

/-- Binds a procedure to the host, in place of an earlier binding. -/
def bind (m : Machine) (segment : String) (procedure : UInt8) (run : Run Store Unit) : Machine :=
  { m with
    bound := { segment := String.ofList (segment.toList.map Char.toUpper), procedure, run } :: m.bound }

/-! ## Parts of the state -/

/-- Runs a computation on the store. -/
def onStore {α : Type} (x : Run Store α) : Run Machine α := fun m =>
  match x m.store with
  | .ok a s => .ok a { m with store := s }
  | .error e s => .error e { m with store := s }

/-- Runs a computation on the memory. -/
def onMemory {α : Type} (x : Run Memory α) : Run Machine α :=
  onStore (Store.onMemory x)

/-- A value or fault as a step of a computation. -/
def orFault {α : Type} : Except Fault α → Run Machine α
  | .ok a => pure a
  | .error e => throw e

/-- Runs a read of the memory. -/
def reading {α : Type} (f : Memory → Except Fault α) : Run Machine α := do
  orFault (f (← get).memory)

/-- The outcome of a computation, whose effects stay in either case. -/
def attempt {α : Type} (x : Run Machine α) : Run Machine (Except Fault α) := fun m =>
  match x m with
  | .ok a m => .ok (.ok a) m
  | .error e m => .ok (.error e) m

/-- A fault that stops the machine unless someone takes it. -/
def raising {α : Type} (x : Run Machine α) : Exec α := fun m =>
  match x m with
  | .ok a m => .ok a m
  | .error e m => .error (.trap e) m

instance : MonadLift (EStateM Fault Machine) (EStateM Stop Machine) where
  monadLift x := raising x

/-- Pushes a word. -/
def push (w : Word) : Run Machine Unit :=
  onStore (Store.push w)

/-- Pops a word. -/
def pop : Run Machine Word :=
  onStore Store.pop

/-- Pushes an integer. -/
def pushInt (v : Int) : Run Machine Unit :=
  onStore (Store.pushInt v)

/-- Pops an integer. -/
def popInt : Run Machine Int :=
  onStore Store.popInt

/-- Pushes a truth value. -/
def pushBool (b : Bool) : Run Machine Unit :=
  onStore (Store.pushBool b)

end Machine
end PSystem
