import PSystem.Machine.Step

/-!
# Starting the machine

Booting finds the system file on a unit, takes the byte order and the overlay table from its
dictionary, sets up the communication block, loads segment 0 and calls its first procedure.
-/

namespace PSystem
namespace Machine

/-- A machine with nothing loaded. -/
def create (storage : Storage) (console : Console) (config : Config) (host : HostView)
    (historyLimit : Option Nat) : Machine where
  store :=
    { Store.empty with memory := (Memory.empty.reserve 0x02 0x7F).reserve 0xFFF0 0xFFFF }
  heap := Heap.empty
  segments := SegmentTable.empty
  storage := storage
  console := console
  bound := [{ segment := "DECOPS", procedure := 1, run := Decimal.execute }]
  config := config
  host := host
  psp := programTop
  mp := 0
  base := 0
  seg := 0
  jtab := 0
  ipc := 0
  ipcBase := 0
  depth := 0
  ioResult := 0
  trapDepth := none
  currentAddress := 0
  halted := false
  instructions := 0
  history := historyLimit.map fun limit => { limit := limit }

/-- A value or failure of storage as a step of booting. -/
def orBoot {α : Type} : Except StorageError α → Exec α
  | .ok a => pure a
  | .error e => throw (.boot (.storage e))

/-- A step of booting whose faults are failures to boot. -/
def booting {α : Type} (failure : Fault → BootFailure) (x : Run Machine α) : Exec α := fun m =>
  match x m with
  | .ok a m => .ok a m
  | .error e m => .error (.boot (failure e)) m

/-- Finds a code file and its dictionary: the first block and the dictionary. -/
def findSystem (unit : Word) (file : String) : Exec (Word × Dictionary) := do
  let storage := (← get).storage
  let extent ← orBoot (storage.locate unit file)
  let block0 ← orBoot (storage.readBlocks unit extent.firstBlock Bytes.blockSize)
  match Dictionary.parse? block0 with
  | some dictionary => return (extent.firstBlock, dictionary)
  | none => throw (.boot (.shortDictionary block0.length))

/-- Starts the system file of a unit. -/
def boot (unit : Word) (file : String) : Exec Unit := do
  let (firstBlock, dictionary) ← findSystem unit file
  onMemory (modify (·.withOrder dictionary.order))
  onMemory (Syscom.install (← get).host)
  modify fun m => { m with segments := SegmentTable.ofDictionary dictionary unit firstBlock }
  onMemory (Memory.writeWord Syscom.systemUnit unit)
  match (← get).segments.get? 0 with
  | none => throw (.boot (.noKernel file))
  | some kernel =>
    booting .loading (loadSegment 0)
    if kernel.extension.isSome then
      let _ ← booting .loadingExtension loadExtension
    let _ ← call 0 1
    modify record

end Machine
end PSystem
