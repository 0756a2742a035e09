import PSystem.CommandLine.Options
import PSystem.Machine.Boot
import PSystem.Viewer.Browser

/-!
# Sessions

A session mounts the disks that the command line names, starts the machine, runs it and reports how
it ended.  A machine that stops by a fault or in an impossible state leaves its memory in a file.
-/

namespace PSystem
namespace Session

/-- The limit of the history if the command line sets none. -/
def defaultSnapshotLimit : Nat :=
  256 * 1024 * 1024

/-- The file that the memory is left in. -/
def coreFile : String :=
  "pmachine.core"

/-- Why a session cannot begin. -/
inductive SetupError where
  | mount (spec : MountSpec) (error : StorageError)
  | input (path : String)
  | boot (stop : Stop)
  deriving DecidableEq, Repr

namespace SetupError

/-- The wording of an error. -/
def message : SetupError → String
  | mount spec e => s!"cannot mount {spec.path} on unit {spec.unit}: " ++ e.message
  | input path => "cannot read " ++ path
  | boot s => s.message

end SetupError

/-- What a session leaves behind. -/
structure Report where
  exitCode : UInt8
  /-- What the host's output shows. -/
  output : Bytes
  files : HostFiles

/-- Puts the disks on their units, in order. -/
def mountAll (storage : Storage) : List MountSpec → Except SetupError Storage
  | [] => .ok storage
  | spec :: rest =>
    match storage.mount spec.unit spec.path spec.mode with
    | .ok storage => mountAll storage rest
    | .error e => .error (.mount spec e)

/-- The console: the host's, or one with scripted input for the viewer. -/
def console (options : Options) (files : HostFiles) (input : Bytes) : Except SetupError Console :=
  if options.viewer then
    match options.input with
    | none => .ok (Console.ofInput [])
    | some path =>
      match files.get? path with
      | some data => .ok (Console.ofInput data)
      | none => .error (.input path)
  else .ok (Console.ofHost input)

/-- A machine with its disks and its console, before booting. -/
def machine (options : Options) (files : HostFiles) (input : Bytes) (host : HostView) :
    Except SetupError Machine := do
  let storage ← mountAll { Storage.empty with files } options.mounts
  let console ← console options files input
  let limit := options.snapshotLimit.getD defaultSnapshotLimit
  return Machine.create storage console { deliverTraps := !options.noTraps } host
    (if options.viewer then some limit else none)

/-- A machine that is ready to run. -/
def start (options : Options) (files : HostFiles) (input : Bytes) (host : HostView) :
    Except SetupError Machine := do
  match Machine.boot options.bootUnit options.systemFile (← machine options files input host) with
  | .ok () m => .ok m
  | .error e _ => .error (.boot e)

/-- Whether a stop leaves the memory in a file. -/
def isFatal : Stop → Bool
  | .trap _ | .panic _ => true
  | .boot _ | .endless => false

/-- The files after a run. -/
def filesAfter (m : Machine) : Option Stop → HostFiles
  | some stop =>
    if isFatal stop then m.storage.files.insert coreFile m.memory.image.data.toList
    else m.storage.files
  | none => m.storage.files

/-- The report on a machine that has halted or stopped. -/
def finish (m : Machine) (stop : Option Stop) : Report where
  exitCode := if stop.isSome then 1 else 0
  output := m.console.output.toList.map Console.toHost
  files := filesAfter m stop

/-- A viewer over a machine that has halted or stopped. -/
def viewer (m : Machine) (stop : Option Stop) : Viewer :=
  Viewer.ofRun m.history m.console.output.toList (stop.map (·.message))

end Session
end PSystem
