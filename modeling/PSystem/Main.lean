import PSystem.CommandLine.Session
import Std.Time.DateTime.Timestamp

/-!
# The program

Reads the files and the input that a session needs, runs the machine in slices while its output is
shown, and writes the changed files back.
-/

namespace PSystem
namespace Program

/-- The number of instructions between two looks at the output. -/
def slice : Nat :=
  4096

/-- The contents of a host file, if it can be read. -/
def readFile? (path : String) : IO (Option Bytes) := do
  try
    return some (← IO.FS.readBinFile path).data.toList
  catch _ => return none

/-- Writes a host file. -/
def writeFile (path : String) (data : Bytes) : IO Unit :=
  IO.FS.writeBinFile path ⟨data.toArray⟩

/-- The host files that the options name, as far as they can be read. -/
def hostFiles (options : Options) : IO HostFiles := do
  let mut files : HostFiles := []
  for path in options.mounts.map (·.path) ++ options.input.toList do
    if let some data ← readFile? path then
      files := files.insert path data
  return files

/-- A number from the environment. -/
def environment (name : String) (otherwise : Word) : IO Word := do
  let text := (← IO.getEnv name).getD ""
  return ((Numeral.upTo? 0xFFFF text.toList).map UInt16.ofNat).getD otherwise

/-- The date and the screen of the host. -/
def hostView : IO HostView := do
  let seconds := (← Std.Time.Timestamp.now).toSecondsSinceUnixEpoch.val
  let (year, month, day) := Syscom.civilOfDays (seconds / 86400)
  let rows ← environment "LINES" 24
  let columns ← environment "COLUMNS" 80
  return { date := Syscom.packDate year month day, rows, columns }

/-- Shows what was written since `shown` bytes had been. -/
def showOutput (m : Machine) (shown : Nat) : IO Unit := do
  let out ← IO.getStdout
  out.write ⟨(m.console.output.extract shown m.console.output.size).map Console.toHost⟩
  out.flush

/-- Writes the next instruction to the log. -/
def logNext (m : Machine) : IO Unit := do
  for line in Listing.linear m.memory m.nextAddress 1 do
    IO.eprintln (Hex.pad 4 line.address.toNat ++ "  " ++ line.text)

/-- Runs a machine until it halts or stops. -/
partial def run (options : Options) (started : Nat) (m : Machine) : IO (Option Stop × Machine) := do
  if m.halted then return (none, m)
  let ticks := ((← IO.monoMsNow) - started) * 60 / 1000
  let m := m.observe { ← hostView with ticks := UInt32.ofNat ticks }
  if options.trace then logNext m
  let shown := m.console.output.size
  let (stop, m) := match Machine.runFor (if options.trace then 1 else slice) m with
    | .ok () m => (none, m)
    | .error stop m => (some stop, m)
  unless options.viewer do showOutput m shown
  match stop with
  | some stop => return (some stop, m)
  | none => run options started m

/-- Writes the files that a session has changed. -/
def writeBack (old new : HostFiles) : IO Unit :=
  for (path, data) in new do
    if old.get? path ≠ some data then
      try writeFile path data
      catch _ => IO.eprintln ("failed to write " ++ path)

/-- Shows a viewer and presses the keys that the input names, one on each line. -/
partial def browse (width height : Nat) (v : Viewer) : IO Unit := do
  let (screen, v) := v.draw width height
  for row in screen.rows do
    IO.println row
  if v.quit then return
  let line ← (← IO.getStdin).getLine
  if line.isEmpty then return
  let name := String.ofList (line.toList.filter (· != '\n'))
  browse width height (v.settle.press (Key.ofName name)).play

/-- A session with options. -/
def session (options : Options) : IO UInt32 := do
  let host ← hostView
  let files ← hostFiles options
  let input ← if options.viewer then pure [] else do
    pure (← (← IO.getStdin).readBinToEnd).data.toList
  match Session.start options files input host with
  | .error e =>
    IO.eprintln e.message
    return 1
  | .ok m =>
    let (stop, m) ← run options (← IO.monoMsNow) m
    let report := Session.finish m stop
    writeBack files report.files
    if let some stop := stop then
      IO.eprintln ("machine stopped: " ++ stop.message)
    if options.viewer then
      browse host.columns.toNat host.rows.toNat (Session.viewer m stop)
      return 0
    else return report.exitCode.toUInt32

end Program
end PSystem

/-- Runs the program with the arguments after its name. -/
def main (arguments : List String) : IO UInt32 := do
  match PSystem.Options.parse arguments with
  | .ok options => PSystem.Program.session options
  | .error .helpAsked =>
    IO.print PSystem.Options.help
    return 0
  | .error e =>
    IO.eprintln ("error: " ++ e.message)
    return 2
