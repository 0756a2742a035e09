import PSystem.CommandLine.Mount

/-!
# Options of the command line

Options have long names.  Some take a value, after an equals sign or as the next argument; an
argument that starts with a hyphen is never such a value.  A value is checked when the option after
it begins, or at the end, so that an unknown option is reported before a bad value in front of it.
-/

namespace PSystem

/-- The options that the program knows. -/
inductive OptionName where
  | mount
  | bootUnit
  | systemFile
  | trace
  | noTraps
  | viewer
  | input
  | snapshotLimit
  | help
  deriving DecidableEq, Repr

namespace OptionName

/-- An option as it is written, without its hyphens. -/
def text : OptionName → String
  | mount => "mount"
  | bootUnit => "boot-unit"
  | systemFile => "system-file"
  | trace => "trace"
  | noTraps => "no-traps"
  | viewer => "viewer"
  | input => "input"
  | snapshotLimit => "snapshot-limit"
  | help => "help"

/-- All options, in the order of the help text. -/
def all : List OptionName :=
  [mount, bootUnit, systemFile, trace, noTraps, viewer, input, snapshotLimit, help]

/-- The option that is written in a given way. -/
def ofText? (s : String) : Option OptionName :=
  all.find? (·.text == s)

/-- Whether an option takes a value. -/
def takesValue : OptionName → Bool
  | mount | bootUnit | systemFile | input | snapshotLimit => true
  | trace | noTraps | viewer | help => false

/-- What stands for the value of an option in the help text. -/
def placeholder : OptionName → String
  | mount => " <MOUNTS>"
  | bootUnit => " <BOOT_UNIT>"
  | systemFile => " <SYSTEM_FILE>"
  | input => " <INPUT>"
  | snapshotLimit => " <SNAPSHOT_LIMIT>"
  | trace | noTraps | viewer | help => ""

/-- What an option is for. -/
def purpose : OptionName → String
  | mount => "Attach a disk image: UNIT=PATH[:ro|rw|forget] (repeatable)"
  | bootUnit => "Unit holding the system file [default: 4]"
  | systemFile => "Name of the system code file on the boot unit [default: SYSTEM.PASCAL]"
  | trace => "Log every executed instruction"
  | noTraps => "Return execution errors instead of calling the system's handler"
  | viewer => "Record every instruction and browse the run in the trace viewer"
  | input => "Scripted console input for the viewer"
  | snapshotLimit => "Snapshot memory budget in bytes"
  | help => "Print help"

/-- An option is read back from its text. -/
@[simp] theorem ofText?_text (o : OptionName) : ofText? o.text = some o := by
  cases o <;> decide

end OptionName

/-- What the command line asks for. -/
structure Options where
  mounts : List MountSpec := []
  bootUnit : Word := 4
  systemFile : String := "SYSTEM.PASCAL"
  trace : Bool := false
  noTraps : Bool := false
  viewer : Bool := false
  /-- The file with the console input of the viewer. -/
  input : Option String := none
  snapshotLimit : Option Nat := none
  deriving DecidableEq, Repr

/-- Why the command line asks for nothing that can be done. -/
inductive OptionError where
  /-- The help text is asked for. -/
  | helpAsked
  | noMount
  | unknown (argument : String)
  | noValue (option : OptionName)
  | badValue (option : OptionName) (value : String)
  | repeated (option : OptionName)
  /-- A value after an option that takes none. -/
  | needlessValue (option : OptionName)
  deriving DecidableEq, Repr

namespace OptionError

/-- The wording of an error. -/
def message : OptionError → String
  | helpAsked => "help requested"
  | noMount => "the option --mount is required"
  | unknown argument => "unexpected argument '" ++ argument ++ "'"
  | noValue o => "a value is required for --" ++ o.text
  | badValue o value => "invalid value '" ++ value ++ "' for --" ++ o.text
  | repeated o => "the option --" ++ o.text ++ " cannot be used multiple times"
  | needlessValue o => "unexpected value for --" ++ o.text

end OptionError

namespace Options

/-- The largest snapshot limit. -/
def maxSnapshotLimit : Nat :=
  0xFFFFFFFFFFFFFFFF

/-- Sets an option that takes no value. -/
def enable (o : OptionName) (options : Options) : Options :=
  match o with
  | .trace => { options with trace := true }
  | .noTraps => { options with noTraps := true }
  | .viewer => { options with viewer := true }
  | .mount | .bootUnit | .systemFile | .input | .snapshotLimit | .help => options

/-- Sets an option to a value. -/
def assign (o : OptionName) (value : String) (options : Options) : Except OptionError Options :=
  let number (n : Option Nat) : Except OptionError Nat :=
    match n with
    | some n => .ok n
    | none => .error (.badValue o value)
  match o with
  | .mount =>
    match MountSpec.parse value with
    | .ok spec => .ok { options with mounts := options.mounts ++ [spec] }
    | .error _ => .error (.badValue o value)
  | .bootUnit => do
    let n ← number (Numeral.signedUpTo? 0xFFFF value.toList)
    return { options with bootUnit := UInt16.ofNat n }
  | .systemFile => .ok { options with systemFile := value }
  | .input =>
    if value.isEmpty then .error (.noValue o) else .ok { options with input := some value }
  | .snapshotLimit => do
    let n ← number (Numeral.upTo? maxSnapshotLimit value.toList)
    return { options with snapshotLimit := some n }
  | .trace | .noTraps | .viewer | .help => .ok options

/-! ## Reading arguments -/

/-- The state between two arguments. -/
structure Reading where
  options : Options := {}
  /-- The options given so far. -/
  given : List OptionName := []
  /-- The last option that takes a value, with the value if it has come. -/
  pending : Option (OptionName × Option String) := none
  /-- Whether the options have been ended by two hyphens. -/
  closed : Bool := false

namespace Reading

/-- Notes that an option is given; only mounts may be given more than once. -/
def note (o : OptionName) (r : Reading) : Except OptionError Reading :=
  if o ≠ .mount ∧ o ∈ r.given then .error (.repeated o)
  else .ok { r with given := o :: r.given }

/-- Gives an option a value. -/
def supply (o : OptionName) (value : String) (r : Reading) : Except OptionError Reading := do
  let r ← r.note o
  return { r with options := ← assign o value r.options }

/-- Completes the last option. -/
def complete (r : Reading) : Except OptionError Reading :=
  match r.pending with
  | none => .ok r
  | some (o, none) => .error (.noValue o)
  | some (o, some value) => supply o value { r with pending := none }

/-- Begins an option, perhaps with a value after an equals sign. -/
def begin (o : OptionName) (value : Option String) (r : Reading) : Except OptionError Reading :=
  match o.takesValue, value with
  | true, some v => do supply o v (← r.complete)
  | true, none => do return { (← r.complete) with pending := some (o, none) }
  | false, some _ => .error (.needlessValue o)
  | false, none => do
    let r ← r.complete
    if o = .help then .error .helpAsked
    else
      let r ← r.note o
      return { r with options := enable o r.options }

/-- An argument that starts with two hyphens and goes on. -/
def long (argument : String) (name : List Char) (r : Reading) : Except OptionError Reading :=
  let (name, value) :=
    match MountSpec.splitFirst? '=' name with
    | some (name, value) => (name, some (String.ofList value))
    | none => (name, none)
  match OptionName.ofText? (String.ofList name) with
  | some o => r.begin o value
  | none => .error (.unknown argument)

/-- An argument that is no option: the value of the last option, if that has none yet. -/
def plain (argument : String) (r : Reading) : Except OptionError Reading :=
  match r.pending with
  | some (o, none) => .ok { r with pending := some (o, some argument) }
  | _ => .error (.unknown argument)

/-- Reads one argument. -/
def read (r : Reading) (argument : String) : Except OptionError Reading :=
  if r.closed then .error (.unknown argument)
  else
    match argument.toList with
    | ['-', '-'] => .ok { r with closed := true }
    | '-' :: '-' :: name => r.long argument name
    | '-' :: 'h' :: _ => r.begin .help none
    | '-' :: _ :: _ => .error (.unknown argument)
    | _ => r.plain argument

end Reading

/-- Reads the arguments after the name of the program. -/
def parse (arguments : List String) : Except OptionError Options := do
  let r ← arguments.foldlM Reading.read {}
  let r ← r.complete
  if r.options.mounts.isEmpty then .error .noMount else .ok r.options

/-! ## Help -/

/-- The help text. -/
def help : String :=
  let line (o : OptionName) : String :=
    (if o = .help then "  -h, --" else "      --") ++ o.text ++ o.placeholder ++ "\n          "
      ++ o.purpose ++ "\n"
  "Boot a UCSD p-System disk image on an emulated p-machine\n\n"
    ++ "Usage: pmachine [OPTIONS] --mount <MOUNTS>\n\nOptions:\n"
    ++ String.join (OptionName.all.map line)

end Options
end PSystem
