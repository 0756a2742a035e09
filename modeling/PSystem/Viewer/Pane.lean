import PSystem.Console
import PSystem.History
import PSystem.Viewer.Screen

/-!
# The panes of the viewer

Each pane shows one aspect of a snapshot: the code around the next instruction, the registers with
the top of the evaluation stack, the active frames, or the console.  The last three scroll: the
offset of the first line shown is kept by the viewer, and drawing moves it back so that the pane
stays full.  Below the panes a status bar shows the position in the run and the keys.
-/

namespace PSystem
namespace Pane

open Screen (justifyLeft justifyRight)

/-- The number of lines that a pane counts with: at least one, even if there is no room for it. -/
def lineCount (height : Nat) : Nat :=
  max (height - 2) 1

/-- The offset of the first line shown, such that the last page is full. -/
def clamp (scroll total shown : Nat) : Nat :=
  if shown < total then min scroll (total - shown) else 0

/-- A pane that scrolls: the screen and the offset after drawing. -/
def scrolling (width height : Nat) (title : String) (lines : List String) (scroll : Nat) :
    Screen × Nat :=
  let shown := lineCount height
  let offset := clamp scroll lines.length shown
  (Screen.indented width height title ((lines.drop offset).take shown), offset)

/-! ## Code -/

/-- The spans of a line of code, marked if it comes next. -/
def codeSpans (next : Address) : Address × UInt8 × String → List String
  | (address, _, text) =>
    let mnemonic := text.toList.takeWhile (· != ' ')
    let operands := String.ofList (text.toList.drop (mnemonic.length + 1))
    [if address = next then "▶ " else "  ", Hex.pad 4 address.toNat ++ "  ",
      justifyLeft 5 (String.ofList mnemonic)]
      ++ (if operands.isEmpty then [] else [" ", operands])

/-- The first line of code shown: the next instruction stays near the middle. -/
def codeStart (current total shown : Nat) : Nat :=
  min (current - shown / 2) (total - shown)

/-- The code pane. -/
def code (width height : Nat) : Option Snapshot → Screen
  | none => Screen.remark width height " Code " "(no code)"
  | some s =>
    let title := s!" Code · segment {s.registers.seg} "
    if s.code.isEmpty then Screen.remark width height title "(no code)"
    else
      let shown := lineCount height
      let next := s.registers.nextAddress
      let current := (s.code.findIdx? (·.1 == next)).getD 0
      let lines := (s.code.drop (codeStart current s.code.length shown)).take shown
      Screen.box width height title
        (lines.map fun line => Row.ofSpans (width - 2) (codeSpans next line))

/-! ## Registers and stack -/

/-- A line of named values. -/
def registerLine (pairs : List (String × String)) : String :=
  String.join (pairs.map fun (name, value) => justifyRight 4 name ++ " " ++ justifyLeft 6 value)

/-- The registers of a snapshot. -/
def registerLines (s : Snapshot) : List String :=
  let r := s.registers
  [registerLine
     [("sp", Hex.pad 4 r.sp.toNat), ("mp", Hex.pad 4 r.mp.toNat),
      ("base", Hex.pad 4 r.base.toNat)],
   registerLine
     [("psp", Hex.pad 4 r.psp.toNat), ("np", Hex.pad 4 r.np.toNat),
      ("jtab", Hex.pad 4 r.jtab.toNat)],
   registerLine
     [("seg", toString r.seg), ("ipc", Hex.pad 4 r.ipc.toNat), ("dep", toString s.depth)]]

/-- A word of the evaluation stack, as a number in two bases and as a character if it is one. -/
def wordLine (index : Nat) (w : Word) : String :=
  let printed :=
    if 0x20 ≤ w.toNat ∧ w.toNat ≤ 0x7E then "'" ++ (Char.ofNat w.toNat).toString ++ "'" else ""
  justifyRight 3 (toString index) ++ "  " ++ Hex.pad 4 w.toNat ++ "  "
    ++ justifyRight 6 (toString w.signed) ++ "  " ++ printed

/-- All lines about the registers and the stack. -/
def stackLines (s : Snapshot) : List String :=
  registerLines s ++ [""] ++ (if s.stack.isEmpty then ["(stack empty)"] else [])
    ++ s.stack.mapIdx wordLine

/-- The pane of the registers and the stack. -/
def stack (width height : Nat) (snapshot : Option Snapshot) (scroll : Nat) : Screen × Nat :=
  let title := " Registers & Stack "
  match snapshot with
  | none => (Screen.remark width height title "(not started)", scroll)
  | some s => scrolling width height title (stackLines s) scroll

/-! ## Frames -/

/-- A line about an activation. -/
def frameLine (f : FrameSummary) : String :=
  s!"{f.segment}." ++ justifyLeft 3 (toString f.procedure)
    ++ " lex " ++ justifyLeft 3 (toString f.level)
    ++ " mp " ++ Hex.pad 4 f.mp.toNat ++ " ipc " ++ Hex.pad 4 f.ipc.toNat

/-- The pane of the active frames. -/
def frames (width height : Nat) (snapshot : Option Snapshot) (scroll : Nat) : Screen × Nat :=
  let title := " Frames "
  let active := (snapshot.map (·.frames)).getD []
  if active.isEmpty then (Screen.remark width height title "(no active procedures)", scroll)
  else scrolling width height title (active.map frameLine) scroll

/-! ## Console -/

/-- The pane of the console. -/
def console (width height : Nat) (transcript : Bytes) (scroll : Nat) : Screen × Nat :=
  let title := " Console "
  let lines := Console.lines transcript
  if lines.isEmpty then (Screen.remark width height title "(no output)", scroll)
  else scrolling width height title lines scroll

/-! ## Status bar -/

/-- What the keys do. -/
def keyHelp : String :=
  " ←/→  step │  ⎵  play │  ↵ / ⌫  end/start │ q quit "

/-- A word about the position in the run. -/
def badge (step total : Nat) (playing : Bool) : String :=
  if playing then "│ ▶ PLAYING "
  else if total ≤ step + 1 then "│ END "
  else if step = 0 then "│ START "
  else ""

/-- The position in the run and a message. -/
def statusText (message : String) (step total : Nat) : String :=
  (if total = 0 then " Step 0/0 " else s!" Step {step + 1}/{total} ") ++ " |  " ++ message ++ " "

/-- The status bar: message at the left, keys at the right; further rows are blank. -/
def status (width height : Nat) (message : String) (step total : Nat) (playing : Bool) : Screen :=
  let left := Screen.share 50 width
  let right := width - left
  match height with
  | 0 => []
  | below + 1 =>
    (Row.left left (statusText message step total)
        ++ Row.right right (keyHelp ++ badge step total playing))
      :: Screen.blank width below

end Pane
end PSystem
