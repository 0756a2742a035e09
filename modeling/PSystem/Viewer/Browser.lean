import PSystem.Viewer.Pane

/-!
# Browsing a recorded run

After a run the viewer walks along the recorded snapshots in either direction.  `Viewer.press` is
what a key does and `Viewer.draw` is the whole screen: four panes in two columns above a status bar.
-/

namespace PSystem

/-- The panes of the viewer. -/
inductive Focus where
  | code
  | console
  | stack
  | frames
  deriving DecidableEq, Repr, Inhabited

namespace Focus

/-- The name of a pane. -/
def name : Focus → String
  | code => "code"
  | console => "console"
  | stack => "stack"
  | frames => "frames"

/-- The pane after a pane. -/
def next : Focus → Focus
  | code => console
  | console => stack
  | stack => frames
  | frames => code

/-- The pane before a pane. -/
def previous : Focus → Focus
  | code => frames
  | console => code
  | stack => console
  | frames => stack

@[simp] theorem previous_next (f : Focus) : f.next.previous = f := by
  cases f <;> rfl

@[simp] theorem next_previous (f : Focus) : f.previous.next = f := by
  cases f <;> rfl

end Focus

/-- The keys that the viewer knows, and all others. -/
inductive Key where
  | left
  | right
  | up
  | down
  | tab
  | backTab
  | enter
  | backspace
  | char (c : Char)
  | other
  deriving DecidableEq, Repr

namespace Key

/-- The key of a name; a single character is the name of its key. -/
def ofName (name : String) : Key :=
  match name with
  | "left" => left
  | "right" => right
  | "up" => up
  | "down" => down
  | "tab" => tab
  | "backtab" => backTab
  | "enter" => enter
  | "backspace" => backspace
  | _ =>
    match name.toList with
    | [c] => char c
    | _ => other

end Key

/-- A viewer over a finished run. -/
structure Viewer where
  /-- The recorded snapshots, if the run was recorded. -/
  history : Option History
  /-- All that the run wrote to the console. -/
  output : Bytes
  /-- How the run ended, if it did not halt. -/
  outcome : Option String
  /-- The snapshot shown. -/
  position : Nat
  focus : Focus
  stackScroll : Nat
  framesScroll : Nat
  consoleScroll : Nat
  quit : Bool
  message : String
  playing : Bool
  /-- Whether the last press of the space bar is too recent for another one to count. -/
  unsettled : Bool

namespace Viewer

/-- The largest scroll offset; as an offset it stands for the end. -/
def farthest : Nat :=
  0xFFFFFFFFFFFFFFFF

/-- A viewer at the first snapshot. -/
def ofRun (history : Option History) (output : Bytes) (outcome : Option String) : Viewer where
  history := history
  output := output
  outcome := outcome
  position := 0
  focus := .code
  stackScroll := 0
  framesScroll := 0
  consoleScroll := farthest
  quit := false
  message :=
    match outcome with
    | some text => text
    | none =>
      if history.any (·.full) then "Ready! (history truncated at the snapshot limit)" else "Ready!"
  playing := false
  unsettled := false

/-- The number of snapshots. -/
def total (v : Viewer) : Nat :=
  (v.history.map (·.length)).getD 0

/-- The snapshot shown. -/
def current (v : Viewer) : Option Snapshot :=
  v.history.bind (·.get? v.position)

/-- What was written to the console up to the snapshot shown. -/
def transcript (v : Viewer) : Bytes :=
  match v.current with
  | none => v.output
  | some s => v.output.take s.consoleLength

/-! ## Moving -/

/-- The next snapshot, if there is one. -/
def forward? (v : Viewer) : Option Viewer :=
  if v.position + 1 < v.total then
    some { v with position := v.position + 1, consoleScroll := farthest }
  else none

/-- The snapshot before, if there is one. -/
def backward? (v : Viewer) : Option Viewer :=
  match v.position with
  | 0 => none
  | before + 1 => some { v with position := before, consoleScroll := farthest }

/-- Moves forward up to a number of times, and counts the moves. -/
def advance : Nat → Viewer → Viewer × Nat
  | 0, v => (v, 0)
  | n + 1, v =>
    match v.forward? with
    | none => (v, 0)
    | some w =>
      let (last, moved) := advance n w
      (last, moved + 1)

/-- The message at the end of the run. -/
def endMessage (v : Viewer) : String :=
  v.outcome.getD "Jumped to end"

/-- Moves to a snapshot without playing. -/
def jump (v : Viewer) (position : Nat) (message : String) : Viewer :=
  { v with playing := false, position, consoleScroll := farthest, message }

/-- Applies a function to the scroll offset of the focused pane; the code pane has none. -/
def scroll (v : Viewer) (f : Nat → Nat) : Viewer :=
  match v.focus with
  | .code => v
  | .console => { v with consoleScroll := f v.consoleScroll }
  | .stack => { v with stackScroll := f v.stackScroll }
  | .frames => { v with framesScroll := f v.framesScroll }

/-- Starts or stops playing, unless the space bar was pressed just before. -/
def toggle (v : Viewer) : Viewer :=
  if v.unsettled then v
  else
    { v with
      unsettled := true
      playing := !v.playing
      message := if v.playing then "Paused" else "Playing..." }

/-- Time has passed, so that the space bar counts again. -/
def settle (v : Viewer) : Viewer :=
  { v with unsettled := false }

/-- What a key does. -/
def press (v : Viewer) : Key → Viewer
  | .left =>
    let v := { v with playing := false }
    match v.backward? with
    | some w => { w with message := "Stepped backward" }
    | none => { v with message := "Cannot step backward: at the first instruction" }
  | .right =>
    let v := { v with playing := false }
    match v.forward? with
    | some w => { w with message := "Stepped forward" }
    | none => { v with message := v.endMessage }
  | .up => v.scroll (· - 1)
  | .down => v.scroll fun n => min (n + 1) farthest
  | .tab => { v with focus := v.focus.next }
  | .backTab => { v with focus := v.focus.previous }
  | .enter => v.jump (v.total - 1) v.endMessage
  | .backspace => v.jump 0 "Jumped to start"
  | .char c =>
    if c = 'q' ∨ c = 'Q' then { v with quit := true }
    else if c = ' ' then v.toggle
    else if '1' ≤ c ∧ c ≤ '9' then
      let (w, moved) := advance (c.toNat - 48) { v with playing := false }
      { w with message := s!"Stepped forward {moved} step(s)" }
    else v
  | .other => v

/-- What happens while playing when it is time for the next snapshot. -/
def play (v : Viewer) : Viewer :=
  if v.playing then
    match v.forward? with
    | some w => { w with message := "Playing..." }
    | none => { v with playing := false, message := "Playback complete" }
  else v

/-! ## Drawing -/

/-- The whole screen, and the viewer with the scroll offsets as they were drawn. -/
def draw (v : Viewer) (width height : Nat) : Screen × Viewer :=
  let body := height - 1
  let left := Screen.share 55 width
  let right := width - left
  let codeHeight := Screen.share 65 body
  let stackHeight := Screen.share 60 body
  let code := Pane.code left codeHeight v.current
  let (console, consoleScroll) :=
    Pane.console left (body - codeHeight) v.transcript v.consoleScroll
  let (stack, stackScroll) := Pane.stack right stackHeight v.current v.stackScroll
  let (frames, framesScroll) :=
    Pane.frames right (body - stackHeight) v.current v.framesScroll
  let panes := Screen.beside (Screen.above code console) (Screen.above stack frames)
  let status := Pane.status width (min height 1) v.message v.position v.total v.playing
  (Screen.above panes status, { v with consoleScroll, stackScroll, framesScroll })

end Viewer
end PSystem
