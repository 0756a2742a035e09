import PSystem.Blank
import PSystem.CommandLine.Numeral
import PSystem.Storage

/-!
# Mounts on the command line

A mount is written `UNIT=PATH`, with an optional mode after a colon.
-/

namespace PSystem

/-- A host file that is to be put on a unit. -/
structure MountSpec where
  unit : Word
  path : String
  mode : MountMode
  deriving DecidableEq, Repr

/-- Why a text is not a mount. -/
inductive MountError where
  /-- There is no equals sign. -/
  | noUnit (text : String)
  | badUnit (unit : String)
  | noPath (text : String)
  deriving DecidableEq, Repr

namespace MountError

/-- The wording of an error. -/
def message : MountError → String
  | noUnit text => "expected UNIT=PATH, got '" ++ text ++ "'"
  | badUnit unit => "bad unit number '" ++ unit ++ "'"
  | noPath text => "missing image path in '" ++ text ++ "'"

end MountError

namespace MountSpec

/-- The parts before and after the first occurrence of a character. -/
def splitFirst? (c : Char) (cs : List Char) : Option (List Char × List Char) :=
  match cs.dropWhile (· != c) with
  | [] => none
  | _ :: rest => some (cs.takeWhile (· != c), rest)

/-- The parts before and after the last occurrence of a character. -/
def splitLast? (c : Char) (cs : List Char) : Option (List Char × List Char) :=
  (splitFirst? c cs.reverse).map fun (after, before) => (before.reverse, after.reverse)

/-- The mode of a name. -/
def mode? (name : String) : Option MountMode :=
  match name with
  | "ro" => some .readOnly
  | "rw" => some .readWrite
  | "forget" => some .forget
  | _ => none

/-- The name of a mode. -/
def modeName : MountMode → String
  | .readOnly => "ro"
  | .readWrite => "rw"
  | .forget => "forget"

/-- A mode is read back from its name. -/
@[simp] theorem mode?_modeName (m : MountMode) : mode? (modeName m) = some m := by
  cases m <;> rfl

/-- A path and its mode.  What follows the last colon belongs to the path unless it is a mode. -/
def pathAndMode (cs : List Char) : List Char × MountMode :=
  let named : Option (List Char × MountMode) := do
    let (path, name) ← splitLast? ':' cs
    let mode ← mode? (String.ofList name)
    return (path, mode)
  named.getD (cs, .forget)

/-- Reads a mount. -/
def parse (text : String) : Except MountError MountSpec :=
  match splitFirst? '=' text.toList with
  | none => .error (.noUnit text)
  | some (unit, rest) =>
    match Numeral.upTo? 0xFFFF (Blank.trim unit) with
    | none => .error (.badUnit (String.ofList unit))
    | some n =>
      let (path, mode) := pathAndMode rest
      if path.isEmpty then .error (.noPath text)
      else .ok { unit := UInt16.ofNat n, path := String.ofList path, mode }

end MountSpec
end PSystem
