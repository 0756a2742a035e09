import PSystem.Directory
import PSystem.Memory.Cells
import PSystem.Skew

/-!
# Disk units

Unit numbers 0 to 19 name the disks of the machine; units 1 and 2 are the console and never hold a
disk.  A disk is backed by a buffer of its own or by a host file, which every transfer then reaches.
Transfers go run by run: in one piece on a plain image, sector by sector on a skewed one.

Failures of transfers are not faults: each has a result number that the program can ask for.
-/

namespace PSystem

/-! ## Failures -/

/-- Why a unit operation fails. -/
inductive StorageError where
  | badUnit (unit : Word)
  | noUnit (unit : Word)
  | consoleUnit (unit : Word)
  | writeProtected (unit : Word)
  | outOfRange (unit : Word) (position length size : Nat)
  | fileNotFound (unit : Word) (name : String)
  /-- The host file cannot be opened or does not hold what the unit expects. -/
  | host (path : String)
  deriving DecidableEq, Repr

namespace StorageError

/-- The result number that the program sees. -/
def ioResult : StorageError → Word
  | badUnit _ => 2
  | consoleUnit _ => 3
  | noUnit _ => 9
  | writeProtected _ => 16
  | outOfRange .. | fileNotFound .. | host _ => 64

/-- The one-line text of a failure. -/
def message : StorageError → String
  | badUnit u => s!"bad unit number {u.toNat}"
  | noUnit u => s!"unit {u.toNat} is not on line"
  | consoleUnit u => s!"unit {u.toNat} is a console unit"
  | writeProtected u => s!"unit {u.toNat} is write protected"
  | outOfRange u position length size =>
    s!"transfer outside of unit {u.toNat}: {position} + {length} > {size}"
  | fileNotFound u name => s!"file {name} not found on unit {u.toNat}"
  | host path => s!"I/O error on {path}"

end StorageError

/-! ## Host files -/

/-- The files of the host by path. -/
abbrev HostFiles := List (String × Bytes)

namespace HostFiles

/-- The contents of the file that a path leads to. -/
def get? (files : HostFiles) (path : String) : Option Bytes :=
  (files.find? (HostPath.same path ·.1)).map (·.2)

/-- Creates a file or replaces its contents. -/
def insert (files : HostFiles) (path : String) (data : Bytes) : HostFiles :=
  match files with
  | [] => [(path, data)]
  | (other, old) :: rest =>
    if HostPath.same path other then (other, data) :: rest
    else (other, old) :: insert rest path data

end HostFiles

/-! ## Disks -/

/-- How a host file is put on a unit. -/
inductive MountMode where
  /-- Writes fail. -/
  | readOnly
  /-- Writes go to the file. -/
  | readWrite
  /-- Writes change a copy that is forgotten with the unit. -/
  | forget
  deriving DecidableEq, Repr, Inhabited

/-- Where the bytes of a disk are. -/
inductive Backing where
  | file (name : String)
  | buffer (data : Bytes)
  deriving DecidableEq, Repr

/-- A disk on a unit. -/
structure Disk where
  /-- The host file that the disk was made from. -/
  path : Option String
  backing : Backing
  /-- The size at the time of mounting. -/
  size : Nat
  readOnly : Bool
  skewed : Bool
  deriving DecidableEq, Repr

namespace Disk

/-- A disk in memory. -/
def ofBytes (data : Bytes) (readOnly skewed : Bool) : Disk where
  path := none
  backing := .buffer data
  size := data.length
  readOnly := readOnly
  skewed := skewed

/-- The whole blocks of a disk. -/
def blocks (d : Disk) : Nat :=
  d.size / Bytes.blockSize

/-- A contiguous piece of a transfer: its place in the image, its offset in the transfer, and its
length. -/
structure Piece where
  place : Nat
  offset : Nat
  length : Nat
  deriving DecidableEq, Repr

/-- The pieces of a transfer of `length` bytes from a logical position on. -/
def pieces (skewed : Bool) (position length : Nat) : List Piece :=
  if length = 0 then []
  else if skewed then
    let first := position / Skew.sectorSize
    let last := (position + length - 1) / Skew.sectorSize
    (List.range (last + 1 - first)).map fun i =>
      let start := max position ((first + i) * Skew.sectorSize)
      let stop := min (position + length) ((first + i + 1) * Skew.sectorSize)
      { place := Skew.physical true start, offset := start - position, length := stop - start }
  else [{ place := position, offset := 0, length := length }]

/-- Bytes written over others from a place on; a gap before the place is filled with zeros. -/
def splice (data : Bytes) (place : Nat) (bytes : Bytes) : Bytes :=
  data.take place ++ Bytes.zeros (place - data.length) ++ bytes
    ++ data.drop (place + bytes.length)

end Disk

/-! ## Units -/

/-- The disks on the units, and the host files behind them. -/
structure Storage where
  disks : Cells (Option Disk) 5
  files : HostFiles

namespace Storage

/-- The highest unit number. -/
def maxUnit : Word := 19

/-- The unit whose input is echoed. -/
def consoleUnit : Word := 1

/-- The unit whose input is not echoed. -/
def terminalUnit : Word := 2

/-- Whether a unit is one of the console units. -/
def isConsole (unit : Word) : Bool :=
  unit == consoleUnit || unit == terminalUnit

/-- No disks. -/
def empty : Storage where
  disks := Cells.replicate none 5
  files := []

instance : Inhabited Storage := ⟨empty⟩

/-- The disk on a unit. -/
def disk? (s : Storage) (unit : Word) : Option Disk :=
  if maxUnit < unit then none else s.disks.get unit.toNat

/-- Whether a unit has a disk. -/
def isMounted (s : Storage) (unit : Word) : Bool :=
  (s.disk? unit).isSome

/-- Fails on units that cannot hold a disk. -/
def checkUnit (unit : Word) : Except StorageError Unit :=
  if maxUnit < unit then .error (.badUnit unit)
  else if isConsole unit then .error (.consoleUnit unit)
  else .ok ()

/-- The disk on a unit that can hold one. -/
def require (s : Storage) (unit : Word) : Except StorageError Disk := do
  checkUnit unit
  match s.disk? unit with
  | some disk => .ok disk
  | none => .error (.noUnit unit)

/-- Puts a disk on a unit in place of any other. -/
def setDisk (s : Storage) (unit : Word) (disk : Option Disk) : Storage :=
  { s with disks := s.disks.set unit.toNat disk }

/-- Puts a disk on a unit. -/
def attach (s : Storage) (unit : Word) (disk : Disk) : Except StorageError Storage := do
  checkUnit unit
  return s.setDisk unit (some disk)

/-- The disk that a host file makes in a mode. -/
def openFile (s : Storage) (path : String) (mode : MountMode) : Except StorageError Disk :=
  match s.files.get? path with
  | none => .error (.host path)
  | some data =>
    .ok
      { path := some path
        backing := if mode = .forget then .buffer data else .file path
        size := data.length
        readOnly := mode = .readOnly
        skewed := Skew.ofPath path }

/-- Puts a host file on a unit. -/
def mount (s : Storage) (unit : Word) (path : String) (mode : MountMode) :
    Except StorageError Storage := do
  checkUnit unit
  let disk ← s.openFile path mode
  return s.setDisk unit (some disk)

/-- Takes the disk off a unit. -/
def unmount (s : Storage) (unit : Word) : Except StorageError Storage := do
  let _ ← s.require unit
  return s.setDisk unit none

/-! ## Transfers -/

/-- The image behind a disk. -/
def imageOf (s : Storage) (disk : Disk) : Except StorageError Bytes :=
  match disk.backing with
  | .buffer data => .ok data
  | .file name =>
    match s.files.get? name with
    | some data => .ok data
    | none => .error (.host name)

/-- Fails on a transfer beyond the size of the disk. -/
def checkRange (unit : Word) (disk : Disk) (position length : Nat) : Except StorageError Unit :=
  if disk.size < position + length then
    .error (.outOfRange unit position length disk.size)
  else .ok ()

/-- Reads one piece of a transfer. -/
def readPiece (unit : Word) (disk : Disk) (image : Bytes) (p : Disk.Piece) :
    Except StorageError Bytes := do
  checkRange unit disk p.place p.length
  if image.length < p.place + p.length then .error (.host (disk.path.getD ""))
  else .ok ((image.drop p.place).take p.length)

/-- Reads `length` bytes from a logical position on. -/
def readAt (s : Storage) (unit : Word) (position length : Nat) : Except StorageError Bytes := do
  let disk ← s.require unit
  checkRange unit disk position length
  let image ← s.imageOf disk
  let parts ← (Disk.pieces disk.skewed position length).mapM (readPiece unit disk image)
  return parts.flatten

/-- Writes one piece of a transfer into the image behind a disk. -/
def writePiece (unit : Word) (bytes : Bytes) (p : Disk.Piece) :
    EStateM StorageError Storage Unit := fun s =>
  match s.require unit with
  | .error e => .error e s
  | .ok disk =>
    match checkRange unit disk p.place p.length with
    | .error e => .error e s
    | .ok () =>
      let part := (bytes.drop p.offset).take p.length
      match disk.backing with
      | .buffer data =>
        .ok () (s.setDisk unit
          (some { disk with backing := .buffer (Disk.splice data p.place part) }))
      | .file name =>
        let data := (s.files.get? name).getD []
        .ok () { s with files := s.files.insert name (Disk.splice data p.place part) }

/-- Writes pieces in order, up to the first that fails. -/
def writePieces (unit : Word) (bytes : Bytes) : List Disk.Piece → EStateM StorageError Storage Unit
  | [] => pure ()
  | p :: rest => do
    writePiece unit bytes p
    writePieces unit bytes rest

/-- Writes bytes from a logical position on. -/
def writeAt (unit : Word) (position : Nat) (bytes : Bytes) :
    EStateM StorageError Storage Unit := fun s =>
  match s.require unit with
  | .error e => .error e s
  | .ok disk =>
    if disk.readOnly then .error (.writeProtected unit) s
    else
      match checkRange unit disk position bytes.length with
      | .error e => .error e s
      | .ok () => writePieces unit bytes (Disk.pieces disk.skewed position bytes.length) s

/-- Reads `length` bytes from the start of a block on. -/
def readBlocks (s : Storage) (unit block : Word) (length : Nat) : Except StorageError Bytes :=
  s.readAt unit (block.toNat * Bytes.blockSize) length

/-- Writes bytes from the start of a block on. -/
def writeBlocks (unit block : Word) (bytes : Bytes) : EStateM StorageError Storage Unit :=
  writeAt unit (block.toNat * Bytes.blockSize) bytes

/-! ## Volumes -/

/-- The directory of the volume on a unit. -/
def directory (s : Storage) (unit : Word) : Except StorageError Directory := do
  let before := Directory.firstBlock * Bytes.blockSize
  let size := ((s.disk? unit).map (·.size)).getD (before + Directory.size)
  let bytes ← s.readBlocks unit (UInt16.ofNat Directory.firstBlock)
    (min (size - before) Directory.size)
  return Directory.parse bytes

/-- The extent of a file on the volume on a unit. -/
def locate (s : Storage) (unit : Word) (name : String) : Except StorageError FileExtent := do
  let directory ← s.directory unit
  match directory.find? name with
  | some extent => .ok extent
  | none => .error (.fileNotFound unit name)

end Storage
end PSystem
