import Mathlib
import PSystem.Proofs.FlatDisk

/-!
# Mount modes

A host file that is put on a unit is written through in one mode, copied in another and protected in
the third.  `Storage.Mirrors` relates the two storages of the first two modes: they have the same
disks on all other units and the same files but for the one that is mounted, and this file on the one
side holds what the buffer holds on the other.  Every piece that is written keeps it, and so do whole
transfers, also those that fail half way (`Agrees`).

Transfers on other units may come between, as long as the disks there are not on the same file
(`Storage.Apart`).
-/

namespace PSystem

/-! ## Files by their paths -/

namespace HostPath

variable {a b : String}

theorem same_iff : same a b = true ↔ ∃ way, file? a = some way ∧ file? b = some way := by
  rw [same, Bool.and_eq_true, beq_iff_eq, Option.isSome_iff_exists]
  constructor
  · rintro ⟨⟨way, here⟩, equal⟩
    exact ⟨way, here, equal.symm.trans here⟩
  · rintro ⟨way, here, there⟩
    exact ⟨⟨way, here⟩, here.trans there.symm⟩

theorem same_comm (a b : String) : same a b = same b a := by
  rw [Bool.eq_iff_iff, same_iff, same_iff]
  simp only [and_comm]

/-- Of two paths to one file, each leads where the other does. -/
theorem same_congr (h : same a b = true) (c : String) : same a c = same b c := by
  obtain ⟨way, here, there⟩ := same_iff.1 h
  rw [same, same, here, there]

/-- A path that leads to a file leads there itself. -/
theorem same_self (h : same a b = true) : same a a = true := by
  obtain ⟨way, here, -⟩ := same_iff.1 h
  exact same_iff.2 ⟨way, here, here⟩

end HostPath

namespace HostFiles

variable {files : HostFiles} {path : String} {data : Bytes}

theorem get?_cons (other : String) (old : Bytes) (files : HostFiles) (path : String) :
    get? ((other, old) :: files) path =
      if HostPath.same path other then some old else files.get? path := by
  rw [get?, List.find?_cons]
  cases HostPath.same path other <;> rfl

/-- A path leads to a file that was written if it leads where the file was written. -/
theorem get?_insert (files : HostFiles) (path name : String) (data : Bytes) :
    (files.insert path data).get? name =
      if HostPath.same path name then some data else files.get? name := by
  induction files with
  | nil =>
    rw [insert, get?_cons, HostPath.same_comm name path]
  | cons file rest ih =>
    obtain ⟨other, old⟩ := file
    rw [insert]
    by_cases here : HostPath.same path other = true
    · rw [if_pos here, get?_cons, get?_cons]
      by_cases there : HostPath.same path name = true
      · rw [if_pos there, ← HostPath.same_congr there, if_pos here]
      · -- a name of this file would lead where the path does
        have apart : ¬ HostPath.same name other = true := by
          intro leads
          rw [HostPath.same_comm] at leads
          exact there ((HostPath.same_congr here name).trans leads)
        rw [if_neg there, if_neg apart, if_neg apart]
    · rw [if_neg here, get?_cons, ih]
      by_cases there : HostPath.same path name = true
      · rw [if_pos there, if_pos there, ← HostPath.same_congr there, if_neg here]
      · rw [if_neg there, if_neg there, get?_cons]

/-- A path to a file is a path to itself. -/
theorem same_self_of_get? (h : files.get? path = some data) : HostPath.same path path = true := by
  obtain ⟨⟨other, old⟩, found, -⟩ := Option.map_eq_some_iff.1 h
  have leads : HostPath.same path other = true :=
    List.find?_some (p := fun file : String × Bytes => HostPath.same path file.1) found
  exact HostPath.same_self leads

end HostFiles

namespace Storage

variable {s t rw fg : Storage} {unit u : Word} {path : String} {data image : Bytes}
  {d disk : Disk} {units : Set Word} {α : Type}

/-! ## Writing into the image behind a disk -/

theorem disk?_setDisk (low : ¬ maxUnit < unit) (d : Option Disk) (u : Word) :
    (s.setDisk unit d).disk? u = if u = unit then d else s.disk? u := by
  by_cases here : u = unit
  · have small := toNat_lt_of_not_maxUnit_lt low
    rw [if_pos here, here, disk?, if_neg low, setDisk, Cells.get_set _ small small, if_pos rfl]
  · rw [if_neg here]
    exact (sameBeside_setDisk low d).2 u here

/-- Changes the image behind the disk on a unit. -/
def update (s : Storage) (u : Word) (d : Disk) (change : Bytes → Bytes) : Storage :=
  match d.backing with
  | .buffer data => s.setDisk u (some { d with backing := .buffer (change data) })
  | .file name => { s with files := s.files.insert name (change ((s.files.get? name).getD [])) }

/-- A piece that is written changes the image, unless the unit or the range is refused. -/
theorem writePiece_eq (u : Word) (bytes : Bytes) (p : Disk.Piece) (s : Storage) :
    writePiece u bytes p s =
      match s.require u with
      | .error e => .error e s
      | .ok d =>
        match checkRange u d p.place p.length with
        | .error e => .error e s
        | .ok () => .ok () (s.update u d
            fun data => Disk.splice data p.place ((bytes.drop p.offset).take p.length)) := by
  unfold writePiece update
  cases s.require u with
  | error e => rfl
  | ok d =>
    dsimp only
    cases checkRange u d p.place p.length with
    | error e => rfl
    | ok _ => cases d.backing <;> rfl

/-! ## Units apart from a file -/

/-- The disk on a unit, if there is one, is not on the file that a path leads to. -/
def Apart (s : Storage) (path : String) (u : Word) : Prop :=
  ∀ d name, s.disk? u = some d → d.backing = .file name → HostPath.same path name = false

/-- A unit has a disk, a file has its contents, and the disks on the given other units are not on
that file. -/
structure Mounted (unit : Word) (disk : Disk) (path : String) (contents : Bytes) (units : Set Word)
    (s : Storage) : Prop where
  disk : s.disk? unit = some disk
  file : s.files.get? path = some contents
  apart : ∀ u ∈ units, u ≠ unit → s.Apart path u

theorem imageOf_file (found : s.files.get? path = some image) (d : Disk) :
    s.imageOf { d with backing := .file path } = .ok image := by
  simp only [imageOf, found]

/-- What is written elsewhere does not touch the disk or the file. -/
theorem Mounted.update (h : Mounted unit disk path data units s) (mem : u ∈ units) (ne : u ≠ unit)
    (valid : checkUnit u = .ok ()) (on : s.disk? u = some d) (change : Bytes → Bytes) :
    Mounted unit disk path data units (s.update u d change) := by
  have low := not_maxUnit_lt valid
  unfold Storage.update
  cases backing : d.backing with
  | buffer image =>
    refine ⟨?_, h.file, fun v hv hne d' name on' backing' => ?_⟩
    · rw [disk?_setDisk low, if_neg ne.symm]
      exact h.disk
    · rw [disk?_setDisk low] at on'
      split at on'
      · cases on'
        cases backing'
      · exact h.apart v hv hne d' name on' backing'
  | file name =>
    have other : HostPath.same name path = false :=
      (HostPath.same_comm name path).trans (h.apart u mem ne d name on backing)
    refine ⟨h.disk, ?_, h.apart⟩
    rw [HostFiles.get?_insert, if_neg (Bool.eq_false_iff.1 other)]
    exact h.file

/-! ## Files and buffers -/

/-- One storage has a disk on a host file and the other the same disk in a buffer with the contents
of that file; the file keeps its `data` there.  Nothing else differs. -/
structure Mirrors (unit : Word) (disk : Disk) (path : String) (data : Bytes) (units : Set Word)
    (image : Bytes) (rw fg : Storage) : Prop where
  onFile : Mounted unit { disk with backing := .file path } path image units rw
  onBuffer : Mounted unit { disk with backing := .buffer image } path data units fg
  disks : ∀ u, u ≠ unit → fg.disk? u = rw.disk? u
  files : ∀ name, HostPath.same path name = false → fg.files.get? name = rw.files.get? name

namespace Mirrors

/-- A change on another unit. -/
theorem update (h : Mirrors unit disk path data units image rw fg) (mem : u ∈ units) (ne : u ≠ unit)
    (valid : checkUnit u = .ok ()) (on : rw.disk? u = some d) (change : Bytes → Bytes) :
    Mirrors unit disk path data units image (rw.update u d change) (fg.update u d change) := by
  have low := not_maxUnit_lt valid
  refine ⟨h.onFile.update mem ne valid on change,
    h.onBuffer.update mem ne valid ((h.disks u ne).trans on) change, fun v hv => ?_, fun name hn => ?_⟩
  · unfold Storage.update
    cases d.backing with
    | buffer data =>
      dsimp only
      rw [disk?_setDisk low, disk?_setDisk low, h.disks v hv]
    | file name => exact h.disks v hv
  · unfold Storage.update
    cases backing : d.backing with
    | buffer data => exact h.files name hn
    | file other =>
      dsimp only
      rw [HostFiles.get?_insert, HostFiles.get?_insert, h.files name hn,
        h.files other (h.onFile.apart u mem ne d other on backing)]

/-- A change on the unit itself changes the file here and the buffer there. -/
theorem update_unit (h : Mirrors unit disk path data units image rw fg)
    (valid : checkUnit unit = .ok ()) (change : Bytes → Bytes) :
    Mirrors unit disk path data units (change image)
      (rw.update unit { disk with backing := .file path } change)
      (fg.update unit { disk with backing := .buffer image } change) := by
  have low := not_maxUnit_lt valid
  have here := HostFiles.same_self_of_get? h.onFile.file
  -- a file is written here and a disk is changed there, and each is found where it was put
  refine ⟨⟨h.onFile.disk, ?_, h.onFile.apart⟩, ⟨?_, h.onBuffer.file, fun v hv hne d' name on => ?_⟩,
    fun v hv => ?_, fun name hn => ?_⟩
  · show (rw.files.insert path _).get? path = _
    rw [HostFiles.get?_insert, if_pos here, h.onFile.file]
    rfl
  · show (fg.setDisk unit _).disk? unit = _
    rw [disk?_setDisk low, if_pos rfl]
  · rw [show (fg.update unit _ change).disk? v = (fg.setDisk unit _).disk? v from rfl,
      disk?_setDisk low, if_neg hne] at on
    exact h.onBuffer.apart v hv hne d' name on
  · show (fg.setDisk unit _).disk? v = _
    rw [disk?_setDisk low, if_neg hv]
    exact h.disks v hv
  · show fg.files.get? name = (rw.files.insert path _).get? name
    rw [HostFiles.get?_insert, if_neg (Bool.eq_false_iff.1 hn)]
    exact h.files name hn

/-- On both sides a unit has no disk, or disks that differ at most in where their bytes are; the
images behind them are the same, and stay so when they are changed alike. -/
theorem required (h : Mirrors unit disk path data units image rw fg) (valid : checkUnit unit = .ok ())
    (mem : u = unit ∨ u ∈ units) :
    (∃ e, rw.require u = .error e ∧ fg.require u = .error e) ∨
    ∃ d b, rw.require u = .ok d ∧ fg.require u = .ok { d with backing := b } ∧
      fg.imageOf { d with backing := b } = rw.imageOf d ∧
      ∀ change, ∃ image', Mirrors unit disk path data units image' (rw.update u d change)
        (fg.update u { d with backing := b } change) := by
  -- Only the unit itself is mounted in two ways; the others are the same on both sides, and their
  -- files are too.
  by_cases here : u = unit
  · subst here
    refine .inr ⟨{ disk with backing := .file path }, .buffer image,
      require_eq_ok.2 ⟨valid, h.onFile.disk⟩, require_eq_ok.2 ⟨valid, h.onBuffer.disk⟩,
      (imageOf_file h.onFile.file disk).symm, fun change => ⟨_, h.update_unit valid change⟩⟩
  · have mem := mem.resolve_left here
    have same : fg.require u = rw.require u := by
      rw [require, require, h.disks u here]
    rw [same]
    cases on : rw.require u with
    | error e => exact .inl ⟨e, rfl, rfl⟩
    | ok d =>
      obtain ⟨valid', on⟩ := require_eq_ok.1 on
      refine .inr ⟨d, d.backing, rfl, rfl, ?_, fun change => ⟨image, h.update mem here valid' on change⟩⟩
      rw [imageOf, imageOf]
      cases backing : d.backing with
      | buffer data => rfl
      | file name =>
        dsimp only
        rw [h.files name (h.onFile.apart u mem here d name on backing)]

end Mirrors

/-! ## Transfers in both modes -/

/-- On storages that mirror each other a computation has the same result and leaves storages that
mirror each other again. -/
def Agrees (unit : Word) (disk : Disk) (path : String) (data : Bytes) (units : Set Word)
    (x : EStateM StorageError Storage α) : Prop :=
  ∀ rw fg image, Mirrors unit disk path data units image rw fg →
    resultOf (x rw) = resultOf (x fg) ∧
      ∃ image', Mirrors unit disk path data units image' (endState (x rw)) (endState (x fg))

theorem Agrees.bind {β : Type} {x : EStateM StorageError Storage α}
    {f : α → EStateM StorageError Storage β} (hx : Agrees unit disk path data units x)
    (hf : ∀ a, Agrees unit disk path data units (f a)) :
    Agrees unit disk path data units (x >>= f) := by
  intro rw fg image h
  obtain ⟨same, image₁, h₁⟩ := hx rw fg image h
  -- both sides go on with the same result, or both stop
  cases left : x rw with
  | ok a rw₁ =>
    cases right : x fg with
    | ok b fg₁ =>
      rw [left, right] at same h₁
      cases same
      rw [bind_of_ok left, bind_of_ok right]
      exact hf a rw₁ fg₁ image₁ h₁
    | error e fg₁ =>
      rw [left, right] at same
      cases same
  | error e rw₁ =>
    cases right : x fg with
    | ok b fg₁ =>
      rw [left, right] at same
      cases same
    | error e' fg₁ =>
      rw [left, right] at same h₁
      cases same
      rw [bind_of_error left, bind_of_error right]
      exact ⟨rfl, image₁, h₁⟩

theorem agrees_piece (valid : checkUnit unit = .ok ()) (mem : u = unit ∨ u ∈ units) (bytes : Bytes)
    (p : Disk.Piece) : Agrees unit disk path data units (writePiece u bytes p) := by
  intro rw fg image h
  rw [writePiece_eq, writePiece_eq]
  rcases h.required valid mem with ⟨e, left, right⟩ | ⟨d, b, left, right, -, updates⟩
  · rw [left, right]
    exact ⟨rfl, image, h⟩
  · have range : checkRange u { d with backing := b } p.place p.length =
      checkRange u d p.place p.length := rfl
    rw [left, right]
    dsimp only
    rw [range]
    cases checkRange u d p.place p.length with
    | error e => exact ⟨rfl, image, h⟩
    | ok _ => exact ⟨rfl, updates _⟩

theorem agrees_pieces (valid : checkUnit unit = .ok ()) (mem : u = unit ∨ u ∈ units) (bytes : Bytes)
    (ps : List Disk.Piece) : Agrees unit disk path data units (writePieces u bytes ps) := by
  induction ps with
  | nil => exact fun rw fg image h => ⟨rfl, image, h⟩
  | cons p rest ih => exact (agrees_piece valid mem bytes p).bind fun _ => ih

/-- A write makes the same checks on both sides and then writes the same pieces. -/
theorem agrees_writeAt (valid : checkUnit unit = .ok ()) (mem : u = unit ∨ u ∈ units)
    (position : Nat) (bytes : Bytes) :
    Agrees unit disk path data units (writeAt u position bytes) := by
  intro rw fg image h
  rcases h.required valid mem with ⟨e, left, right⟩ | ⟨d, b, left, right, -, -⟩
  · simp only [writeAt, left, right]
    exact ⟨rfl, image, h⟩
  · simp only [writeAt, left, right, checkRange]
    by_cases readOnly : d.readOnly = true
    · simp only [if_pos readOnly]
      exact ⟨rfl, image, h⟩
    · simp only [if_neg readOnly]
      by_cases beyond : d.size < position + bytes.length
      · simp only [if_pos beyond]
        exact ⟨rfl, image, h⟩
      · simp only [if_neg beyond]
        exact agrees_pieces valid mem bytes _ rw fg image h

/-- What is read depends on the image behind a disk and not on where it is. -/
theorem readAt_congr {d : Disk} (b : Backing) (readOnly : Bool) (left : s.require u = .ok d)
    (right : t.require u = .ok { d with backing := b, readOnly := readOnly })
    (image : t.imageOf { d with backing := b, readOnly := readOnly } = s.imageOf d)
    (position length : Nat) : t.readAt u position length = s.readAt u position length := by
  rw [readAt, readAt, left, right, except_ok_bind, except_ok_bind, image]
  rfl

theorem readAt_mirrors (h : Mirrors unit disk path data units image rw fg)
    (valid : checkUnit unit = .ok ()) (mem : u = unit ∨ u ∈ units) (position length : Nat) :
    fg.readAt u position length = rw.readAt u position length := by
  rcases h.required valid mem with ⟨e, left, right⟩ | ⟨d, b, left, right, image, -⟩
  · rw [readAt, readAt, left, right]
    rfl
  · exact readAt_congr b d.readOnly left right image position length

end Storage

/-! ## Calls on several units -/

/-- A transfer that is asked of one of the units. -/
structure UnitCall where
  unit : Word
  transfer : Transfer

namespace Transfer

/-- Whether bytes are written. -/
def writes : Transfer → Bool
  | read .. | readBlocks .. => false
  | write .. | writeBlocks .. => true

theorem ofWrite_eq {σ : Type} (r : EStateM.Result StorageError σ Unit) :
    ofWrite r = ((resultOf r).map fun _ => [], endState r) := by
  cases r <;> rfl

end Transfer

namespace UnitCall

/-- The answer to a call, and the storage after it. -/
def answer (c : UnitCall) : Storage → Except StorageError Bytes × Storage :=
  c.transfer.onUnit c.unit

/-- The answers to calls in order, and the storage after the last of them. -/
def runAll : List UnitCall → Storage → List (Except StorageError Bytes) × Storage
  | [], s => ([], s)
  | c :: rest, s =>
    let (first, s') := c.answer s
    let (others, last) := runAll rest s'
    (first :: others, last)

end UnitCall

namespace Storage

variable {s rw fg : Storage} {unit u : Word} {path : String} {data image : Bytes} {disk : Disk}
  {units : Set Word} {c : UnitCall}

theorem ofWrite_agrees {x : EStateM StorageError Storage Unit}
    (agrees : Agrees unit disk path data units x)
    (h : Mirrors unit disk path data units image rw fg) :
    (Transfer.ofWrite (x fg)).1 = (Transfer.ofWrite (x rw)).1 ∧
      ∃ image', Mirrors unit disk path data units image' (Transfer.ofWrite (x rw)).2
        (Transfer.ofWrite (x fg)).2 := by
  obtain ⟨same, after⟩ := agrees rw fg image h
  rw [Transfer.ofWrite_eq, Transfer.ofWrite_eq, same]
  exact ⟨rfl, after⟩

/-- A call has the same answer on both sides, which mirror each other afterwards. -/
theorem answer_mirrors (h : Mirrors unit disk path data units image rw fg)
    (valid : checkUnit unit = .ok ()) (mem : c.unit = unit ∨ c.unit ∈ units) :
    (c.answer fg).1 = (c.answer rw).1 ∧
      ∃ image', Mirrors unit disk path data units image' (c.answer rw).2 (c.answer fg).2 := by
  obtain ⟨u, transfer⟩ := c
  cases transfer with
  | read position length => exact ⟨readAt_mirrors h valid mem position length, image, h⟩
  | readBlocks block length => exact ⟨readAt_mirrors h valid mem _ length, image, h⟩
  | write position bytes => exact ofWrite_agrees (agrees_writeAt valid mem position bytes) h
  | writeBlocks block bytes => exact ofWrite_agrees (agrees_writeAt valid mem _ bytes) h

/-- So do calls one after the other. -/
theorem runAll_mirrors (h : Mirrors unit disk path data units image rw fg)
    (valid : checkUnit unit = .ok ()) {calls : List UnitCall}
    (mem : ∀ c ∈ calls, c.unit = unit ∨ c.unit ∈ units) :
    (UnitCall.runAll calls fg).1 = (UnitCall.runAll calls rw).1 ∧
      ∃ image', Mirrors unit disk path data units image' (UnitCall.runAll calls rw).2
        (UnitCall.runAll calls fg).2 := by
  induction calls generalizing rw fg image with
  | nil => exact ⟨rfl, image, h⟩
  | cons c rest ih =>
    obtain ⟨first, image₁, h₁⟩ := answer_mirrors h valid (mem c List.mem_cons_self)
    obtain ⟨others, after⟩ := ih h₁ fun c hc => mem c (List.mem_cons_of_mem _ hc)
    exact ⟨congrArg₂ List.cons first others, after⟩

/-! ## Protected units -/

/-- A disk and a file stay as they are. -/
def Stays (unit : Word) (disk : Disk) (path : String) (data : Bytes) (units : Set Word)
    (s s' : Storage) : Prop :=
  Mounted unit disk path data units s → Mounted unit disk path data units s'

instance : IsPreorder Storage (Stays unit disk path data units) where
  refl _ := id
  trans _ _ _ h h' := h' ∘ h

theorem stays_piece (mem : u ∈ units) (ne : u ≠ unit) (bytes : Bytes) (p : Disk.Piece) :
    Keeps (Stays unit disk path data units) (writePiece u bytes p) := by
  constructor
  intro s h
  rw [writePiece_eq]
  cases on : s.require u with
  | error e => exact h
  | ok d =>
    obtain ⟨valid, on⟩ := require_eq_ok.1 on
    dsimp only
    cases checkRange u d p.place p.length with
    | error e => exact h
    | ok _ => exact h.update mem ne valid on _

/-- Writes on other units leave the disk and the file. -/
theorem stays_writeAt (mem : u ∈ units) (ne : u ≠ unit) (position : Nat) (bytes : Bytes) :
    Keeps (Stays unit disk path data units) (writeAt u position bytes) := by
  -- A transfer is cut into pieces, none of which goes to the unit or its file.
  have pieces (ps : List Disk.Piece) :
      Keeps (Stays unit disk path data units) (writePieces u bytes ps) := by
    induction ps with
    | nil => exact Keeps.pure ()
    | cons p rest ih =>
      have first : Keeps (Stays unit disk path data units) (writePiece u bytes p) :=
        stays_piece mem ne bytes p
      unfold writePieces
      infer_instance
  constructor
  intro s h
  unfold writeAt
  cases s.require u with
  | error e => exact h
  | ok d =>
    dsimp only
    split
    · exact h
    · cases checkRange u d position bytes.length with
      | error e => exact h
      | ok _ => exact (pieces _).related s h

/-- A write on a protected unit is refused. -/
theorem writeAt_protected (h : Mounted unit disk path data units s)
    (valid : checkUnit unit = .ok ()) (readOnly : disk.readOnly = true) (position : Nat)
    (bytes : Bytes) : writeAt unit position bytes s = .error (.writeProtected unit) s := by
  have mounted : s.require unit = .ok disk := require_eq_ok.2 ⟨valid, h.disk⟩
  simp only [writeAt, mounted, readOnly, if_true]

/-- The answer of a protected unit on a file: writes are refused, and reads find what any storage
finds that has the contents of the file under the same kind of disk. -/
theorem answer_protected {b : Backing}
    (h : Mounted unit { disk with backing := .file path, readOnly := true } path data units s)
    (fresh : rw.require unit = .ok { disk with backing := b })
    (image : rw.imageOf { disk with backing := b } = .ok data) (valid : checkUnit unit = .ok ())
    (here : c.unit = unit) :
    c.answer s =
      (if c.transfer.writes then .error (.writeProtected unit) else (c.answer rw).1, s) := by
  have mounted := require_eq_ok.2 ⟨valid, h.disk⟩
  have found : s.imageOf { disk with backing := .file path, readOnly := true } =
      rw.imageOf { disk with backing := b } :=
    (imageOf_file h.file { disk with readOnly := true }).trans image.symm
  have reads (position length : Nat) :
      s.readAt unit position length = rw.readAt unit position length :=
    readAt_congr (.file path) true fresh mounted found position length
  have refused (position : Nat) (bytes : Bytes) := writeAt_protected h valid rfl position bytes
  obtain ⟨u, transfer⟩ := c
  subst here
  cases transfer with
  | read position length => exact Prod.ext (reads position length) rfl
  | readBlocks block length => exact Prod.ext (reads _ length) rfl
  | write position bytes => exact congrArg Transfer.ofWrite (refused position bytes)
  | writeBlocks block bytes => exact congrArg Transfer.ofWrite (refused _ bytes)

theorem answer_stays (h : Mounted unit disk path data units s) (mem : c.unit ∈ units)
    (ne : c.unit ≠ unit) : Mounted unit disk path data units (c.answer s).2 := by
  obtain ⟨u, transfer⟩ := c
  cases transfer with
  | read position length => exact h
  | readBlocks block length => exact h
  | write position bytes =>
    show Mounted _ _ _ _ _ (Transfer.ofWrite _).2
    rw [Transfer.ofWrite_eq]
    exact (stays_writeAt mem ne position bytes).related s h
  | writeBlocks block bytes =>
    show Mounted _ _ _ _ _ (Transfer.ofWrite _).2
    rw [Transfer.ofWrite_eq]
    exact (stays_writeAt mem ne _ bytes).related s h

/-- Calls one after the other leave a protected disk and its file, and every call on it has the
answer of the file as it was. -/
theorem runAll_protected {b : Backing}
    (h : Mounted unit { disk with backing := .file path, readOnly := true } path data units s)
    (fresh : rw.require unit = .ok { disk with backing := b })
    (image : rw.imageOf { disk with backing := b } = .ok data) (valid : checkUnit unit = .ok ())
    {calls : List UnitCall} (mem : ∀ c ∈ calls, c.unit ≠ unit → c.unit ∈ units) :
    (UnitCall.runAll calls s).2.files.get? path = some data ∧
      ∀ (i : Nat) (c : UnitCall), calls[i]? = some c → c.unit = unit → (UnitCall.runAll calls s).1[i]? =
        some (if c.transfer.writes then .error (.writeProtected unit) else (c.answer rw).1) := by
  induction calls generalizing s with
  | nil =>
    refine ⟨h.file, fun i c hc => ?_⟩
    cases hc
  | cons c rest ih =>
    -- a call on the unit changes nothing at all, one on another unit nothing that belongs to it
    have next : Mounted unit { disk with backing := .file path, readOnly := true } path data units
        (c.answer s).2 := by
      by_cases here : c.unit = unit
      · rw [answer_protected h fresh image valid here]
        exact h
      · exact answer_stays h (mem c List.mem_cons_self here) here
    obtain ⟨file, others⟩ := ih next fun c hc => mem c (List.mem_cons_of_mem _ hc)
    refine ⟨file, fun i c' hc' here => ?_⟩
    cases i with
    | zero =>
      cases hc'
      exact congrArg (fun a => some a.1) (answer_protected h fresh image valid here)
    | succ i => exact others i c' hc' here

/-! ## The three modes -/

/-- The disk that a host file with the given contents makes in a mode. -/
def opened (path : String) (data : Bytes) (mode : MountMode) : Disk where
  path := some path
  backing := if mode = .forget then .buffer data else .file path
  size := data.length
  readOnly := mode = .readOnly
  skewed := Skew.ofPath path

theorem mount_ok (valid : checkUnit unit = .ok ()) (found : s.files.get? path = some data)
    (mode : MountMode) :
    s.mount unit path mode = .ok (s.setDisk unit (some (opened path data mode))) := by
  rw [mount, valid, except_ok_bind, openFile, found]
  rfl

theorem mounted_setDisk (valid : checkUnit unit = .ok ()) (found : s.files.get? path = some data)
    (apart : ∀ u ∈ units, u ≠ unit → s.Apart path u) (disk : Disk) :
    Mounted unit disk path data units (s.setDisk unit (some disk)) := by
  have low := not_maxUnit_lt valid
  refine ⟨by rw [disk?_setDisk low, if_pos rfl], found, fun u mem ne d name on => ?_⟩
  rw [disk?_setDisk low, if_neg ne] at on
  exact apart u mem ne d name on

/-- A host file is mounted in all three modes.  Written through or forgotten, it gives the same
answers to any calls; afterwards the file that was written through is the buffer of the one to be
forgotten, whose file is as it was.  Protected, it refuses every write, stays as it was and answers
every read as a unit that was not written.  Other units may be called in between if they are not
on the same file. -/
theorem mount_modes_agree (valid : checkUnit unit = .ok ()) (found : s.files.get? path = some data)
    (calls : List UnitCall) (apart : ∀ c ∈ calls, c.unit ≠ unit → s.Apart path c.unit) :
    ∃ through forgetting guarded,
      s.mount unit path .readWrite = .ok through ∧ s.mount unit path .forget = .ok forgetting ∧
      s.mount unit path .readOnly = .ok guarded ∧
      (∃ answers through' forgetting' disk image,
        UnitCall.runAll calls through = (answers, through') ∧
        UnitCall.runAll calls forgetting = (answers, forgetting') ∧
        through'.files.get? path = some image ∧
        forgetting'.disk? unit = some disk ∧ disk.backing = .buffer image ∧
        forgetting'.files.get? path = some data) ∧
      ∃ answers guarded', UnitCall.runAll calls guarded = (answers, guarded') ∧
        guarded'.files.get? path = some data ∧
        ∀ (i : Nat) (c : UnitCall), calls[i]? = some c → c.unit = unit → answers[i]? =
          some (if c.transfer.writes then .error (.writeProtected unit) else (c.answer forgetting).1) := by
  -- the units that are called; no other one matters
  let units : Set Word := {u | ∃ c ∈ calls, c.unit = u}
  have apart : ∀ u ∈ units, u ≠ unit → s.Apart path u := by
    rintro u ⟨c, hc, rfl⟩
    exact apart c hc
  have known (c : UnitCall) (hc : c ∈ calls) : c.unit ∈ units := ⟨c, hc, rfl⟩
  have low := not_maxUnit_lt valid
  let disk := opened path data .readWrite
  have mirrors : Mirrors unit disk path data units data (s.setDisk unit (some disk))
      (s.setDisk unit (some (opened path data .forget))) :=
    { onFile := mounted_setDisk valid found apart _
      onBuffer := mounted_setDisk valid found apart _
      disks := fun u ne => by rw [disk?_setDisk low, disk?_setDisk low, if_neg ne, if_neg ne]
      files := fun _ _ => rfl }
  refine ⟨_, _, _, mount_ok valid found .readWrite, mount_ok valid found .forget,
    mount_ok valid found .readOnly, ?_, ?_⟩
  · obtain ⟨same, image, after⟩ := runAll_mirrors mirrors valid fun c hc => .inr (known c hc)
    refine ⟨_, _, (UnitCall.runAll calls (s.setDisk unit (some (opened path data .forget)))).2, _, image,
      rfl, Prod.ext same ?_, after.onFile.file, after.onBuffer.disk, rfl, after.onBuffer.file⟩
    rfl
  · have guarded : Mounted unit { disk with backing := .file path, readOnly := true } path data units
        (s.setDisk unit (some (opened path data .readOnly))) :=
      mounted_setDisk valid found apart _
    obtain ⟨file, answers⟩ := runAll_protected (b := .buffer data) guarded
      (require_eq_ok.2 ⟨valid, mirrors.onBuffer.disk⟩) rfl valid fun c hc _ => known c hc
    exact ⟨_, _, rfl, file, answers⟩

/-- A host file of four sectors, whose name says that they are skewed. -/
def fourSectors : Storage :=
  { Storage.empty with files := [("a.do", Bytes.zeros 1024)] }

/-- The name is one part, of which the rest is read off. -/
theorem splitOn_fourSectors : "a.do".splitOn "/" = ["a.do"] := by cbv

theorem ofPath_fourSectors : Skew.ofPath "a.do" = true := by
  rw [Skew.ofPath, HostPath.extension?, HostPath.name?, HostPath.parts, splitOn_fourSectors]
  decide

theorem get?_fourSectors : fourSectors.files.get? "a.do" = some (Bytes.zeros 1024) := by
  have file : HostPath.file? "a.do" = some ("a.do".startsWith "/", ["a.do"]) := by
    rw [HostPath.file?, HostPath.parts, splitOn_fourSectors]
    rfl
  show HostFiles.get? [("a.do", Bytes.zeros 1024)] "a.do" = _
  rw [HostFiles.get?_cons, if_pos (HostPath.same_iff.2 ⟨_, file, file⟩)]

/-- A write that stops in its second sector, and calls after it. -/
def stopping : List UnitCall :=
  [⟨4, .write 254 [1, 2, 3, 4]⟩, ⟨4, .readBlocks 0 512⟩, ⟨4, .read 255 1⟩, ⟨4, .writeBlocks 2 [7]⟩]

theorem mount_modes_agree_stopping :
    ∃ through forgetting through' forgetting' image,
      fourSectors.mount 4 "a.do" .readWrite = .ok through ∧
      fourSectors.mount 4 "a.do" .forget = .ok forgetting ∧
      UnitCall.runAll stopping through = ([.error (.outOfRange 4 3584 2 1024),
        .error (.outOfRange 4 3584 256 1024), .ok [2], .error (.outOfRange 4 1024 1 1024)], through') ∧
      UnitCall.runAll stopping forgetting = ([.error (.outOfRange 4 3584 2 1024),
        .error (.outOfRange 4 3584 256 1024), .ok [2], .error (.outOfRange 4 1024 1 1024)], forgetting') ∧
      through'.files.get? "a.do" = some image ∧
      forgetting'.files.get? "a.do" = some (Bytes.zeros 1024) := by
  have valid : checkUnit 4 = .ok () := rfl
  have all : ∀ c ∈ stopping, c.unit = 4 := by decide
  obtain ⟨through, forgetting, -, mounted, mounted', -,
    ⟨answers, through', forgetting', -, image, run, run', file, -, -, kept⟩, -⟩ :=
    mount_modes_agree valid get?_fourSectors stopping fun c hc ne => absurd (all c hc) ne
  have computed : (UnitCall.runAll stopping forgetting).1 = [.error (.outOfRange 4 3584 2 1024),
      .error (.outOfRange 4 3584 256 1024), .ok [2], .error (.outOfRange 4 1024 1 1024)] := by
    rw [mount_ok rfl get?_fourSectors] at mounted'
    cases mounted'
    rw [opened, ofPath_fourSectors]
    decide +kernel
  rw [run'] at computed
  subst computed
  exact ⟨through, forgetting, through', forgetting', image, mounted, mounted', run, run', file, kept⟩

end Storage
end PSystem
