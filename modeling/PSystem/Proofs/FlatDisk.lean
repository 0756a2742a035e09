import Mathlib.Data.Set.Function
import Mathlib.Order.Interval.Set.Defs
import PSystem.Proofs.Disk
import PSystem.Proofs.Fields

/-!
# Disks as plain arrays of bytes

Places of bytes are a permutation of the positions of a disk, so a disk in memory stores exactly one
logical byte string (`Disk.Shows.image_eq`), and a piece that is written over its image is the same piece
written over the string (`Disk.Shows.splice`).  A write lays its pieces end to end, and with it the whole
disk behaves as a plain array under every sequence of transfers (`unit_is_flat_array`).
-/

namespace PSystem

/-! ## Places are a permutation -/

namespace Skew

variable {skewed : Bool} {p q n : Nat}

theorem getD_idxOf_table : ∀ sector < 16, table.idxOf sector < 16 ∧
    table.getD (table.idxOf sector) 0 = sector := by
  decide

/-- Two bytes have different places. -/
theorem physical_injective (h : physical skewed p = physical skewed q) : p = q := by
  cases skewed with
  | false => exact h
  | true =>
    have belowP := table_lt (p / 256 % 16) (Nat.mod_lt _ (by decide))
    have belowQ := table_lt (q / 256 % 16) (Nat.mod_lt _ (by decide))
    have backP := idxOf_table (p / 256 % 16) (Nat.mod_lt _ (by decide))
    have backQ := idxOf_table (q / 256 % 16) (Nat.mod_lt _ (by decide))
    rw [physical_true, physical_true] at h
    have row : table.getD (p / 256 % 16) 0 = table.getD (q / 256 % 16) 0 := by omega
    rw [row] at backP
    have sector : p / 256 % 16 = q / 256 % 16 := backP.symm.trans backQ
    omega

/-- Every place of whole tracks is the place of a byte. -/
theorem exists_physical (whole : skewed = true → n % 4096 = 0) (h : q < n) :
    ∃ p < n, physical skewed p = q := by
  cases skewed with
  | false => exact ⟨q, h, rfl⟩
  | true =>
    have whole := whole rfl
    obtain ⟨below, back⟩ := getD_idxOf_table (q / 256 % 16) (Nat.mod_lt _ (by decide))
    refine ⟨q / 4096 * 4096 + table.idxOf (q / 256 % 16) * 256 + q % 256, by omega, ?_⟩
    have track : (q / 4096 * 4096 + table.idxOf (q / 256 % 16) * 256 + q % 256) / 4096 = q / 4096 := by
      omega
    have sector : (q / 4096 * 4096 + table.idxOf (q / 256 % 16) * 256 + q % 256) / 256 % 16 =
        table.idxOf (q / 256 % 16) := by omega
    have byte : (q / 4096 * 4096 + table.idxOf (q / 256 % 16) * 256 + q % 256) % 256 = q % 256 := by
      omega
    rw [physical_true, track, sector, byte, back]
    omega

end Skew

/-! ## The bytes that an image stores -/

namespace Disk

variable {d : Disk} {image logical logical' part : Bytes} {position : Nat} {p : Piece}

/-- The bytes of an image in the order of their positions. -/
def shown (skewed : Bool) (image : Bytes) : Bytes :=
  (List.range image.length).map fun p => Bytes.at0 image (Skew.physical skewed p)

theorem shows_shown (size : d.size = image.length) (whole : d.skewed = true → image.length % 4096 = 0) :
    d.Shows image (shown d.skewed image) := by
  have same : (shown d.skewed image).length = image.length := by
    rw [shown, List.length_map, List.length_range]
  refine ⟨size.trans same.symm, same.symm, fun h => same.symm ▸ whole h, fun p h => ?_⟩
  rw [same] at h
  have place := Skew.physical_lt whole h
  rw [shown, List.getElem?_map, List.getElem?_range h, Option.map_some, Bytes.at0,
    List.getD_eq_getElem?_getD,
    List.getElem?_eq_getElem place, Option.getD_some]

/-- A volume of whole tracks is not filled up. -/
theorem filled_of_whole {skewed : Bool} (whole : skewed = true → logical.length % 4096 = 0) :
    filled skewed logical = logical := by
  refine ((prefix_filled skewed logical).eq_of_length ?_).symm
  cases skewed with
  | false => rfl
  | true =>
    have whole := whole rfl
    show logical.length = (Skew.wholeTracks logical).length
    rw [Skew.length_wholeTracks]
    omega

theorem length_stored {skewed : Bool} (whole : skewed = true → logical.length % 4096 = 0) :
    (stored skewed logical).length = logical.length := by
  refine Eq.trans ?_ (congrArg List.length (filled_of_whole whole))
  cases skewed with
  | false => rfl
  | true => exact Skew.length_store logical

/-- An image is the sectors of what it shows, each at its place. -/
theorem Shows.image_eq (h : d.Shows image logical) : image = stored d.skewed logical := by
  have length := length_stored h.whole
  have stored_ : d.Shows (stored d.skewed logical) (filled d.skewed logical) :=
    shows_stored (h.size.trans length.symm)
  rw [filled_of_whole h.whole] at stored_
  apply List.ext_getElem?
  intro q
  by_cases below : q < logical.length
  · obtain ⟨p, hp, rfl⟩ := Skew.exists_physical h.whole below
    rw [h.bytes p hp, stored_.bytes p hp]
  · rw [List.getElem?_eq_none (by have := h.length; omega), List.getElem?_eq_none (by omega)]

/-! ## Writing a piece -/

theorem splice_eq_put {data : Bytes} {place : Nat} (fits : place + part.length ≤ data.length) :
    Bytes.put? data place part = some (Disk.splice data place part) := by
  have gap : place - data.length = 0 := by omega
  rw [Bytes.put?, if_pos fits, Disk.splice, gap, Bytes.zeros, List.replicate_zero, List.append_nil]

/-- A piece written over the image is the piece written over the bytes that it shows. -/
theorem Shows.splice (h : d.Shows image logical) (length : part.length = p.length)
    (row : ∀ k < p.length, Skew.physical d.skewed (position + p.offset + k) = p.place + k)
    (put : Bytes.put? logical (position + p.offset) part = some logical') (positive : 0 < p.length) :
    p.place + p.length ≤ d.size ∧ d.Shows (Disk.splice image p.place part) logical' := by
  obtain ⟨inside, -⟩ := Bytes.put_eq_some put
  have last := row (p.length - 1) (by omega)
  have below := Skew.physical_lt (p := position + p.offset + (p.length - 1)) h.whole (by omega)
  have size := h.size
  have same := h.length
  have fits : p.place + part.length ≤ image.length := by omega
  -- The piece is whole on the image as it is in the array, so both sides are one put.
  have putImage := splice_eq_put fits
  have length' := Bytes.length_put put
  refine ⟨by omega, size.trans length'.symm, ?_, fun s => length'.symm ▸ h.whole s, fun q hq => ?_⟩
  · rw [Bytes.length_put putImage, length', same]
  · rw [length'] at hq
    by_cases within : position + p.offset ≤ q ∧ q < position + p.offset + p.length
    · obtain ⟨k, rfl⟩ := Nat.exists_eq_add_of_le within.1
      have hk : k < part.length := by omega
      rw [row k (by omega), Bytes.getElem?_of_stands (Bytes.put_stands putImage) hk,
        Bytes.getElem?_of_stands (Bytes.put_stands put) hk]
    · have apart : Skew.physical d.skewed q < p.place ∨
          p.place + part.length ≤ Skew.physical d.skewed q := by
        -- Two positions of the array at one place of the image would be the same position.
        by_contra inside
        have here := row (Skew.physical d.skewed q - p.place) (by omega)
        have := Skew.physical_injective (here.trans (by omega : _ = Skew.physical d.skewed q))
        omega
      rw [Bytes.getElem?_put putImage apart, Bytes.getElem?_put put (by omega), h.bytes q hq]

end Disk

/-! ## Transfers -/

/-- A transfer that is asked of a unit, by position or by block. -/
inductive Transfer where
  | read (position length : Nat)
  | write (position : Nat) (bytes : Bytes)
  | readBlocks (block : Word) (length : Nat)
  | writeBlocks (block : Word) (bytes : Bytes)

namespace Transfer

variable {σ : Type}

/-- Answers to transfers in order, and the state after the last of them. -/
def runAll (answer : Transfer → σ → Except StorageError Bytes × σ) :
    List Transfer → σ → List (Except StorageError Bytes) × σ
  | [], s => ([], s)
  | t :: rest, s =>
    let (first, s') := answer t s
    let (others, last) := runAll answer rest s'
    (first :: others, last)

/-- What was read, or nothing after a write, and the array afterwards. -/
def ofWrite : EStateM.Result StorageError σ Unit → Except StorageError Bytes × σ
  | .ok _ s => (.ok [], s)
  | .error e s => (.error e, s)

/-- A transfer on a unit. -/
def onUnit (unit : Word) (t : Transfer) (s : Storage) : Except StorageError Bytes × Storage :=
  match t with
  | read position length => (s.readAt unit position length, s)
  | write position bytes => ofWrite (Storage.writeAt unit position bytes s)
  | readBlocks block length => (s.readBlocks unit block length, s)
  | writeBlocks block bytes => ofWrite (Storage.writeBlocks unit block bytes s)

end Transfer

/-! ## Plain arrays -/

namespace FlatArray

/-- Reads from a plain array. -/
def read (unit : Word) (position length : Nat) (array : Bytes) : Except StorageError Bytes :=
  if position + length ≤ array.length then .ok ((array.drop position).take length)
  else .error (.outOfRange unit position length array.length)

/-- Writes into a plain array. -/
def write (unit : Word) (readOnly : Bool) (position : Nat) (bytes array : Bytes) :
    Except StorageError Bytes × Bytes :=
  if readOnly then (.error (.writeProtected unit), array)
  else
    match Bytes.put? array position bytes with
    | some array' => (.ok [], array')
    | none => (.error (.outOfRange unit position bytes.length array.length), array)

/-- A transfer on a plain array, with the failures of a unit. -/
def transfer (unit : Word) (readOnly : Bool) (t : Transfer) (array : Bytes) :
    Except StorageError Bytes × Bytes :=
  match t with
  | .read position length => (read unit position length array, array)
  | .write position bytes => write unit readOnly position bytes array
  | .readBlocks block length => (read unit (block.toNat * Bytes.blockSize) length array, array)
  | .writeBlocks block bytes => write unit readOnly (block.toNat * Bytes.blockSize) bytes array

theorem write_of_refused {unit : Word} {readOnly : Bool} {position : Nat} {bytes array : Bytes}
    (refused : readOnly = true ∨ array.length < position + bytes.length) :
    write unit readOnly position bytes array =
      (.error (if readOnly then .writeProtected unit
        else .outOfRange unit position bytes.length array.length), array) := by
  unfold write
  split
  · rfl
  · rename_i writable
    have beyond := refused.resolve_left writable
    rw [Bytes.put?, if_neg (Nat.not_le.2 beyond)]

end FlatArray

/-! ## Units in memory -/

namespace Storage

open Disk (Shows Tiles)

variable {s s' : Storage} {unit : Word} {disk : Disk} {image array bytes : Bytes} {position length : Nat}

/-- A unit has a disk whose image is kept in memory and shows these bytes. -/
structure Backs (s : Storage) (unit : Word) (disk : Disk) (image array : Bytes) : Prop where
  mounted : s.require unit = .ok { disk with backing := .buffer image }
  shows_ : disk.Shows image array

/-- Nothing but the disk on a unit has changed. -/
def SameBeside (unit : Word) (s s' : Storage) : Prop :=
  s'.files = s.files ∧ ∀ other, other ≠ unit → s'.disk? other = s.disk? other

theorem SameBeside.refl (unit : Word) (s : Storage) : SameBeside unit s s :=
  ⟨rfl, fun _ _ => rfl⟩

theorem SameBeside.trans {s'' : Storage} (h : SameBeside unit s s') (h' : SameBeside unit s' s'') :
    SameBeside unit s s'' :=
  ⟨h'.1.trans h.1, fun other ne => (h'.2 other ne).trans (h.2 other ne)⟩

theorem sameBeside_setDisk (low : ¬ maxUnit < unit) (d : Option Disk) :
    SameBeside unit s (s.setDisk unit d) := by
  refine ⟨rfl, fun other ne => ?_⟩
  unfold disk?
  split
  · rfl
  · rename_i otherLow
    rw [setDisk, Cells.get_set _ (toNat_lt_of_not_maxUnit_lt low) (toNat_lt_of_not_maxUnit_lt otherLow),
      if_neg fun same => ne (UInt16.toNat_inj.1 same).symm]

theorem Backs.setDisk (h : s.Backs unit disk image array) {image' array' : Bytes}
    (shows' : disk.Shows image' array') :
    (s.setDisk unit (some { disk with backing := .buffer image' })).Backs unit disk image' array' ∧
      SameBeside unit s (s.setDisk unit (some { disk with backing := .buffer image' })) := by
  have valid := (require_eq_ok.1 h.mounted).1
  exact ⟨⟨require_setDisk valid _, shows'⟩, sameBeside_setDisk (not_maxUnit_lt valid) _⟩

/-! ## Writes -/

theorem writePiece_of_backs {p : Disk.Piece} {array' : Bytes} (h : s.Backs unit disk image array)
    (positive : 0 < p.length)
    (row : ∀ k < p.length, Skew.physical disk.skewed (position + p.offset + k) = p.place + k)
    (has : p.offset + p.length ≤ bytes.length)
    (put : Bytes.put? array (position + p.offset) ((bytes.drop p.offset).take p.length) = some array') :
    ∃ s' image', writePiece unit bytes p s = .ok () s' ∧ s'.Backs unit disk image' array' ∧
      SameBeside unit s s' := by
  have length : ((bytes.drop p.offset).take p.length).length = p.length := by
    rw [List.length_take, List.length_drop]
    omega
  obtain ⟨fits, shows'⟩ := h.shows_.splice length row put positive
  obtain ⟨backs, beside⟩ := h.setDisk shows'
  refine ⟨_, _, ?_, backs, beside⟩
  have room : ¬ disk.size < p.place + p.length := Nat.not_lt.2 fits
  simp only [writePiece, h.mounted, checkRange, if_neg room]

theorem writePieces_of_backs {ps : List Disk.Piece} {offset stop : Nat}
    (tiles : Tiles disk.skewed position offset ps stop) (has : stop ≤ bytes.length)
    (inside : position + stop ≤ array.length) (h : s.Backs unit disk image array) :
    ∃ s' image' array', writePieces unit bytes ps s = .ok () s' ∧ s'.Backs unit disk image' array' ∧
      SameBeside unit s s' ∧
      Bytes.put? array (position + offset) ((bytes.drop offset).take (stop - offset)) = some array' := by
  -- One piece is one put of the array; puts that follow each other join to one put.
  induction tiles generalizing s image array with
  | nil =>
    refine ⟨s, image, array, rfl, h, .refl .., ?_⟩
    rw [Nat.sub_self, List.take_zero]
    exact Bytes.put_nil inside
  | @cons p rest stop positive row later ih =>
    have reach := later.le
    have length : ((bytes.drop p.offset).take p.length).length = p.length := by
      rw [List.length_take, List.length_drop]
      omega
    obtain ⟨array₁, put⟩ : ∃ array₁, Bytes.put? array (position + p.offset)
        ((bytes.drop p.offset).take p.length) = some array₁ := Bytes.exists_put (by omega)
    obtain ⟨s₁, image₁, wrote, backs, beside⟩ := writePiece_of_backs h positive row (by omega) put
    have same := Bytes.length_put put
    obtain ⟨s', image', array', wrote', backs', beside', put'⟩ := ih has (by omega) backs
    refine ⟨s', image', array', ?_, backs', beside.trans beside', ?_⟩
    · show EStateM.bind _ _ s = _
      rw [EStateM.bind, wrote]
      exact wrote'
    · have two : stop - p.offset = p.length + (stop - (p.offset + p.length)) := by omega
      rw [two, List.take_add, List.drop_drop]
      refine Bytes.put_append put ?_
      rw [length, Nat.add_assoc]
      exact put'

/-- A write within a disk writes into the bytes that it shows. -/
theorem writeAt_of_backs (h : s.Backs unit disk image array) (writable : disk.readOnly = false)
    (inside : position + bytes.length ≤ array.length) :
    ∃ s' image' array', writeAt unit position bytes s = .ok () s' ∧ s'.Backs unit disk image' array' ∧
      SameBeside unit s s' ∧ Bytes.put? array position bytes = some array' := by
  obtain ⟨s', image', array', wrote, backs, beside, put⟩ :=
    writePieces_of_backs (Disk.tiles_pieces disk.skewed position bytes.length) (Nat.le_refl _) inside h
  rw [Nat.sub_zero, List.drop_zero, List.take_length, Nat.add_zero] at put
  refine ⟨s', image', array', ?_, backs, beside, put⟩
  have room : ¬ disk.size < position + bytes.length := by
    rw [h.shows_.size]
    omega
  simp only [writeAt, h.mounted, writable, Bool.false_eq_true, if_false, checkRange, if_neg room]
  exact wrote

/-- A write that fails leaves everything as it was. -/
theorem writeAt_fails (h : s.Backs unit disk image array)
    (refused : disk.readOnly = true ∨ array.length < position + bytes.length) :
    writeAt unit position bytes s =
      .error (if disk.readOnly then .writeProtected unit
        else .outOfRange unit position bytes.length array.length) s := by
  by_cases readOnly : disk.readOnly = true
  · simp only [writeAt, h.mounted, readOnly, if_true]
  · have beyond := refused.resolve_left readOnly
    rw [← h.shows_.size] at beyond ⊢
    simp only [writeAt, h.mounted, readOnly, if_false, checkRange, if_pos beyond, Bool.false_eq_true]

theorem readAt_of_backs (h : s.Backs unit disk image array) :
    s.readAt unit position length = FlatArray.read unit position length array := by
  unfold FlatArray.read
  split
  · rename_i inside
    exact readAt_of_shows h.mounted rfl
      ⟨h.shows_.size, h.shows_.length, h.shows_.whole, h.shows_.bytes⟩ inside
  · rename_i beyond
    have beyond' : disk.size < position + length := by
      rw [h.shows_.size]
      omega
    rw [readAt, h.mounted, except_ok_bind, checkRange, if_pos beyond', h.shows_.size]
    rfl

theorem ofWrite_of_backs (h : s.Backs unit disk image array) :
    ∃ s' image' array',
      Transfer.ofWrite (writeAt unit position bytes s) =
        ((FlatArray.write unit disk.readOnly position bytes array).1, s') ∧
      (FlatArray.write unit disk.readOnly position bytes array).2 = array' ∧
      s'.Backs unit disk image' array' ∧ SameBeside unit s s' := by
  by_cases refused : disk.readOnly = true ∨ array.length < position + bytes.length
  · have same : FlatArray.write unit disk.readOnly position bytes array = _ :=
      FlatArray.write_of_refused refused
    refine ⟨s, image, array, ?_, by rw [same], h, .refl ..⟩
    rw [writeAt_fails h refused, same]
    rfl
  · obtain ⟨writable, inside⟩ := not_or.1 refused
    have fits : position + bytes.length ≤ array.length := by omega
    obtain ⟨s', image', array', wrote, backs, beside, put⟩ :=
      writeAt_of_backs h (Bool.eq_false_iff.2 writable) fits
    refine ⟨s', image', array', ?_, ?_, backs, beside⟩
    · rw [wrote, FlatArray.write, if_neg writable, put]
      rfl
    · rw [FlatArray.write, if_neg writable, put]

/-- One transfer is the same on a unit and on the array that its disk shows. -/
theorem onUnit_of_backs (h : s.Backs unit disk image array) (t : Transfer) :
    ∃ s' image' array',
      t.onUnit unit s = ((FlatArray.transfer unit disk.readOnly t array).1, s') ∧
      (FlatArray.transfer unit disk.readOnly t array).2 = array' ∧
      s'.Backs unit disk image' array' ∧ SameBeside unit s s' := by
  cases t with
  | read position length => exact ⟨s, image, array, Prod.ext (readAt_of_backs h) rfl, rfl, h, .refl ..⟩
  | readBlocks block length => exact ⟨s, image, array, Prod.ext (readAt_of_backs h) rfl, rfl, h, .refl ..⟩
  | write position bytes => exact ofWrite_of_backs h
  | writeBlocks block bytes => exact ofWrite_of_backs h

/-- So are transfers one after the other. -/
theorem runAll_of_backs (h : s.Backs unit disk image array) (transfers : List Transfer) :
    ∃ s' image' array',
      Transfer.runAll (Transfer.onUnit unit) transfers s =
        ((Transfer.runAll (FlatArray.transfer unit disk.readOnly) transfers array).1, s') ∧
      (Transfer.runAll (FlatArray.transfer unit disk.readOnly) transfers array).2 = array' ∧
      s'.Backs unit disk image' array' ∧ SameBeside unit s s' := by
  induction transfers generalizing s image array with
  | nil => exact ⟨s, image, array, rfl, rfl, h, .refl ..⟩
  | cons t rest ih =>
    obtain ⟨s₁, image₁, array₁, first, here, backs, beside⟩ := onUnit_of_backs h t
    obtain ⟨s', image', array', others, there, backs', beside'⟩ := ih backs
    refine ⟨s', image', array', ?_, ?_, backs', beside.trans beside'⟩
    · simp only [Transfer.runAll, first, here, others]
    · simp only [Transfer.runAll, here, there]

/-! ## Units are plain arrays -/

/-- A unit has a disk in memory. -/
structure InMemory (s : Storage) (unit : Word) (disk : Disk) (image : Bytes) : Prop where
  mounted : s.require unit = .ok disk
  buffered : disk.backing = .buffer image
  size : disk.size = image.length

theorem inMemory_attach {readOnly skewed : Bool}
    (h : s.attach unit (Disk.ofBytes image readOnly skewed) = .ok s') :
    s'.InMemory unit (Disk.ofBytes image readOnly skewed) image := by
  obtain ⟨u, valid, h⟩ := except_bind_eq_ok.1 h
  cases h
  exact ⟨require_setDisk valid _, rfl, rfl⟩

/-- A host file whose changes are to be forgotten is read into memory. -/
theorem inMemory_mount {path : String} (h : s.mount unit path .forget = .ok s') :
    ∃ disk image, s'.InMemory unit disk image ∧ disk.readOnly = false ∧
      disk.skewed = Skew.ofPath path := by
  obtain ⟨u, valid, h⟩ := except_bind_eq_ok.1 h
  obtain ⟨disk, opened, h⟩ := except_bind_eq_ok.1 h
  cases h
  unfold openFile at opened
  split at opened
  · cases opened
  · cases opened
    exact ⟨_, _, ⟨require_setDisk valid _, rfl, rfl⟩, rfl, rfl⟩

theorem InMemory.backs (h : s.InMemory unit disk image)
    (whole : disk.skewed = true → image.length % 4096 = 0) :
    s.Backs unit disk image (Disk.shown disk.skewed image) := by
  refine ⟨?_, Disk.shows_shown h.size whole⟩
  rw [← h.buffered]
  exact h.mounted

theorem Backs.inMemory (h : s.Backs unit disk image array) :
    s.InMemory unit { disk with backing := .buffer image } image :=
  ⟨h.mounted, rfl, h.shows_.size.trans h.shows_.length.symm⟩

/-- A disk in memory whose sectors are in order, or skewed on whole tracks, is a plain array of bytes under
every sequence of transfers: the answers are those of the array, and the image is the array with its sectors
in their places.  After the sequence every transfer within the disk succeeds, but for writes on a protected
disk, and the others fail and leave everything as it was. -/
theorem unit_is_flat_array (inMemory : s.InMemory unit disk image)
    (whole : disk.skewed = true → image.length % 4096 = 0) (transfers : List Transfer) :
    ∃ answers s' array,
      Transfer.runAll (Transfer.onUnit unit) transfers s = (answers, s') ∧
      Transfer.runAll (FlatArray.transfer unit disk.readOnly) transfers (Disk.shown disk.skewed image) =
        (answers, array) ∧
      (array.length = disk.size ∧
        s'.InMemory unit { disk with backing := .buffer (Disk.stored disk.skewed array) }
          (Disk.stored disk.skewed array) ∧
        Set.BijOn (Skew.physical disk.skewed) (Set.Iio disk.size) (Set.Iio disk.size) ∧
        (∀ p < disk.size, (Disk.stored disk.skewed array)[Skew.physical disk.skewed p]? = array[p]?) ∧
        SameBeside unit s s') ∧
      (∀ position length, position + length ≤ disk.size →
        s'.readAt unit position length = .ok ((array.drop position).take length)) ∧
      (∀ position (bytes : Bytes), disk.readOnly = false → position + bytes.length ≤ disk.size →
        ∃ s'', writeAt unit position bytes s' = .ok () s'') ∧
      (∀ position length, disk.size < position + length → ∃ e, s'.readAt unit position length = .error e) ∧
      ∀ position (bytes : Bytes), disk.readOnly = true ∨ disk.size < position + bytes.length →
        ∃ e, writeAt unit position bytes s' = .error e s' := by
  obtain ⟨s', image', array, run, rfl, backs, beside⟩ := runAll_of_backs (inMemory.backs whole) transfers
  -- The image after the run is determined by the array: it is the array as it is stored.
  have size := backs.shows_.size
  have stored := backs.shows_.image_eq
  subst stored
  refine ⟨_, s', _, run, rfl, ⟨size.symm, backs.inMemory, ⟨?_, ?_, ?_⟩, ?_, beside⟩, ?_, ?_, ?_, ?_⟩
  · intro p hp
    exact Skew.physical_lt (n := disk.size)
      (fun skewed => by rw [size]; exact backs.shows_.whole skewed) hp
  · exact fun p _ q _ same => Skew.physical_injective same
  · intro q hq
    exact Skew.exists_physical (n := disk.size)
      (fun skewed => by rw [size]; exact backs.shows_.whole skewed) hq
  · rw [size]
    exact backs.shows_.bytes
  · intro position length inside
    rw [readAt_of_backs backs, FlatArray.read, if_pos (size ▸ inside)]
  · intro position bytes writable inside
    obtain ⟨s'', _, _, wrote, -⟩ := writeAt_of_backs backs writable (size ▸ inside)
    exact ⟨s'', wrote⟩
  · intro position length beyond
    rw [readAt_of_backs backs, FlatArray.read, if_neg (Nat.not_le.2 (size ▸ beyond))]
    exact ⟨_, rfl⟩
  · intro position bytes refused
    exact ⟨_, writeAt_fails backs (size ▸ refused)⟩

/-- A skewed disk with one track. -/
def oneTrack : Storage :=
  empty.setDisk 4 (some (Disk.ofBytes (Bytes.zeros 4096) false true))

theorem oneTrack_inMemory :
    oneTrack.InMemory 4 (Disk.ofBytes (Bytes.zeros 4096) false true) (Bytes.zeros 4096) :=
  ⟨require_setDisk rfl _, rfl, rfl⟩

/-- Four bytes across the end of a sector, two of them read back, and a read beyond the end. -/
def acrossSectors : List Transfer :=
  [.write 254 [1, 2, 3, 4], .read 255 2, .read 4095 2]

theorem oneTrack_answers : (Transfer.runAll (Transfer.onUnit 4) acrossSectors oneTrack).1 =
    [.ok [], .ok [2, 3], .error (.outOfRange 4 4095 2 4096)] := by
  decide +kernel

theorem unit_is_flat_array_oneTrack :
    ∃ array,
      Transfer.runAll (FlatArray.transfer 4 false) acrossSectors (Disk.shown true (Bytes.zeros 4096)) =
        ([.ok [], .ok [2, 3], .error (.outOfRange 4 4095 2 4096)], array) ∧
      ∀ p < 4096, (Disk.stored true array)[Skew.physical true p]? = array[p]? := by
  obtain ⟨answers, s', array, onUnit, onArray, ⟨-, -, -, places, -⟩, -⟩ :=
    unit_is_flat_array oneTrack_inMemory (fun _ => by rw [Bytes.zeros, List.length_replicate])
      acrossSectors
  have same := oneTrack_answers
  rw [onUnit] at same
  subst same
  refine ⟨array, onArray, ?_⟩
  rwa [show (Disk.ofBytes (Bytes.zeros 4096) false true).size = 4096 from List.length_replicate] at places

end Storage
end PSystem
