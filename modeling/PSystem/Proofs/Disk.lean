import Mathlib.Algebra.Ring.Nat
import Mathlib.Data.List.Basic
import PSystem.Proofs.Memory
import PSystem.Storage

/-!
# Disks as logical byte strings

A disk in memory shows a byte string: the byte at each logical position is the one at its place in the
image.  Within a sector places follow each other, so the pieces of a transfer, each within a sector,
lie end to end (`Tiles`).  A read gives exactly as many bytes as were asked for, and within a disk in
memory the bytes that it shows (`readAt_of_shows`).
-/

namespace PSystem

/-! ## Places of bytes -/

namespace Skew

variable {skewed : Bool} {p k n : Nat}

theorem table_lt : ∀ sector < 16, table.getD sector 0 < 16 := by
  decide

theorem idxOf_table : ∀ sector < 16, table.idxOf (table.getD sector 0) = sector := by
  decide

/-- A byte stays in its track and keeps its place in its sector. -/
theorem physical_true (p : Nat) :
    physical true p = p / 4096 * 4096 + table.getD (p / 256 % 16) 0 * 256 + p % 256 := by
  simp only [physical, physicalSector, sectorSize, sectorsPerTrack, if_true, Nat.div_div_eq_div_mul]
  omega

theorem physical_add (within : skewed = true → p % 256 + k < 256) :
    physical skewed (p + k) = physical skewed p + k := by
  cases skewed with
  | false => rfl
  | true =>
    have within := within rfl
    have track : (p + k) / 4096 = p / 4096 := by omega
    have sector : (p + k) / 256 = p / 256 := by omega
    rw [physical_true, physical_true, track, sector]
    omega

/-- Whole tracks are permuted among themselves. -/
theorem physical_lt (whole : skewed = true → n % 4096 = 0) (h : p < n) : physical skewed p < n := by
  cases skewed with
  | false => exact h
  | true =>
    have whole := whole rfl
    have inside := table_lt (p / 256 % 16) (Nat.mod_lt _ (by decide))
    rw [physical_true]
    omega

/-! ## Images that are stored skewed -/

/-- A volume filled up to whole tracks. -/
def wholeTracks (logical : List UInt8) : List UInt8 :=
  let track := sectorsPerTrack * sectorSize
  let tracks := (logical.length + track - 1) / track
  logical ++ List.replicate (tracks * track - logical.length) 0

theorem length_wholeTracks (logical : List UInt8) :
    (wholeTracks logical).length = (logical.length + 4095) / 4096 * 4096 := by
  simp only [wholeTracks, sectorsPerTrack, sectorSize, List.length_append, List.length_replicate]
  omega

theorem length_flatMap_range {α : Type} {f : Nat → List α} {m : Nat}
    (length : ∀ i < m, (f i).length = n) : ((List.range m).flatMap f).length = m * n := by
  induction m with
  | zero => rw [List.range_zero, List.flatMap_nil, List.length_nil, Nat.zero_mul]
  | succ m ih =>
    rw [List.range_succ, List.flatMap_append, List.length_append,
      ih fun i hi => length i (Nat.lt_succ_of_lt hi), List.flatMap_singleton, length m (Nat.lt_succ_self m),
      Nat.succ_mul]

/-- A part of parts of one length. -/
theorem getElem?_flatMap_range {α : Type} {f : Nat → List α} {m i r : Nat}
    (length : ∀ i < m, (f i).length = n) (hi : i < m) (hr : r < n) :
    ((List.range m).flatMap f)[i * n + r]? = (f i)[r]? := by
  induction m with
  | zero => omega
  | succ m ih =>
    have before : ∀ i < m, (f i).length = n := fun i hi => length i (Nat.lt_succ_of_lt hi)
    have start := length_flatMap_range before
    rw [List.range_succ, List.flatMap_append, List.flatMap_singleton]
    rcases Nat.lt_succ_iff_lt_or_eq.1 hi with earlier | rfl
    · have inside : i * n + r < m * n := by
        have := Nat.mul_le_mul_right n earlier
        rw [Nat.succ_mul] at this
        omega
      rw [List.getElem?_append_left (by rw [start]; exact inside), ih before earlier]
    · rw [List.getElem?_append_right (by omega), start, Nat.add_sub_cancel_left]

/-- The sector that `store` puts at a place. -/
def storedSector (logical : List UInt8) (place : Nat) : List UInt8 :=
  ((wholeTracks logical).drop
    ((place / sectorsPerTrack * sectorsPerTrack + table.idxOf (place % sectorsPerTrack)) * sectorSize)).take
      sectorSize

theorem store_eq (logical : List UInt8) :
    store logical =
      (List.range ((wholeTracks logical).length / sectorSize)).flatMap (storedSector logical) := by
  have sectors : (wholeTracks logical).length / sectorSize =
      (logical.length + sectorsPerTrack * sectorSize - 1) / (sectorsPerTrack * sectorSize) *
        sectorsPerTrack := by
    rw [length_wholeTracks]
    simp only [sectorsPerTrack, sectorSize]
    omega
  rw [sectors]
  rfl

theorem length_storedSector {logical : List UInt8} {place : Nat}
    (h : place < (wholeTracks logical).length / sectorSize) :
    (storedSector logical place).length = sectorSize := by
  have idx : table.idxOf (place % 16) < 16 :=
    List.idxOf_lt_length_of_mem ((by decide : ∀ i < 16, i ∈ table) _ (Nat.mod_lt _ (by decide)))
  rw [length_wholeTracks] at h
  rw [storedSector, List.length_take, List.length_drop, length_wholeTracks]
  simp only [sectorsPerTrack, sectorSize] at h ⊢
  omega

theorem length_store (logical : List UInt8) : (store logical).length = (wholeTracks logical).length := by
  rw [store_eq, length_flatMap_range fun _ => length_storedSector, length_wholeTracks]
  simp only [sectorSize]
  omega

/-- Every logical byte of a skewed image is found at its place. -/
theorem getElem?_store {logical : List UInt8} (h : p < (wholeTracks logical).length) :
    (store logical)[physical true p]? = (wholeTracks logical)[p]? := by
  have tracks := length_wholeTracks logical
  have below := table_lt (p / 256 % 16) (Nat.mod_lt _ (by decide))
  have back := idxOf_table (p / 256 % 16) (Nat.mod_lt _ (by decide))
  have split : physical true p =
      (p / 4096 * 16 + table.getD (p / 256 % 16) 0) * sectorSize + p % 256 := by
    rw [physical_true]
    simp only [sectorSize]
    omega
  have place : p / 4096 * 16 + table.getD (p / 256 % 16) 0 < (wholeTracks logical).length / sectorSize := by
    simp only [sectorSize]
    omega
  -- The table moves a sector within its track, so the track is that of the position and the sector
  -- comes back through the table.
  have track : (p / 4096 * 16 + table.getD (p / 256 % 16) 0) / 16 = p / 4096 := by omega
  have sector : (p / 4096 * 16 + table.getD (p / 256 % 16) 0) % 16 = table.getD (p / 256 % 16) 0 := by omega
  have within : p % 256 < sectorSize := Nat.mod_lt _ (by decide)
  rw [store_eq, split, getElem?_flatMap_range (fun _ => length_storedSector) place within, storedSector,
    List.getElem?_take_of_lt within, List.getElem?_drop]
  have source : (p / 4096 * 16 + table.getD (p / 256 % 16) 0) / sectorsPerTrack * sectorsPerTrack +
      table.idxOf ((p / 4096 * 16 + table.getD (p / 256 % 16) 0) % sectorsPerTrack) = p / 256 := by
    rw [show sectorsPerTrack = 16 from rfl, track, sector, back]
    omega
  have here : p / 256 * sectorSize + p % 256 = p := Nat.div_add_mod' p 256
  rw [source, here]

end Skew

/-! ## What a disk shows -/

namespace Disk

variable {skewed : Bool} {position length i n : Nat}

/-- The image behind a disk, and the bytes at the logical positions of the disk. -/
structure Shows (d : Disk) (image logical : Bytes) : Prop where
  size : d.size = logical.length
  length : image.length = logical.length
  whole : d.skewed = true → logical.length % 4096 = 0
  bytes : ∀ p < logical.length, image[Skew.physical d.skewed p]? = logical[p]?

/-- The image of a volume, with the sectors in order or skewed. -/
def stored (skewed : Bool) (volume : Bytes) : Bytes :=
  if skewed then Skew.store volume else volume

/-- A volume filled up to whole tracks where its image is skewed. -/
def filled (skewed : Bool) (volume : Bytes) : Bytes :=
  if skewed then Skew.wholeTracks volume else volume

theorem prefix_filled (skewed : Bool) (volume : Bytes) : volume <+: filled skewed volume := by
  cases skewed with
  | false => exact List.prefix_rfl
  | true => exact List.prefix_append ..

theorem shows_stored {d : Disk} {volume : Bytes} (size : d.size = (stored d.skewed volume).length) :
    d.Shows (stored d.skewed volume) (filled d.skewed volume) := by
  cases skewed : d.skewed with
  | false =>
    rw [skewed] at size
    refine ⟨size, rfl, fun h => ?_, fun _ _ => ?_⟩
    · rw [skewed] at h
      cases h
    · rw [skewed]
      rfl
  | true =>
    rw [skewed] at size
    refine ⟨size.trans (Skew.length_store volume), Skew.length_store volume, fun _ => ?_, fun p h => ?_⟩
    · exact (Skew.length_wholeTracks volume).symm ▸ Nat.mul_mod_left ..
    · rw [skewed]
      exact Skew.getElem?_store h

/-! ## Pieces of a transfer -/

/-- Pieces lie end to end from one offset in the transfer to another, each with its bytes in a row. -/
inductive Tiles (skewed : Bool) (position : Nat) : (offset : Nat) → List Piece → (stop : Nat) → Prop
  | nil {offset : Nat} : Tiles skewed position offset [] offset
  | cons {p : Piece} {rest : List Piece} {stop : Nat} :
      0 < p.length →
      (∀ k < p.length, Skew.physical skewed (position + p.offset + k) = p.place + k) →
      Tiles skewed position (p.offset + p.length) rest stop → Tiles skewed position p.offset (p :: rest) stop

theorem Tiles.le {ps : List Piece} {offset stop : Nat} (h : Tiles skewed position offset ps stop) :
    offset ≤ stop := by
  induction h with
  | nil => exact Nat.le_refl _
  | cons _ _ _ ih => omega

/-- Pieces that lie end to end make up the length between their ends. -/
theorem Tiles.sum {ps : List Piece} {offset stop : Nat} (h : Tiles skewed position offset ps stop) :
    (ps.map Piece.length).sum = stop - offset := by
  induction h with
  | nil => exact (Nat.sub_self _).symm
  | cons _ _ later ih =>
    have reach := later.le
    rw [List.map_cons, List.sum_cons, ih]
    omega

/-- The piece of a skewed transfer in the sector `i` sectors after its first. -/
def sectorPiece (position length i : Nat) : Piece :=
  let start := max position ((position / Skew.sectorSize + i) * Skew.sectorSize)
  let stop := min (position + length) ((position / Skew.sectorSize + i + 1) * Skew.sectorSize)
  { place := Skew.physical true start, offset := start - position, length := stop - start }

/-- The sectors of a skewed transfer from one of its sectors on. -/
theorem tiles_sectors (some_ : 0 < n)
    (last : position / 256 + i + n = (position + length - 1) / 256 + 1) (positive : 0 < length) :
    Tiles true position (max position ((position / 256 + i) * 256) - position)
      ((List.range' i n).map (sectorPiece position length)) length := by
  induction n generalizing i with
  | zero => omega
  | succ n ih =>
    have size : Skew.sectorSize = 256 := rfl
    rw [List.range'_succ, List.map_cons]
    refine Tiles.cons (p := sectorPiece position length i) ?_ ?_ ?_
    · simp only [sectorPiece, size]
      omega
    · intro k hk
      simp only [sectorPiece, size] at hk ⊢
      rw [Skew.physical_add fun _ => by omega]
      congr 2
      omega
    · have next : (sectorPiece position length i).offset + (sectorPiece position length i).length =
          min (position + length) ((position / 256 + (i + 1)) * 256) - position := by
        simp only [sectorPiece, size]
        omega
      rw [next]
      by_cases more : 0 < n
      · have rest := ih (i := i + 1) more (by omega)
        rw [Nat.max_eq_right (by omega)] at rest
        rw [Nat.min_eq_right (by omega)]
        exact rest
      · -- the last sector holds the end of the transfer
        have none : n = 0 := by omega
        subst none
        rw [Nat.min_eq_left (by omega), Nat.add_sub_cancel_left]
        exact .nil

theorem tiles_pieces (skewed : Bool) (position length : Nat) :
    Tiles skewed position 0 (pieces skewed position length) length := by
  unfold pieces
  split
  · rename_i none
    rw [none]
    exact .nil
  · rename_i some_
    -- Without skew the whole range is one piece; with it there is one for each sector that is
    -- touched.
    cases skewed with
    | false =>
      refine .cons (p := { place := position, offset := 0, length := length })
        (Nat.pos_of_ne_zero some_) ?_ ?_
      · intro k _
        rfl
      · rw [Nat.zero_add]
        exact .nil
    | true =>
      have size : Skew.sectorSize = 256 := rfl
      have sectors := @tiles_sectors position length 0
        ((position + length - 1) / 256 + 1 - position / 256) (by omega) (by omega) (by omega)
      rw [Nat.add_zero, Nat.max_eq_left (by omega), Nat.sub_self, ← List.range_eq_range'] at sectors
      simp only [if_true, size]
      exact sectors

end Disk

/-! ## Reads -/

namespace Storage

open Disk (Shows Tiles)

variable {unit : Word} {disk : Disk} {logical : Bytes} {position : Nat}

theorem length_of_readPiece {unit : Word} {disk : Disk} {image bytes : Bytes} {p : Disk.Piece}
    (h : readPiece unit disk image p = .ok bytes) : bytes.length = p.length := by
  unfold readPiece at h
  obtain ⟨_, _, h⟩ := except_bind_eq_ok.1 h
  split at h
  · cases h
  · cases h
    rw [List.length_take, List.length_drop]
    omega

theorem length_flatten_of_mapM {α ε : Type} {f : α → Except ε Bytes} {size : α → Nat}
    (each : ∀ x bytes, f x = .ok bytes → bytes.length = size x) {xs : List α}
    {parts : List Bytes} (h : xs.mapM f = .ok parts) :
    parts.flatten.length = (xs.map size).sum := by
  induction xs generalizing parts with
  | nil =>
    cases h
    rfl
  | cons x xs ih =>
    rw [List.mapM_cons] at h
    obtain ⟨bytes, hx, h⟩ := except_bind_eq_ok.1 h
    obtain ⟨rest, hr, h⟩ := except_bind_eq_ok.1 h
    cases h
    simp [each x bytes hx, ih hr]

/-- A read gives as many bytes as were asked for. -/
theorem length_of_readAt {s : Storage} {unit : Word} {position length : Nat} {bytes : Bytes}
    (h : s.readAt unit position length = .ok bytes) : bytes.length = length := by
  unfold readAt at h
  obtain ⟨disk, _, h⟩ := except_bind_eq_ok.1 h
  obtain ⟨_, _, h⟩ := except_bind_eq_ok.1 h
  obtain ⟨image, _, h⟩ := except_bind_eq_ok.1 h
  obtain ⟨parts, hp, h⟩ := except_bind_eq_ok.1 h
  cases h
  rw [length_flatten_of_mapM (fun _ _ => length_of_readPiece) hp, (Disk.tiles_pieces ..).sum, Nat.sub_zero]

theorem length_of_readBlocks {s : Storage} {unit block : Word} {length : Nat} {bytes : Bytes}
    (h : s.readBlocks unit block length = .ok bytes) : bytes.length = length :=
  length_of_readAt h

theorem readPiece_of_shows {image : Bytes} {p : Disk.Piece} (shows_ : disk.Shows image logical)
    (positive : 0 < p.length)
    (row : ∀ k < p.length, Skew.physical disk.skewed (position + p.offset + k) = p.place + k)
    (inside : position + p.offset + p.length ≤ logical.length) :
    readPiece unit disk image p = .ok ((logical.drop (position + p.offset)).take p.length) := by
  have last := row (p.length - 1) (by omega)
  have below := Skew.physical_lt (p := position + p.offset + (p.length - 1)) shows_.whole (by omega)
  have size := shows_.size
  have length := shows_.length
  have same : (image.drop p.place).take p.length = (logical.drop (position + p.offset)).take p.length := by
    apply List.ext_getElem?
    intro k
    by_cases hk : k < p.length
    · rw [List.getElem?_take_of_lt hk, List.getElem?_take_of_lt hk, List.getElem?_drop, List.getElem?_drop,
        ← row k hk, shows_.bytes _ (by omega)]
    · rw [List.getElem?_take_eq_none (by omega), List.getElem?_take_eq_none (by omega)]
  rw [readPiece, checkRange, if_neg (by omega), except_ok_bind, if_neg (by omega), same]

/-- A read within a disk gives the bytes that the disk shows. -/
theorem readAt_of_shows {s : Storage} {image : Bytes} {length : Nat}
    (mounted : s.require unit = .ok disk) (backed : s.imageOf disk = .ok image)
    (shows_ : disk.Shows image logical) (inside : position + length ≤ logical.length) :
    s.readAt unit position length = .ok ((logical.drop position).take length) := by
  have read {offset stop : Nat} {ps : List Disk.Piece} (tiles : Tiles disk.skewed position offset ps stop)
      (within : position + stop ≤ logical.length) :
      ∃ parts, ps.mapM (readPiece unit disk image) = .ok parts ∧
        parts.flatten = (logical.drop (position + offset)).take (stop - offset) := by
    induction tiles with
    | nil => exact ⟨[], rfl, by rw [Nat.sub_self, List.take_zero]; rfl⟩
    | @cons p rest stop positive row later ih =>
      obtain ⟨parts, found, joined⟩ := ih within
      have reach := later.le
      have piece : readPiece unit disk image p =
          .ok ((logical.drop (position + p.offset)).take p.length) :=
        readPiece_of_shows shows_ positive row (by omega)
      have two : stop - p.offset = p.length + (stop - (p.offset + p.length)) := by omega
      refine ⟨_ :: parts, by rw [List.mapM_cons, piece, except_ok_bind, found]; rfl, ?_⟩
      rw [List.flatten_cons, joined, two, List.take_add, List.drop_drop, Nat.add_assoc]
  obtain ⟨parts, found, joined⟩ := read (Disk.tiles_pieces disk.skewed position length) inside
  rw [readAt, mounted, except_ok_bind, checkRange, if_neg (by rw [shows_.size]; omega), except_ok_bind,
    backed, except_ok_bind, found, except_ok_bind, joined]
  rfl

/-! ## Units that hold a volume -/

/-- A unit has a disk with a volume, the sectors in order or skewed, in a buffer or in a host file. -/
def Holds (s : Storage) (unit : Word) (volume : Bytes) : Prop :=
  ∃ disk, s.require unit = .ok disk ∧ s.imageOf disk = .ok (Disk.stored disk.skewed volume) ∧
    disk.size = (Disk.stored disk.skewed volume).length

theorem require_eq_ok {s : Storage} : s.require unit = .ok disk ↔ checkUnit unit = .ok () ∧ s.disk? unit = some disk := by
  rw [require, except_bind_eq_ok]
  constructor
  · rintro ⟨⟨⟩, valid, found⟩
    cases on : s.disk? unit with
    | none =>
      rw [on] at found
      cases found
    | some d =>
      rw [on] at found
      cases found
      exact ⟨valid, rfl⟩
  · rintro ⟨valid, on⟩
    exact ⟨(), valid, by rw [on]⟩

theorem not_maxUnit_lt (valid : checkUnit unit = .ok ()) : ¬ maxUnit < unit := by
  intro high
  rw [checkUnit, if_pos high] at valid
  cases valid

theorem toNat_lt_of_not_maxUnit_lt (low : ¬ maxUnit < unit) : unit.toNat < 2 ^ 5 :=
  Nat.lt_of_le_of_lt (UInt16.le_iff_toNat_le.1 (UInt16.not_lt.1 low)) (by decide)

theorem require_setDisk {s : Storage} (valid : checkUnit unit = .ok ()) (d : Disk) :
    (s.setDisk unit (some d)).require unit = .ok d := by
  have low := not_maxUnit_lt valid
  have small := toNat_lt_of_not_maxUnit_lt low
  refine require_eq_ok.2 ⟨valid, ?_⟩
  rw [disk?, if_neg low, setDisk, Cells.get_set _ small small, if_pos rfl]

theorem holds_attach {s s' : Storage} {volume : Bytes} {readOnly skewed : Bool}
    (h : s.attach unit (Disk.ofBytes (Disk.stored skewed volume) readOnly skewed) = .ok s') :
    s'.Holds unit volume := by
  obtain ⟨u, valid, h⟩ := except_bind_eq_ok.1 h
  cases h
  exact ⟨Disk.ofBytes (Disk.stored skewed volume) readOnly skewed, require_setDisk valid _, rfl, rfl⟩

theorem size_of_holds {s : Storage} {volume : Bytes} (h : s.Holds unit volume) :
    ∃ disk, s.disk? unit = some disk ∧ volume.length ≤ disk.size := by
  obtain ⟨disk, mounted, -, size⟩ := h
  refine ⟨disk, (require_eq_ok.1 mounted).2, ?_⟩
  rw [(Disk.shows_stored size).size]
  exact (Disk.prefix_filled disk.skewed volume).length_le

/-- A read within the volume on a unit. -/
theorem readAt_of_holds {s : Storage} {volume : Bytes} {length : Nat} (h : s.Holds unit volume)
    (inside : position + length ≤ volume.length) :
    s.readAt unit position length = .ok ((volume.drop position).take length) := by
  obtain ⟨disk, mounted, backed, size⟩ := h
  obtain ⟨rest, filled⟩ := Disk.prefix_filled disk.skewed volume
  have shows_ := Disk.shows_stored size
  rw [← filled] at shows_
  rw [readAt_of_shows mounted backed shows_ (by rw [List.length_append]; omega),
    List.drop_append_of_le_length (by omega), List.take_append_of_le_length (by rw [List.length_drop]; omega)]

end Storage
end PSystem
