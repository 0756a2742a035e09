import PSystem.Proofs.FlatDisk

/-!
# Writes that fail

A write is refused before its first byte if the disk is write-protected or the bytes reach beyond its size.
On a skewed disk that ends within a track a run can then still lie beyond the end, and the write stops there:
the runs before it are on the disk, at their places, and everything else is as it was
(`failed_write_keeps_other_places`).
-/

namespace PSystem

namespace Disk

variable {skewed : Bool} {position length first middle last : Nat} {bytes image image₁ image' : Bytes}
  {p : Piece} {ps : List Piece}

/-! ## Bytes at their places -/

/-- The bytes of a transfer from one offset to another are at their places in an image, which is otherwise as
it was. -/
structure Overwritten (skewed : Bool) (position : Nat) (bytes : Bytes) (first last : Nat)
    (image image' : Bytes) : Prop where
  length : image'.length = image.length
  new : ∀ k, first ≤ k → k < last → image'[Skew.physical skewed (position + k)]? = bytes[k]?
  old : ∀ q, (∀ k, first ≤ k → k < last → q ≠ Skew.physical skewed (position + k)) → image'[q]? = image[q]?

theorem Overwritten.refl (skewed : Bool) (position : Nat) (bytes image : Bytes) (first : Nat) :
    Overwritten skewed position bytes first first image image :=
  ⟨rfl, fun _ low high => absurd low (Nat.not_le.2 high), fun _ _ => rfl⟩

/-- Bytes that were written stay, because those after them have other places. -/
theorem Overwritten.trans (h : Overwritten skewed position bytes first middle image image₁)
    (h' : Overwritten skewed position bytes middle last image₁ image') (le : first ≤ middle)
    (le' : middle ≤ last) : Overwritten skewed position bytes first last image image' := by
  refine ⟨h'.length.trans h.length, fun k low high => ?_, fun q elsewhere => ?_⟩
  · by_cases before : k < middle
    · rw [h'.old, h.new k low before]
      intro k' low' _ same
      have := Skew.physical_injective same
      omega
    · exact h'.new k (Nat.le_of_not_lt before) high
  · rw [h'.old q fun k low high => elsewhere k (by omega) high,
      h.old q fun k low high => elsewhere k low (by omega)]

/-- A piece puts its bytes at their places. -/
theorem overwritten_splice
    (row : ∀ k < p.length, Skew.physical skewed (position + p.offset + k) = p.place + k)
    (has : p.offset + p.length ≤ bytes.length) (fits : p.place + p.length ≤ image.length) :
    Overwritten skewed position bytes p.offset (p.offset + p.length) image
      (splice image p.place ((bytes.drop p.offset).take p.length)) := by
  have part : ((bytes.drop p.offset).take p.length).length = p.length := by
    rw [List.length_take, List.length_drop]
    omega
  have put := splice_eq_put (fits.trans' (Nat.le_of_eq (congrArg (p.place + ·) part)))
  refine ⟨Bytes.length_put put, fun k low high => ?_, fun q elsewhere => Bytes.getElem?_put put ?_⟩
  · obtain ⟨i, rfl⟩ := Nat.exists_eq_add_of_le low
    have inside : i < p.length := by omega
    rw [← Nat.add_assoc, row i inside,
      Bytes.getElem?_of_stands (Bytes.put_stands put) (part.symm ▸ inside), List.getElem_take,
      List.getElem_drop, List.getElem?_eq_getElem]
  · rw [part]
    by_contra within
    -- a place that was written is that of one of the bytes of the piece
    have here := row (q - p.place) (by omega)
    refine elsewhere (p.offset + (q - p.place)) (by omega) (by omega) ?_
    rw [← Nat.add_assoc, here]
    omega

/-! ## Pieces of a write -/

/-- Every piece lies between the ends, and its bytes lie in a row. -/
theorem Tiles.of_mem (h : Tiles skewed position first ps last) (member : p ∈ ps) :
    0 < p.length ∧ first ≤ p.offset ∧ p.offset + p.length ≤ last ∧
      ∀ k < p.length, Skew.physical skewed (position + p.offset + k) = p.place + k := by
  induction h with
  | nil => cases member
  | cons positive row later ih =>
    have reach := later.le
    rcases List.mem_cons.1 member with rfl | behind
    · exact ⟨positive, Nat.le_refl _, reach, row⟩
    · obtain ⟨positive', after, before, row'⟩ := ih behind
      exact ⟨positive', by omega, before, row'⟩

/-- A disk in one piece or of whole tracks has room for every piece of a transfer within it. -/
theorem Tiles.fits {size : Nat} (h : Tiles skewed position first ps last) (member : p ∈ ps)
    (whole : skewed = true → size % 4096 = 0) (inside : position + last ≤ size) :
    p.place + p.length ≤ size := by
  obtain ⟨positive, -, before, row⟩ := h.of_mem member
  have end_ := row (p.length - 1) (by omega)
  have below := Skew.physical_lt (p := position + p.offset + (p.length - 1)) whole (by omega)
  omega

/-- The pieces of a skewed transfer from the start of a sector on are the sectors. -/
theorem sector_of_mem_pieces (aligned : position % 256 = 0) (member : p ∈ pieces true position length) :
    p.offset % 256 = 0 ∧ p.length = min 256 (length - p.offset) := by
  have size : Skew.sectorSize = 256 := rfl
  rw [pieces] at member
  split at member
  · cases member
  · rename_i some_
    obtain ⟨i, bound, rfl⟩ := List.mem_map.1 member
    rw [List.mem_range] at bound
    simp only [size] at bound ⊢
    omega

end Disk

namespace Storage

open Disk (Tiles Overwritten)

variable {s s' : Storage} {unit block : Word} {disk : Disk} {image bytes : Bytes} {position : Nat}
  {p : Disk.Piece} {e : StorageError}

/-! ## Writes on disks in memory -/

theorem writePiece_beyond (mounted : s.require unit = .ok disk) (beyond : disk.size < p.place + p.length) :
    writePiece unit bytes p s = .error (.outOfRange unit p.place p.length disk.size) s := by
  simp only [writePiece, mounted, checkRange, if_pos beyond]

theorem writePiece_inside (mounted : s.require unit = .ok { disk with backing := .buffer image })
    (size : disk.size = image.length) (inside : p.place + p.length ≤ disk.size)
    (has : p.offset + p.length ≤ bytes.length)
    (row : ∀ k < p.length, Skew.physical disk.skewed (position + p.offset + k) = p.place + k) :
    ∃ s' image', writePiece unit bytes p s = .ok () s' ∧
      s'.require unit = .ok { disk with backing := .buffer image' } ∧ SameBeside unit s s' ∧
      Overwritten disk.skewed position bytes p.offset (p.offset + p.length) image image' := by
  have overwritten := Disk.overwritten_splice row has (size ▸ inside)
  have valid := (require_eq_ok.1 mounted).1
  refine ⟨_, _, ?_, require_setDisk valid _, sameBeside_setDisk (not_maxUnit_lt valid) _, overwritten⟩
  simp only [writePiece, mounted, checkRange, if_neg (Nat.not_lt.2 inside)]

/-- Pieces are written up to the first that does not lie in the disk. -/
theorem writePieces_fails {ps : List Disk.Piece} {offset stop : Nat}
    (tiles : Tiles disk.skewed position offset ps stop) (has : stop ≤ bytes.length)
    (mounted : s.require unit = .ok { disk with backing := .buffer image }) (size : disk.size = image.length)
    (failed : writePieces unit bytes ps s = .error e s') :
    ∃ p ∈ ps, ∃ image', disk.size < p.place + p.length ∧ e = .outOfRange unit p.place p.length disk.size ∧
      s'.require unit = .ok { disk with backing := .buffer image' } ∧ SameBeside unit s s' ∧
      Overwritten disk.skewed position bytes offset p.offset image image' := by
  -- over the pieces: each that is written leaves an image of the same length to those after it
  induction tiles generalizing s image with
  | nil => cases failed
  | @cons p rest stop positive row later ih =>
    have reach := later.le
    have has' : p.offset + p.length ≤ bytes.length := by omega
    replace failed : EStateM.bind (writePiece unit bytes p) (fun _ => writePieces unit bytes rest) s =
      .error e s' := failed
    by_cases inside : p.place + p.length ≤ disk.size
    · obtain ⟨s₁, image₁, wrote, mounted₁, beside, overwritten⟩ :=
        writePiece_inside mounted size inside has' row
      rw [EStateM.bind, wrote] at failed
      obtain ⟨p', member, image', beyond, error, mounted', beside', overwritten'⟩ :=
        ih has mounted₁ (size.trans overwritten.length.symm) failed
      have after := (later.of_mem member).2.1
      exact ⟨p', List.mem_cons_of_mem _ member, image', beyond, error, mounted', beside.trans beside',
        overwritten.trans overwritten' (by omega) after⟩
    · have beyond := Nat.lt_of_not_le inside
      rw [EStateM.bind, writePiece_beyond mounted beyond] at failed
      cases failed
      exact ⟨p, List.mem_cons_self, image, beyond, rfl, mounted, .refl .., .refl ..⟩

/-- How a write of blocks ends that was stopped at an offset: the run from there on does not lie in the disk,
and the image has the bytes before it, each at its place. -/
structure Stopped (unit : Word) (disk : Disk) (position : Nat) (bytes : Bytes) (image : Bytes) (offset : Nat)
    (e : StorageError) (image' : Bytes) : Prop where
  run : offset < bytes.length ∧ offset % 256 = 0
  inside : ∀ k < offset, Skew.physical true (position + k) < disk.size
  beyond : disk.size < Skew.physical true (position + offset) + min 256 (bytes.length - offset)
  error : e = .outOfRange unit (Skew.physical true (position + offset))
    (min 256 (bytes.length - offset)) disk.size
  overwritten : Overwritten true position bytes 0 offset image image'

/-- Pieces within the size of a disk can fail to lie in it only if it is skewed and ends within a track. -/
theorem writePieces_stopped (h : s.InMemory unit disk image) (aligned : position % 256 = 0)
    (within : position + bytes.length ≤ disk.size)
    (failed : writePieces unit bytes (Disk.pieces disk.skewed position bytes.length) s = .error e s') :
    disk.skewed = true ∧ disk.size % 4096 ≠ 0 ∧
      ∃ offset image', Stopped unit disk position bytes image offset e image' ∧
        s'.InMemory unit { disk with backing := .buffer image' } image' ∧ SameBeside unit s s' := by
  have tiles := Disk.tiles_pieces disk.skewed position bytes.length
  have mounted : s.require unit = .ok { disk with backing := .buffer image } := by
    rw [← h.buffered]
    exact h.mounted
  obtain ⟨p, member, image', beyond, error, mounted', beside, overwritten⟩ :=
    writePieces_fails tiles (Nat.le_refl _) mounted h.size failed
  -- on any other disk the piece would have had room
  have short : disk.skewed = true ∧ disk.size % 4096 ≠ 0 := by
    by_contra whole
    rw [not_and_not_right] at whole
    exact Nat.not_le.2 beyond (tiles.fits member whole within)
  obtain ⟨positive, -, before, row⟩ := tiles.of_mem member
  have place := row 0 positive
  rw [short.1] at member overwritten place
  rw [Nat.add_zero, Nat.add_zero] at place
  obtain ⟨sector, length⟩ := Disk.sector_of_mem_pieces aligned member
  rw [← place, length] at beyond error
  -- every byte before the run is in the image, so its place is one of the image
  have inside : ∀ k < p.offset, Skew.physical true (position + k) < disk.size := by
    intro k low
    have byte := overwritten.new k (Nat.zero_le _) low
    rw [List.getElem?_eq_getElem (show k < bytes.length by omega)] at byte
    obtain ⟨below, -⟩ := List.getElem?_eq_some_iff.1 byte
    rwa [overwritten.length, ← h.size] at below
  exact ⟨short.1, short.2, p.offset, image', ⟨⟨by omega, sector⟩, inside, beyond, error, overwritten⟩,
    ⟨mounted', rfl, h.size.trans overwritten.length.symm⟩, beside⟩

/-- A write of blocks that fails leaves everything as it was, unless the disk is skewed and ends within a
track and the bytes do not reach beyond its size: then it keeps the runs before the first that does not lie
in the disk, and everything else is as it was. -/
theorem failed_write_keeps_other_places (h : s.InMemory unit disk image)
    (failed : writeBlocks unit block bytes s = .error e s') :
    (s' = s ∧ (disk.readOnly = true ∧ e = .writeProtected unit ∨
      disk.readOnly = false ∧ disk.size < block.toNat * 512 + bytes.length ∧
        e = .outOfRange unit (block.toNat * 512) bytes.length disk.size)) ∨
    (disk.readOnly = false ∧ block.toNat * 512 + bytes.length ≤ disk.size ∧
      disk.skewed = true ∧ disk.size % 4096 ≠ 0 ∧
      ∃ offset image', Stopped unit disk (block.toNat * 512) bytes image offset e image' ∧
        s'.InMemory unit { disk with backing := .buffer image' } image' ∧ SameBeside unit s s') := by
  rw [writeBlocks, show Bytes.blockSize = 512 from rfl, writeAt, h.mounted] at failed
  by_cases readOnly : disk.readOnly = true
  · simp only [readOnly, if_true] at failed
    cases failed
    exact .inl ⟨rfl, .inl ⟨readOnly, rfl⟩⟩
  · simp only [readOnly, Bool.false_eq_true, if_false] at failed
    have writable := Bool.eq_false_iff.2 readOnly
    by_cases within : block.toNat * 512 + bytes.length ≤ disk.size
    · rw [checkRange, if_neg (Nat.not_lt.2 within)] at failed
      exact .inr ⟨writable, within, writePieces_stopped h (by omega) within failed⟩
    · have outside := Nat.lt_of_not_le within
      rw [checkRange, if_pos outside] at failed
      cases failed
      exact .inl ⟨rfl, .inr ⟨writable, outside, rfl⟩⟩

/-- A skewed disk of one block, which ends within a track. -/
def oneBlock : Storage :=
  empty.setDisk 4 (some (Disk.ofBytes (Bytes.zeros 512) false true))

theorem oneBlock_inMemory :
    oneBlock.InMemory 4 (Disk.ofBytes (Bytes.zeros 512) false true) (Bytes.zeros 512) :=
  ⟨require_setDisk rfl _, rfl, rfl⟩

/-- The disk on a unit after a write that failed. -/
def afterFailure (unit block : Word) (bytes : Bytes) (s : Storage) : Option (StorageError × Option Disk) :=
  match writeBlocks unit block bytes s with
  | .ok _ _ => none
  | .error e s' => some (e, s'.disk? unit)

theorem afterFailure_eq_some {disk : Option Disk} (h : afterFailure unit block bytes s = some (e, disk)) :
    ∃ s', writeBlocks unit block bytes s = .error e s' ∧ s'.disk? unit = disk := by
  rw [afterFailure] at h
  split at h
  · cases h
  · rename_i s' failed
    cases h
    exact ⟨s', failed, rfl⟩

/-- The first of the two sectors of a block is written, the other lies beyond the end. -/
theorem oneBlock_stopped : afterFailure 4 0 (List.replicate 512 1) oneBlock =
    some (.outOfRange 4 3584 256 512, some { Disk.ofBytes (Bytes.zeros 512) false true with
      backing := .buffer (List.replicate 256 1 ++ Bytes.zeros 256) }) := by
  decide +kernel

theorem failed_write_keeps_other_places_oneBlock :
    ∃ offset image' s', Stopped 4 (Disk.ofBytes (Bytes.zeros 512) false true) 0 (List.replicate 512 1)
        (Bytes.zeros 512) offset (.outOfRange 4 3584 256 512) image' ∧
      writeBlocks 4 0 (List.replicate 512 1) oneBlock = .error (.outOfRange 4 3584 256 512) s' ∧
      SameBeside 4 oneBlock s' := by
  obtain ⟨s', failed, -⟩ := afterFailure_eq_some oneBlock_stopped
  rcases failed_write_keeps_other_places oneBlock_inMemory failed with ⟨-, refused⟩ | ⟨-, -, -, -, stopped⟩
  · rcases refused with ⟨readOnly, -⟩ | ⟨-, beyond, -⟩
    · cases readOnly
    · exact absurd beyond (by decide +kernel)
  · obtain ⟨offset, image', stopped, -, beside⟩ := stopped
    exact ⟨offset, image', s', stopped, failed, beside⟩

/-- A write that failed has changed the image of its disk. -/
theorem failed_write_changes_image :
    oneBlock.InMemory 4 (Disk.ofBytes (Bytes.zeros 512) false true) (Bytes.zeros 512) ∧
      ∃ e s', writeBlocks 4 0 (List.replicate 512 1) oneBlock = .error e s' ∧
        ∀ disk, ¬ s'.InMemory 4 disk (Bytes.zeros 512) := by
  refine ⟨oneBlock_inMemory, ?_⟩
  obtain ⟨s', failed, changed⟩ := afterFailure_eq_some oneBlock_stopped
  refine ⟨_, s', failed, fun disk same => ?_⟩
  have mounted := (require_eq_ok.1 same.mounted).2
  rw [changed] at mounted
  cases mounted
  exact absurd same.buffered (by decide +kernel)

end Storage
end PSystem
