import PSystem.CodeFile
import PSystem.Proofs.DictionaryCodec
import PSystem.Proofs.DirectoryCodec

/-!
# Where files and segments lie

The files of a volume lie block by block one after another, and so do the segments of a code file, so
each starts behind the blocks of what stands before it.  The directory and the dictionary name these
blocks, those of segments counted from the start of the file.
-/

namespace PSystem

/-! ## Whole blocks -/

namespace Bytes

variable {data : Bytes} {n blocks : Nat}

theorem le_blocksFor (n : Nat) : n ≤ blocksFor n * blockSize := by
  simp only [blocksFor, blockSize]
  omega

theorem length_padBlocks (h : data.length ≤ blocks * blockSize) :
    (padBlocks data blocks).length = blocks * blockSize := by
  rw [padBlocks, List.length_append, length_zeros]
  omega

end Bytes

/-! ## Segments of a code file -/

namespace CodeFile

open Bytes (blockSize blocksFor padBlocks length_padBlocks le_blocksFor)

variable {order : ByteOrder} {parts before after : List CodePart} {part : CodePart} {code : Bytes}
  {slot block : Nat}

/-- The blocks of segments. -/
def blocksOf (parts : List CodePart) : Nat :=
  (parts.map fun part => blocksFor part.bytes.length).sum

theorem length_padded (parts : List CodePart) :
    (parts.flatMap fun part => padBlocks part.bytes (blocksFor part.bytes.length)).length =
      blocksOf parts * blockSize := by
  induction parts with
  | nil => rfl
  | cons part rest ih =>
    rw [List.flatMap_cons, List.length_append, ih, length_padBlocks (le_blocksFor _), ← Nat.add_mul]
    rfl

theorem entries_append (slot block : Nat) (before after : List CodePart) :
    entries slot block (before ++ after) =
      entries slot block before ++ entries (slot + before.length) (block + blocksOf before) after := by
  induction before generalizing slot block with
  | nil => rfl
  | cons part rest ih =>
    have count : slot + 1 + rest.length = slot + (part :: rest).length := by
      rw [List.length_cons]
      omega
    have reach : block + blocksFor part.bytes.length + blocksOf rest = block + blocksOf (part :: rest) :=
      Nat.add_assoc ..
    rw [List.cons_append, entries, ih, count, reach]
    rfl

/-- Every entry is that of a segment, in a slot of its own. -/
theorem mem_entries {e : DictionaryEntry} (h : e ∈ entries slot block parts) :
    slot ≤ e.slot ∧ e.slot < slot + parts.length ∧
      ∃ part ∈ parts, e.number = part.number ∧ e.length = UInt16.ofNat part.bytes.length := by
  induction parts generalizing slot block with
  | nil => cases h
  | cons part rest ih =>
    rw [List.length_cons]
    rcases List.mem_cons.1 h with rfl | h
    · exact ⟨Nat.le_refl _, by dsimp only; omega, part, List.mem_cons_self, rfl, rfl⟩
    · obtain ⟨low, high, other, member, same⟩ := ih h
      exact ⟨by omega, by omega, other, List.mem_cons_of_mem _ member, same⟩

theorem sorted_entries (slot block : Nat) (parts : List CodePart) :
    (entries slot block parts).Pairwise (·.slot < ·.slot) := by
  induction parts generalizing slot block with
  | nil => exact .nil
  | cons part rest ih => exact .cons (fun e he => (mem_entries he).1) (ih ..)

theorem numbers_entries (slot block : Nat) (parts : List CodePart) :
    (entries slot block parts).map (·.number) = parts.map (·.number) := by
  induction parts generalizing slot block with
  | nil => rfl
  | cons part rest ih => exact congrArg _ (ih ..)

/-- What a code file is made of. -/
theorem image?_eq_some (h : image? order parts = some code) :
    ∃ dictionary, Dictionary.encode? order (entries 0 1 parts) = some dictionary ∧
      code = dictionary ++
        parts.flatMap fun part => padBlocks part.bytes (blocksFor part.bytes.length) := by
  obtain ⟨dictionary, encoded, h⟩ := Option.bind_eq_some_iff.1 h
  exact ⟨dictionary, encoded, (Option.some.inj h).symm⟩

theorem length_image? (h : image? order parts = some code) :
    code.length = (1 + blocksOf parts) * blockSize := by
  obtain ⟨dictionary, encoded, rfl⟩ := image?_eq_some h
  rw [List.length_append, Dictionary.length_encode? encoded, length_padded, Nat.add_mul, Nat.one_mul]

/-- A segment stands behind block 0 and the segments before it. -/
theorem part_stands (h : image? order (before ++ part :: after) = some code) :
    part.bytes <+: code.drop ((1 + blocksOf before) * blockSize) := by
  obtain ⟨dictionary, encoded, rfl⟩ := image?_eq_some h
  have start : (1 + blocksOf before) * blockSize = dictionary.length + (before.flatMap fun part =>
      padBlocks part.bytes (blocksFor part.bytes.length)).length := by
    rw [Dictionary.length_encode? encoded, length_padded, Nat.add_mul, Nat.one_mul]
  rw [start, ← List.drop_drop, List.drop_left, List.flatMap_append, List.drop_left, List.flatMap_cons]
  exact (List.prefix_append ..).trans (List.prefix_append ..)

/-- The dictionary of a code file is read from its first block. -/
theorem parse?_image? (h : image? order parts = some code) (count : parts.length ≤ Dictionary.slots)
    (some_ : parts ≠ []) (sizes : ∀ part ∈ parts, 0 < part.bytes.length ∧ part.bytes.length < 65536) :
    Dictionary.parse? (code.take blockSize) =
      some { order := order, entries := (entries 0 1 parts).map Dictionary.shown } := by
  obtain ⟨dictionary, encoded, rfl⟩ := image?_eq_some h
  rw [List.take_left' (Dictionary.length_encode? encoded)]
  refine Dictionary.parse?_encode?_of_sorted encoded ?_ (sorted_entries ..) ?_
  · intro e he
    obtain ⟨-, below, part, member, -, length⟩ := mem_entries he
    obtain ⟨positive, small⟩ := sizes part member
    refine ⟨by omega, ?_⟩
    intro zero
    rw [length] at zero
    have := congrArg UInt16.toNat zero
    rw [UInt16.toNat_ofNat_of_lt' small] at this
    exact Nat.ne_of_gt positive this
  · cases parts with
    | nil => exact absurd rfl some_
    | cons part rest =>
      have one : (1 : Word) ≠ 0 ∧ (1 : Word) < 256 := by decide
      exact ⟨_, List.mem_cons_self, rfl, one⟩

end CodeFile

/-! ## Files of a volume -/

namespace Volume

open Bytes (blockSize blocksFor padBlocks length_padBlocks le_blocksFor)

variable {label name : String} {files before after : List (String × Bytes)} {bytes image : Bytes}

/-- The blocks of files, each of which has at least one. -/
def blocksOf (files : List (String × Bytes)) : Nat :=
  (files.map fun file => max 1 (blocksFor file.2.length)).sum

/-- The first block behind the directory. -/
def firstFile : Nat :=
  Directory.firstBlock + Directory.size / blockSize

theorem length_padded (files : List (String × Bytes)) :
    (files.flatMap fun (_, bytes) => padBlocks bytes (max 1 (blocksFor bytes.length))).length =
      blocksOf files * blockSize := by
  induction files with
  | nil => rfl
  | cons file rest ih =>
    have fits : file.2.length ≤ max 1 (blocksFor file.2.length) * blockSize :=
      Nat.le_trans (le_blocksFor _) (Nat.mul_le_mul_right _ (Nat.le_max_right ..))
    rw [List.flatMap_cons, List.length_append, ih, length_padBlocks fits, ← Nat.add_mul]
    rfl

theorem extents_append (block : Nat) (before after : List (String × Bytes)) :
    extents block (before ++ after) = extents block before ++ extents (block + blocksOf before) after := by
  induction before generalizing block with
  | nil => rfl
  | cons file rest ih =>
    have reach : block + max 1 (blocksFor file.2.length) + blocksOf rest = block + blocksOf (file :: rest) :=
      Nat.add_assoc ..
    rw [List.cons_append, extents, ih, reach]
    rfl

theorem names_extents (block : Nat) (files : List (String × Bytes)) :
    (extents block files).map (·.name) = files.map (·.1) := by
  induction files generalizing block with
  | nil => rfl
  | cons file rest ih => exact congrArg _ (ih _)

theorem length_extents (block : Nat) (files : List (String × Bytes)) :
    (extents block files).length = files.length := by
  rw [← List.length_map (f := FileExtent.name), names_extents, List.length_map]

/-- What a volume is made of. -/
theorem image?_eq_some (h : image? label files = some image) :
    ∃ directory, Directory.encode? label (extents firstFile files) = some directory ∧
      image = Bytes.zeros (Directory.firstBlock * blockSize) ++ directory ++
        files.flatMap fun (_, bytes) => padBlocks bytes (max 1 (blocksFor bytes.length)) := by
  obtain ⟨directory, encoded, h⟩ := Option.bind_eq_some_iff.1 h
  exact ⟨directory, encoded, (Option.some.inj h).symm⟩

theorem length_image? (h : image? label files = some image) :
    image.length = (firstFile + blocksOf files) * blockSize := by
  obtain ⟨directory, encoded, rfl⟩ := image?_eq_some h
  obtain ⟨-, -, length, -⟩ := Directory.encode?_stands encoded
  rw [List.length_append, List.length_append, length, length_padded, Bytes.length_zeros,
    Nat.add_mul]
  rfl

/-- The directory stands in its blocks. -/
theorem directory_stands (h : image? label files = some image) :
    ∃ directory, Directory.encode? label (extents firstFile files) = some directory ∧
      (image.drop (Directory.firstBlock * blockSize)).take Directory.size = directory := by
  obtain ⟨directory, encoded, rfl⟩ := image?_eq_some h
  obtain ⟨-, -, length, -⟩ := Directory.encode?_stands encoded
  refine ⟨directory, encoded, ?_⟩
  rw [List.append_assoc, List.drop_left' (Bytes.length_zeros _), List.take_left' length]

/-- A file stands behind the directory and the files before it. -/
theorem file_stands (h : image? label (before ++ (name, bytes) :: after) = some image) :
    bytes <+: image.drop ((firstFile + blocksOf before) * blockSize) := by
  obtain ⟨directory, encoded, rfl⟩ := image?_eq_some h
  obtain ⟨-, -, length, -⟩ := Directory.encode?_stands encoded
  have front : (Bytes.zeros (Directory.firstBlock * blockSize) ++ directory).length =
      firstFile * blockSize := by
    rw [List.length_append, length, Bytes.length_zeros]
    rfl
  rw [Nat.add_mul, ← List.drop_drop, List.drop_left' front, List.flatMap_append,
    List.drop_left' (length_padded before), List.flatMap_cons]
  exact (List.prefix_append ..).trans (List.prefix_append ..)

end Volume
end PSystem
