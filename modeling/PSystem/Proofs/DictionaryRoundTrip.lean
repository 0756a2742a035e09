import PSystem.Proofs.DictionaryCodec
import PSystem.Proofs.DirectoryCodec

/-!
# Dictionaries that are written and read

A dictionary whose names are ASCII texts that do not end in what fills up a name field is read back as it
was, in slot order and in the byte order in which it was written.  Every block that is long enough is read,
with one entry for each slot that has a length, whatever its bytes are (`dictionary_round_trip`).
-/

namespace PSystem
namespace Dictionary

variable {order : ByteOrder} {block : Bytes} {entries : List DictionaryEntry} {e : DictionaryEntry}
  {slot i : Nat} {cs pad : List Char}

/-! ## Names -/

/-- What fills up a name field: blanks and zeros. -/
def Fills (c : Char) : Prop :=
  c = ' ' ∨ c = Char.ofNat 0

instance (c : Char) : Decidable (Fills c) :=
  instDecidableOr

/-- A text does not end in what fills up a name field. -/
def Trimmed (cs : List Char) : Prop :=
  ∀ c ∈ cs.getLast?, ¬ Fills c

instance (cs : List Char) : Decidable (Trimmed cs) :=
  Option.decidableForallMem cs.getLast?

/-- A name that its field holds as it is. -/
structure Nameable (name : String) : Prop where
  ascii : Bytes.Ascii name
  short : name.length ≤ nameLength
  trimmed : Trimmed name.toList

/-- Trimming leaves the text before what fills it up. -/
theorem trimName_append (trimmed : Trimmed cs) (fill : ∀ c ∈ pad, Fills c) : trimName (cs ++ pad) = cs := by
  have filled : ∀ c ∈ pad.reverse, decide (c = ' ' ∨ c = Char.ofNat 0) = true := by
    intro c hc
    exact decide_eq_true (fill c (List.mem_reverse.1 hc))
  -- from the end, trimming takes all that fills up the text and stops at its last character
  have stops : cs.reverse.dropWhile (fun c => decide (c = ' ' ∨ c = Char.ofNat 0)) = cs.reverse := by
    unfold Trimmed at trimmed
    rw [← List.head?_reverse] at trimmed
    cases backward : cs.reverse with
    | nil => rfl
    | cons c rest =>
      rw [backward] at trimmed
      exact List.dropWhile_cons_of_neg (by simpa [Fills] using trimmed c rfl)
  rw [trimName, List.reverse_append, List.dropWhile_append_of_pos filled, stops, List.reverse_reverse]

/-- A text is what trimming leaves of it and what fills it up. -/
theorem exists_trimName (cs : List Char) :
    ∃ pad, cs = trimName cs ++ pad ∧ (∀ c ∈ pad, Fills c) ∧ Trimmed (trimName cs) := by
  refine ⟨(cs.reverse.takeWhile fun c => c = ' ' ∨ c = Char.ofNat 0).reverse, ?_, ?_, ?_⟩
  · rw [trimName, ← List.reverse_append, List.takeWhile_append_dropWhile, List.reverse_reverse]
  · intro c hc
    exact of_decide_eq_true (List.all_eq_true.1 List.all_takeWhile c (List.mem_reverse.1 hc))
  · intro c last
    rw [trimName, List.getLast?_reverse] at last
    have stopped := List.head?_dropWhile_not (fun c => decide (c = ' ' ∨ c = Char.ofNat 0)) cs.reverse
    rw [Option.mem_def.1 last] at stopped
    exact of_decide_eq_false stopped

/-- A name that its field holds is given back. -/
theorem shown_of_nameable (named : Nameable e.name) : shown e = e := by
  have length : (Bytes.ofText e.name).length = e.name.length := by
    rw [Bytes.ofText_of_ascii named.ascii, List.length_map, String.length_toList]
  have text : (Bytes.ofText e.name).map (fun b => Char.ofNat b.toNat) = e.name.toList := by
    have same := congrArg String.toList (Bytes.latin_ofText named.ascii)
    rwa [Bytes.latin, String.toList_ofList] at same
  have blanks : ∀ c ∈ List.replicate (nameLength - (Bytes.ofText e.name).length) ' ', Fills c := by
    intro c hc
    exact .inl (List.eq_of_mem_replicate hc)
  have field : trimName ((nameBytes e.name).map fun b => Char.ofNat b.toNat) = e.name.toList := by
    rw [nameBytes, List.take_of_length_le (length ▸ named.short), List.map_append, text,
      List.map_replicate]
    exact trimName_append named.trimmed blanks
  rw [shown, field, String.ofList_toList]

/-! ## Writing all entries -/

theorem exists_writeSlot? (order : ByteOrder) (whole : block.length = Bytes.blockSize)
    (inside : e.slot < slots) : ∃ block', writeSlot? order block e = some block' := by
  simp only [slots] at inside
  have extents : e.slot * 4 + (order.bytes e.block ++ order.bytes e.length).length ≤ block.length := by
    simp only [whole, Bytes.blockSize, ByteOrder.bytes, List.length_append, List.length_cons, List.length_nil]
    omega
  obtain ⟨extent, first⟩ := Bytes.exists_put extents
  have names : namesOffset + e.slot * nameLength + (nameBytes e.name).length ≤ extent.length := by
    rw [length_nameBytes, Bytes.length_put first, whole]
    simp only [namesOffset, nameLength, Bytes.blockSize]
    omega
  obtain ⟨named, second⟩ := Bytes.exists_put names
  have numbers : infoOffset + e.slot * 2 + (order.bytes e.number.toUInt16).length ≤ named.length := by
    rw [Bytes.length_put second, Bytes.length_put first, whole]
    simp only [infoOffset, Bytes.blockSize, ByteOrder.bytes, List.length_cons, List.length_nil]
    omega
  obtain ⟨block', third⟩ := Bytes.exists_put numbers
  refine ⟨block', ?_⟩
  rw [writeSlot?, first, Option.bind_eq_bind, Option.bind_some, second, Option.bind_some, third]

/-- A block has room for all entries whose slots exist. -/
theorem exists_encode? (order : ByteOrder) (inside : ∀ e ∈ entries, e.slot < slots) :
    ∃ block, encode? order entries = some block := by
  -- from any block, because each entry leaves one of the same length to those after it
  have from_ (block : Bytes) (whole : block.length = Bytes.blockSize) :
      ∃ block', entries.foldlM (writeSlot? order) block = some block' := by
    induction entries generalizing block with
    | nil => exact ⟨block, rfl⟩
    | cons e rest ih =>
      obtain ⟨first, written⟩ := exists_writeSlot? order whole (inside e List.mem_cons_self)
      obtain ⟨block', later⟩ := ih (fun f hf => inside f (List.mem_cons_of_mem _ hf)) first
        ((length_writeSlot? written).trans whole)
      refine ⟨block', ?_⟩
      rw [List.foldlM_cons, written]
      exact later
  exact from_ _ (Bytes.length_zeros _)

/-! ## Entries in slot order -/

/-- The entries of all slots, one slot after the other. -/
def inOrder (entries : List DictionaryEntry) : List DictionaryEntry :=
  (List.range slots).filterMap fun slot => entries.find? (·.slot == slot)

theorem sorted_inOrder : (inOrder entries).Pairwise (·.slot < ·.slot) := by
  have own {slot : Nat} {e : DictionaryEntry} (found : entries.find? (·.slot == slot) = some e) :
      e.slot = slot := by
    simpa using List.find?_some found
  refine List.Pairwise.filterMap _ (fun slot slot' less e he e' he' => ?_) List.pairwise_lt_range
  rw [own he, own he']
  exact less

/-- An entry is found by its slot. -/
theorem find?_slot (distinct : entries.Pairwise (·.slot ≠ ·.slot)) (member : e ∈ entries) :
    entries.find? (·.slot == e.slot) = some e := by
  induction entries with
  | nil => cases member
  | cons f rest ih =>
    obtain ⟨apart, distinct⟩ := List.pairwise_cons.1 distinct
    rcases List.mem_cons.1 member with rfl | later
    · exact List.find?_cons_of_pos (beq_self_eq_true _)
    · rw [List.find?_cons_of_neg (by simpa using apart e later)]
      exact ih distinct later

/-- Entries in different slots are only rearranged. -/
theorem inOrder_perm (inside : ∀ e ∈ entries, e.slot < slots)
    (distinct : entries.Pairwise (·.slot ≠ ·.slot)) : (inOrder entries).Perm entries := by
  -- different slots make the entries of both lists different, so that the same members are enough
  have nodup : (inOrder entries).Nodup := sorted_inOrder.imp fun less same => by
    rw [same] at less
    exact Nat.lt_irrefl _ less
  have nodup' : entries.Nodup := distinct.imp fun other same => other (congrArg _ same)
  rw [List.perm_ext_iff_of_nodup nodup nodup']
  intro e
  rw [inOrder, List.mem_filterMap]
  constructor
  · rintro ⟨slot, -, found⟩
    exact List.mem_of_find?_eq_some found
  · intro member
    exact ⟨e.slot, List.mem_range.2 (inside e member), find?_slot distinct member⟩

/-! ## Reading any block -/

/-- The fields of an entry are those of its slot: its extent, the low byte of its information word, and its
name before what fills up the field. -/
structure ReadFrom (order : ByteOrder) (block : Bytes) (e : DictionaryEntry) : Prop where
  extent : order.bytes e.block ++ order.bytes e.length <+: block.drop (e.slot * 4)
  number : ∃ info : Word, order.bytes info <+: block.drop (infoOffset + e.slot * 2) ∧ e.number = info.toUInt8
  name : ∃ pad, ((block.drop (namesOffset + e.slot * nameLength)).take nameLength).map
    (fun b => Char.ofNat b.toNat) = e.name.toList ++ pad ∧ ∀ c ∈ pad, Fills c
  trimmed : Trimmed e.name.toList

theorem readFrom_of_readSlot? (long : size ≤ block.length) (inside : slot < slots)
    (read : readSlot? order block slot = some e) : e.slot = slot ∧ ReadFrom order block e := by
  simp only [size, infoOffset, slots] at long inside
  rw [readSlot?] at read
  split at read
  · cases read
  · cases read
    obtain ⟨pad, text, fill, trimmed⟩ := exists_trimName
      (((block.drop (namesOffset + slot * nameLength)).take nameLength).map fun b => Char.ofNat b.toNat)
    have extent : order.bytes (Bytes.wordAt order block (slot * 4)) ++
        order.bytes (Bytes.wordAt order block (slot * 4 + 2)) <+: block.drop (slot * 4) :=
      Bytes.append_stands (Bytes.stands_wordAt order (by omega)) (Bytes.stands_wordAt order (by omega))
    have number : order.bytes (Bytes.wordAt order block (infoOffset + slot * 2)) <+:
        block.drop (infoOffset + slot * 2) :=
      Bytes.stands_wordAt order (by simp only [infoOffset]; omega)
    refine ⟨rfl, extent, ⟨_, number, rfl⟩, ⟨pad, ?_, fill⟩, ?_⟩
    · rw [String.toList_ofList]
      exact text
    · rw [String.toList_ofList]
      exact trimmed

/-- The slots with a length are those that are read. -/
theorem map_slot_readSlot? : ((List.range slots).filterMap (readSlot? order block)).map (·.slot) =
    (List.range slots).filter fun slot => Bytes.wordAt order block (slot * 4 + 2) != 0 := by
  have each : ∀ slot ∈ List.range slots, (readSlot? order block slot).map (·.slot) =
      Option.guard (fun slot => Bytes.wordAt order block (slot * 4 + 2) != 0) slot := by
    intro slot _
    rw [readSlot?]
    split
    · rename_i zero
      exact (if_neg (by simp [zero])).symm
    · rename_i length
      exact (if_pos (bne_iff_ne.2 length)).symm
  rw [List.map_filterMap, List.filterMap_congr each, List.filterMap_eq_filter]

/-- The high byte of the first block number comes first exactly if it is zero before a byte that is not. -/
theorem detectOrder_eq_big :
    detectOrder block = .big ↔ block[0]? = some 0 ∧ ∃ low, block[1]? = some low ∧ low ≠ 0 := by
  match block with
  | [] => simp [detectOrder]
  | [first] => simp [detectOrder]
  | first :: second :: rest =>
    by_cases zero : first = 0
    · subst zero
      simp [detectOrder]
    · simp [detectOrder, zero]

/-- What is read from a block that is long enough. -/
theorem parse?_of_long (long : size ≤ block.length) :
    ∃ d, parse? block = some d ∧
      (d.order = .big ↔ block[0]? = some 0 ∧ ∃ low, block[1]? = some low ∧ low ≠ 0) ∧
      d.entries.map (·.slot) =
        (List.range slots).filter (fun slot => Bytes.wordAt d.order block (slot * 4 + 2) != 0) ∧
      ∀ e ∈ d.entries, ReadFrom d.order block e := by
  refine ⟨_, if_neg (Nat.not_lt.2 long), detectOrder_eq_big, ?_, ?_⟩
  · exact map_slot_readSlot?
  · intro e member
    obtain ⟨slot, here, read⟩ := List.mem_filterMap.1 member
    exact (readFrom_of_readSlot? long (List.mem_range.1 here) read).2

/-! ## Both ways -/

/-- Entries in different slots are written and read back as they were, in slot order, in either byte order,
and every block that is long enough is read, one entry for each slot with a length. -/
theorem dictionary_round_trip :
    (∀ entries : List DictionaryEntry,
      (∀ e ∈ entries, e.slot < slots ∧ e.length ≠ 0 ∧ Nameable e.name) →
      entries.Pairwise (·.slot ≠ ·.slot) →
      (∃ e ∈ entries, e.slot = 0 ∧ e.block ≠ 0 ∧ e.block < 256) →
      ∀ order, ∃ block read, encode? order entries = some block ∧
        parse? block = some { order := order, entries := read } ∧
        read.Perm entries ∧ read.Pairwise (·.slot < ·.slot)) ∧
    ∀ block : Bytes, size ≤ block.length →
      ∃ d, parse? block = some d ∧
        (d.order = .big ↔ block[0]? = some 0 ∧ ∃ low, block[1]? = some low ∧ low ≠ 0) ∧
        d.entries.map (·.slot) =
          (List.range slots).filter (fun slot => Bytes.wordAt d.order block (slot * 4 + 2) != 0) ∧
        ∀ e ∈ d.entries, ReadFrom d.order block e := by
  constructor
  · intro entries described distinct first order
    have inside : ∀ e ∈ entries, e.slot < slots := fun e he => (described e he).1
    obtain ⟨block, written⟩ := exists_encode? order inside
    refine ⟨block, inOrder entries, written, ?_, inOrder_perm inside distinct, sorted_inOrder⟩
    -- what is read in a slot is what its entry shows, and such entries show what they are
    have same : ∀ slot ∈ List.range slots,
        (entries.find? (·.slot == slot)).map shown = entries.find? (·.slot == slot) := by
      intro slot _
      cases found : entries.find? (·.slot == slot) with
      | none => rfl
      | some e =>
        have named := (described e (List.mem_of_find?_eq_some found)).2.2
        rw [Option.map_some, shown_of_nameable named]
    rw [parse?_encode? written (fun e he => ⟨inside e he, (described e he).2.1⟩) distinct first,
      List.filterMap_congr same]
    rfl
  · intro block long
    exact parse?_of_long long

/-- Two segments that are not given in slot order. -/
def twoSegments : List DictionaryEntry :=
  [{ slot := 3, number := 7, name := "USERPROG", block := 2, length := 0x40 },
    { slot := 0, number := 0, name := "KERNEL", block := 1, length := 0x200 }]

theorem nameable_twoSegments : ∀ e ∈ twoSegments, e.slot < slots ∧ e.length ≠ 0 ∧ Nameable e.name := by
  intro e member
  rcases List.mem_pair.1 member with rfl | rfl
  · exact ⟨by decide, by decide, by decide, by decide, by decide⟩
  · exact ⟨by decide, by decide, by decide, by decide, by decide⟩

theorem dictionary_round_trip_twoSegments :
    (∃ block read, encode? .big twoSegments = some block ∧
      parse? block = some { order := .big, entries := read } ∧
      read.Perm twoSegments ∧ read.Pairwise (·.slot < ·.slot)) ∧
    ∃ d, parse? (List.replicate 288 0x20) = some d ∧
      d.entries.map (·.slot) = List.range slots ∧
      ∀ e ∈ d.entries, ReadFrom d.order (List.replicate 288 0x20) e := by
  obtain ⟨written, blank⟩ := dictionary_round_trip
  refine ⟨written twoSegments nameable_twoSegments (by decide) (by decide) .big, ?_⟩
  obtain ⟨d, parsed, order, slots_, read⟩ := blank (List.replicate 288 0x20)
    (by rw [List.length_replicate]; decide)
  have little : d.order = .little := by
    cases guess : d.order with
    | little => rfl
    | big => exact absurd (order.1 guess).1 (by decide)
  refine ⟨d, parsed, ?_, read⟩
  rw [slots_, little]
  decide

end Dictionary
end PSystem
