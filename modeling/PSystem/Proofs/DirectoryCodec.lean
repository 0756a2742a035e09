import PSystem.Directory
import PSystem.Proofs.Fields
import PSystem.Proofs.Keeps

/-!
# Directories that were written

Entries of a directory lie one behind the other, each below the next, so an entry that is put keeps all
before it.  A written directory of at most 77 files is read back with every name cut to the fifteen bytes
that an entry holds (`parse_encode?`), and names of ASCII characters that fit are what they were.
-/

namespace PSystem

/-! ## Texts of ASCII characters -/

namespace Bytes

variable {text : String}

theorem toList_loop (data : ByteArray) (i : Nat) (before : List UInt8) :
    ByteArray.toList.loop data i before = before.reverse ++ data.data.toList.drop i := by
  fun_induction ByteArray.toList.loop data i before with
  | case1 i before inside ih =>
    have size : i < data.data.size := inside
    have byte : data.get! i = data.data.toList[i] := by
      rw [Array.getElem_toList]
      exact getElem!_pos data.data i size
    rw [ih, List.drop_eq_getElem_cons size, byte, List.reverse_cons, List.append_assoc]
    rfl
  | case2 i before outside =>
    rw [List.drop_of_length_le (Nat.le_of_not_lt outside), List.append_nil]

/-- Every character of the text takes one byte. -/
def Ascii (text : String) : Prop :=
  ∀ c ∈ text.toList, c.toNat < 128

instance (text : String) : Decidable (Ascii text) :=
  List.decidableBAll (fun c : Char => c.toNat < 128) text.toList

theorem ofText_of_ascii (h : Ascii text) :
    ofText text = text.toList.map fun c => UInt8.ofNat c.toNat := by
  rw [ofText, String.toUTF8, ByteArray.toList, toList_loop, List.reverse_nil, List.nil_append,
    List.drop_zero, ← String.utf8Encode_toList, List.utf8Encode, List.toList_data_toByteArray,
    List.map_eq_flatMap]
  apply List.flatMap_congr
  intro c hc
  have low : c.val.toNat ≤ 127 := Nat.le_of_lt_succ (h c hc)
  rw [String.utf8EncodeChar]
  exact if_pos low

/-- A text of ASCII characters is the text of its bytes. -/
theorem latin_ofText (h : Ascii text) : latin (ofText text) = text := by
  have same : ∀ c ∈ text.toList,
      ((fun b : UInt8 => Char.ofNat b.toNat) ∘ fun c => UInt8.ofNat c.toNat) c = c := by
    intro c hc
    have small : c.toNat < UInt8.size := Nat.lt_trans (h c hc) (by decide)
    rw [Function.comp, UInt8.toNat_ofNat_of_lt' small, Char.ofNat_toNat]
  rw [latin, ofText_of_ascii h, List.map_map, List.map_congr_left same, List.map_id', String.ofList_toList]

end Bytes

namespace Directory

open Bytes (Ascii at0_of_stands wordAt_of_stands take_of_stands put_stands put_keeps length_put)

variable {data data' : Bytes} {files : List FileExtent} {f : FileExtent} {name volume : String} {i j k : Nat}

/-! ## Names -/

/-- A file name as an entry holds it. -/
def shownName (name : String) : String :=
  Bytes.latin ((Bytes.ofText name).take maxName)

/-- A file as the directory gives it back. -/
def shown (f : FileExtent) : FileExtent :=
  { f with name := shownName f.name }

theorem shownName_of_ascii (h : Ascii name) (short : name.length ≤ maxName) : shownName name = name := by
  have length : (Bytes.ofText name).length = name.length := by
    rw [Bytes.ofText_of_ascii h, List.length_map, String.length_toList]
  rw [shownName, List.take_of_length_le (by rw [length]; exact short), Bytes.latin_ofText h]

theorem length_nameField (name : Bytes) : (nameField name).length ≤ maxName + 1 := by
  have := List.length_take_le maxName name
  rw [nameField, List.length_cons]
  omega

theorem nameAt_of_stands {name : Bytes} (h : nameField name <+: data.drop i) :
    nameAt data i = Bytes.latin (name.take maxName) := by
  have both : [UInt8.ofNat (name.take maxName).length] ++ name.take maxName <+: data.drop i := h
  obtain ⟨count, text⟩ := Bytes.stands_append both
  have cut := List.length_take_le maxName name
  have small : (name.take maxName).length < UInt8.size :=
    Nat.lt_of_le_of_lt cut (by decide)
  rw [nameAt, at0_of_stands count, UInt8.toNat_ofNat_of_lt' small, Nat.min_eq_left cut,
    take_of_stands (i := i + 1) text rfl]

/-! ## Entries of files -/

theorem length_fileField (f : FileExtent) : (fileField f).length ≤ entrySize := by
  have name := length_nameField (Bytes.ofText f.name)
  simp only [fileField, List.length_append, ByteOrder.bytes, List.length_cons, List.length_nil, entrySize,
    maxName] at name ⊢
  omega

/-- A file entry is read from its three words, in their byte order, and its name. -/
theorem fileAt_of_fields {order : ByteOrder} (first : order.bytes f.firstBlock <+: data.drop i)
    (next : order.bytes f.nextBlock <+: data.drop (i + 2)) (kind : order.bytes f.kind <+: data.drop (i + 4))
    (name : nameField (Bytes.ofText f.name) <+: data.drop (i + nameOffset)) :
    fileAt order data i = shown f := by
  rw [fileAt, nameAt_of_stands name, wordAt_of_stands first, wordAt_of_stands next, wordAt_of_stands kind]
  rfl

/-- The fields of an entry stand one behind the other. -/
theorem stands_fileField (h : fileField f <+: data.drop i) :
    ByteOrder.little.bytes f.firstBlock <+: data.drop i ∧
      ByteOrder.little.bytes f.nextBlock <+: data.drop (i + 2) ∧
      ByteOrder.little.bytes f.kind <+: data.drop (i + 4) ∧
      nameField (Bytes.ofText f.name) <+: data.drop (i + nameOffset) := by
  obtain ⟨words, name⟩ := Bytes.stands_append h
  obtain ⟨words, kind⟩ := Bytes.stands_append words
  obtain ⟨first, next⟩ := Bytes.stands_append words
  exact ⟨first, next, kind, name⟩

theorem fileAt_of_stands (h : fileField f <+: data.drop i) : fileAt .little data i = shown f := by
  obtain ⟨first, next, kind, name⟩ := stands_fileField h
  exact fileAt_of_fields first next kind name

theorem length_putFiles? (h : putFiles? i data files = some data') : data'.length = data.length := by
  induction files generalizing i data with
  | nil =>
    cases h
    rfl
  | cons f rest ih =>
    obtain ⟨first, put, later⟩ := Option.bind_eq_some_iff.1 h
    rw [ih later, length_put put]

/-- What lies before an entry stays. -/
theorem putFiles?_keeps {field : Bytes} (h : putFiles? i data files = some data')
    (stands : field <+: data.drop j) (before : j + field.length ≤ i * entrySize) :
    field <+: data'.drop j := by
  induction files generalizing i data with
  | nil =>
    cases h
    exact stands
  | cons f rest ih =>
    obtain ⟨first, put, later⟩ := Option.bind_eq_some_iff.1 h
    refine ih later (put_keeps put stands (.inl before)) ?_
    rw [Nat.add_mul]
    omega

theorem putFiles?_stands (h : putFiles? i data files = some data') (hf : files[k]? = some f) :
    fileField f <+: data'.drop ((i + k) * entrySize) := by
  induction files generalizing i data k with
  | nil => cases hf
  | cons g rest ih =>
    obtain ⟨first, put, later⟩ := Option.bind_eq_some_iff.1 h
    cases k with
    | zero =>
      have fits := length_fileField g
      cases hf
      refine putFiles?_keeps later (put_stands put) ?_
      rw [Nat.add_zero, Nat.succ_mul]
      omega
    | succ k =>
      have := ih later hf
      rwa [Nat.add_assoc, Nat.add_comm 1 k] at this

/-! ## The whole directory -/

theorem cutText?_length {bytes : Bytes} {text : String} {n : Nat} (h : cutText? text n = some bytes) :
    bytes.length ≤ n := by
  unfold cutText? at h
  dsimp only at h
  split at h
  · cases h
    assumption
  · split at h
    · cases h
    · cases h
      exact List.length_take_le ..

/-- The fields of a directory that was written. -/
theorem encode?_stands (h : encode? volume files = some data) :
    ∃ name, cutText? volume maxVolumeName = some name ∧ data.length = size ∧
      nameField name <+: data.drop nameOffset ∧
      ByteOrder.little.bytes (UInt16.ofNat files.length) <+: data.drop countOffset ∧
      ∀ k f, files[k]? = some f → fileField f <+: data.drop ((k + 1) * entrySize) := by
  obtain ⟨name, cut, h⟩ := Option.bind_eq_some_iff.1 h
  obtain ⟨first, h₁, h⟩ := Option.bind_eq_some_iff.1 h
  obtain ⟨named, h₂, h⟩ := Option.bind_eq_some_iff.1 h
  obtain ⟨counted, h₃, h⟩ := Option.bind_eq_some_iff.1 h
  -- The fields are written in the order of their offsets; each stands because none of the later
  -- ones overlaps it.
  have short : (nameField name).length ≤ 8 := by
    have := cutText?_length cut
    rw [nameField, List.length_cons, List.length_take]
    simp only [maxVolumeName] at this
    omega
  have length : data.length = size := by
    rw [length_putFiles? h, length_put h₃, length_put h₂, length_put h₁, Bytes.length_zeros]
  refine ⟨name, cut, length, ?_, ?_, ?_⟩
  · refine putFiles?_keeps h (put_keeps h₃ (put_stands h₂) (.inl ?_)) ?_
    all_goals
      simp only [nameOffset, countOffset, entrySize]
      omega
  · exact putFiles?_keeps h (put_stands h₃) (Nat.le_of_ble_eq_true rfl)
  · intro k f hf
    rw [Nat.add_comm]
    exact putFiles?_stands h hf

/-- What is read where the fields of a directory stand, in the byte order of its words. -/
theorem parse_of_fields {order : ByteOrder} {name : Bytes} (length : data.length = size)
    (short : name.length ≤ maxVolumeName) (named : nameField name <+: data.drop nameOffset)
    (counted : countAndOrder data = (files.length, order)) (count : files.length ≤ maxFiles)
    (entries : ∀ k f, files[k]? = some f → fileAt order data ((k + 1) * entrySize) = shown f) :
    parse data = { volume := Bytes.latin name, files := files.map shown } := by
  have both : [UInt8.ofNat (name.take maxName).length] ++ name.take maxName <+: data.drop nameOffset := named
  have stored := (Bytes.stands_append both).1
  have whole : data.length / entrySize - 1 = maxFiles := by
    rw [length]
    rfl
  rw [parse, if_neg (by rw [length]; decide), counted, whole]
  have volume : (if (Bytes.at0 data nameOffset).toNat ≤ maxVolumeName then nameAt data nameOffset else "") =
      Bytes.latin name := by
    -- A volume name is shorter than a file name, so the field for file names does not cut it.
    have uncut : name.take maxName = name :=
      List.take_of_length_le (Nat.le_trans short (by decide))
    rw [at0_of_stands stored, nameAt_of_stands named, uncut,
      UInt8.toNat_ofNat_of_lt' (Nat.lt_of_le_of_lt short (by decide)), if_pos short]
  have listed : ((List.range (min (min files.length maxFiles) maxFiles)).map fun i =>
      fileAt order data ((i + 1) * entrySize)) = files.map shown := by
    rw [Nat.min_eq_left count, Nat.min_eq_left count]
    apply List.ext_getElem?
    intro k
    rw [List.getElem?_map, List.getElem?_map]
    by_cases hk : k < files.length
    · rw [List.getElem?_range hk, List.getElem?_eq_getElem hk, Option.map_some, Option.map_some,
        entries k _ (List.getElem?_eq_getElem hk)]
    · rw [List.getElem?_eq_none (by simpa using hk), List.getElem?_eq_none (by omega)]
      rfl
  dsimp only
  rw [volume, listed]

/-- A directory of at most 77 files is read back, with the names that its entries hold. -/
theorem parse_encode? (h : encode? volume files = some data) (count : files.length ≤ maxFiles) :
    ∃ name, cutText? volume maxVolumeName = some name ∧
      parse data = { volume := Bytes.latin name, files := files.map shown } := by
  obtain ⟨name, cut, length, named, counted, entries⟩ := encode?_stands h
  have small : files.length < UInt16.size := Nat.lt_of_le_of_lt count (by decide)
  -- a count that is not above the largest one is read in the order in which it was written
  have order : countAndOrder data = (files.length, .little) := by
    rw [countAndOrder, wordAt_of_stands counted, UInt16.toNat_ofNat_of_lt' small]
    exact if_pos count
  exact ⟨name, cut, parse_of_fields length (cutText?_length cut) named order count
    fun k f hf => fileAt_of_stands (entries k f hf)⟩

/-! ## Finding a file -/

/-- A file is found unless an earlier one has its name in the directory. -/
theorem find?_encode? {before after : List FileExtent}
    (h : encode? volume (before ++ f :: after) = some data)
    (count : (before ++ f :: after).length ≤ maxFiles) (ascii : Ascii f.name)
    (short : f.name.length ≤ maxName)
    (others : ∀ g ∈ before, Bytes.sameName (shownName g.name) f.name = false) :
    (parse data).find? f.name = some f := by
  obtain ⟨name, -, parsed⟩ := parse_encode? h count
  have same : shown f = f := by
    rw [shown, shownName_of_ascii ascii short]
  have absent : (before.map shown).find? (fun g => Bytes.sameName g.name f.name) = none := by
    rw [List.find?_map, Option.map_eq_none_iff, List.find?_eq_none]
    intro g hg
    exact Bool.not_eq_true _ ▸ others g hg
  have equal : Bytes.sameName f.name f.name = true := beq_self_eq_true _
  rw [parsed, find?, List.map_append, List.map_cons, List.find?_append, absent, same, Option.none_or]
  exact List.find?_cons_of_pos equal

end Directory
end PSystem
