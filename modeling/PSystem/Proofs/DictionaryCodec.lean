import PSystem.Dictionary
import PSystem.Proofs.Fields
import PSystem.Proofs.Keeps

/-!
# Dictionaries that were written

The three fields of an entry lie in three arrays, which no field of another slot reaches
(`WrittenIn.keeps`).  So every entry of a written dictionary is read back, all others as absent, and the
byte order is found again if the segment of slot 0 starts within blocks 1 to 255 (`parse?_encode?`).
-/

namespace PSystem

namespace Dictionary

variable {order : ByteOrder} {block block' : Bytes} {entries : List DictionaryEntry}
  {e f : DictionaryEntry} {slot : Nat}

/-! ## Fields of a slot -/

/-- The entry as a dictionary gives it back: the name cut to its field and trimmed. -/
def shown (e : DictionaryEntry) : DictionaryEntry :=
  { e with
    name := String.ofList (trimName ((nameBytes e.name).map fun b => Char.ofNat b.toNat)) }

/-- The fields of an entry stand in a block. -/
structure WrittenIn (order : ByteOrder) (block : Bytes) (e : DictionaryEntry) : Prop where
  extent : order.bytes e.block ++ order.bytes e.length <+: block.drop (e.slot * 4)
  name : nameBytes e.name <+: block.drop (namesOffset + e.slot * nameLength)
  number : order.bytes e.number.toUInt16 <+: block.drop (infoOffset + e.slot * 2)

/-- A slot has no extent. -/
def Vacant (block : Bytes) (slot : Nat) : Prop :=
  Bytes.zeros 4 <+: block.drop (slot * 4)

theorem length_nameBytes (name : String) : (nameBytes name).length = nameLength := by
  unfold nameBytes
  have cut := List.length_take_le nameLength (Bytes.ofText name)
  rw [List.length_append, List.length_replicate]
  omega

/-- What one entry's fields do to a block. -/
theorem writeSlot?_eq_some (h : writeSlot? order block e = some block') :
    ∃ extent named,
      Bytes.put? block (e.slot * 4) (order.bytes e.block ++ order.bytes e.length) = some extent ∧
      Bytes.put? extent (namesOffset + e.slot * nameLength) (nameBytes e.name) = some named ∧
      Bytes.put? named (infoOffset + e.slot * 2) (order.bytes e.number.toUInt16) = some block' := by
  unfold writeSlot? at h
  obtain ⟨extent, h₁, h⟩ := Option.bind_eq_some_iff.1 h
  obtain ⟨named, h₂, h₃⟩ := Option.bind_eq_some_iff.1 h
  exact ⟨extent, named, h₁, h₂, h₃⟩

theorem length_writeSlot? (h : writeSlot? order block e = some block') :
    block'.length = block.length := by
  obtain ⟨extent, named, h₁, h₂, h₃⟩ := writeSlot?_eq_some h
  rw [Bytes.length_put h₃, Bytes.length_put h₂, Bytes.length_put h₁]

/-- A field stays if it is apart from the three fields of the entry. -/
theorem writeSlot?_keeps {field : Bytes} {j : Nat} (h : writeSlot? order block e = some block')
    (stands : field <+: block.drop j)
    (extent : j + field.length ≤ e.slot * 4 ∨ e.slot * 4 + 4 ≤ j)
    (name : j + field.length ≤ namesOffset + e.slot * nameLength ∨
      namesOffset + e.slot * nameLength + nameLength ≤ j)
    (number : j + field.length ≤ infoOffset + e.slot * 2 ∨ infoOffset + e.slot * 2 + 2 ≤ j) :
    field <+: block'.drop j := by
  obtain ⟨extended, named, h₁, h₂, h₃⟩ := writeSlot?_eq_some h
  have first := Bytes.put_keeps h₁ stands extent
  have second := Bytes.put_keeps h₂ first (by rw [length_nameBytes]; exact name)
  exact Bytes.put_keeps h₃ second number

/-- The arrays of extents, names and numbers lie one behind the other. -/
theorem writtenIn_of_writeSlot? (h : writeSlot? order block e = some block')
    (inside : e.slot < slots) : WrittenIn order block' e := by
  obtain ⟨extended, named, h₁, h₂, h₃⟩ := writeSlot?_eq_some h
  simp only [slots] at inside
  have extent := Bytes.put_keeps h₂ (Bytes.put_stands h₁) (.inl (by
    simp only [ByteOrder.bytes, List.length_append, List.length_cons, List.length_nil, namesOffset,
      nameLength]
    omega))
  refine ⟨Bytes.put_keeps h₃ extent (.inl ?_), Bytes.put_keeps h₃ (Bytes.put_stands h₂) (.inl ?_),
    Bytes.put_stands h₃⟩
  · simp only [ByteOrder.bytes, List.length_append, List.length_cons, List.length_nil, infoOffset]
    omega
  · rw [length_nameBytes]
    simp only [namesOffset, nameLength, infoOffset]
    omega

theorem WrittenIn.keeps (written : WrittenIn order block f)
    (h : writeSlot? order block e = some block') (inside : e.slot < slots) (inside' : f.slot < slots)
    (other : f.slot ≠ e.slot) : WrittenIn order block' f := by
  have length := length_nameBytes f.name
  simp only [slots, nameLength] at inside inside' length
  constructor
  · refine writeSlot?_keeps h written.extent ?_ ?_ ?_
    all_goals
      simp only [ByteOrder.bytes, List.length_append, List.length_cons, List.length_nil, namesOffset,
        nameLength, infoOffset]
      omega
  · refine writeSlot?_keeps h written.name ?_ ?_ ?_
    all_goals
      simp only [namesOffset, nameLength, infoOffset]
      omega
  · refine writeSlot?_keeps h written.number ?_ ?_ ?_
    all_goals
      simp only [ByteOrder.bytes, List.length_cons, List.length_nil, namesOffset, nameLength, infoOffset]
      omega

theorem Vacant.keeps (vacant : Vacant block slot) (h : writeSlot? order block e = some block')
    (inside : e.slot < slots) (inside' : slot < slots) (other : slot ≠ e.slot) : Vacant block' slot := by
  simp only [slots] at inside inside'
  refine writeSlot?_keeps h vacant ?_ ?_ ?_
  all_goals
    simp only [Bytes.zeros, List.length_replicate, namesOffset, nameLength, infoOffset]
    omega

/-! ## Writing all entries -/

/-- What every entry keeps is kept by all of them. -/
theorem foldlM_writeSlot?_keeps {P : Bytes → Prop} (start : P block)
    (h : entries.foldlM (writeSlot? order) block = some block')
    (each : ∀ e ∈ entries, ∀ b b', P b → writeSlot? order b e = some b' → P b') : P block' := by
  induction entries generalizing block with
  | nil =>
    cases h
    exact start
  | cons e rest ih =>
    rw [List.foldlM_cons] at h
    obtain ⟨first, written, h⟩ := Option.bind_eq_some_iff.1 h
    have kept := each e List.mem_cons_self block first start written
    exact ih kept h fun f hf => each f (List.mem_cons_of_mem _ hf)

/-- Entries in different slots all stand in the block in the end. -/
theorem writtenIn_of_foldlM (h : entries.foldlM (writeSlot? order) block = some block')
    (inside : ∀ e ∈ entries, e.slot < slots) (distinct : entries.Pairwise (·.slot ≠ ·.slot)) :
    ∀ e ∈ entries, WrittenIn order block' e := by
  induction entries generalizing block with
  | nil =>
    intro e he
    cases he
  | cons e rest ih =>
    rw [List.foldlM_cons] at h
    obtain ⟨first, written, later⟩ := Option.bind_eq_some_iff.1 h
    obtain ⟨apart, distinct⟩ := List.pairwise_cons.1 distinct
    have here := inside e List.mem_cons_self
    have there : ∀ f ∈ rest, f.slot < slots := fun f hf => inside f (List.mem_cons_of_mem _ hf)
    intro f hf
    rcases List.mem_cons.1 hf with rfl | hf
    · refine foldlM_writeSlot?_keeps (P := (WrittenIn order · f)) (writtenIn_of_writeSlot? written here) later
        ?_
      intro g hg b b' stands put
      exact stands.keeps put (there g hg) here (apart g hg)
    · exact ih later there distinct f hf

/-! ## Reading slots -/

theorem readSlot?_of_writtenIn (written : WrittenIn order block e) (some_ : e.length ≠ 0) :
    readSlot? order block e.slot = some (shown e) := by
  obtain ⟨block_, length⟩ := Bytes.stands_append written.extent
  have number := Bytes.wordAt_of_stands written.number
  have name := Bytes.take_of_stands written.name (length_nameBytes e.name)
  unfold readSlot?
  rw [show e.slot * 4 + (order.bytes e.block).length = e.slot * 4 + 2 from rfl] at length
  rw [Bytes.wordAt_of_stands length, Bytes.wordAt_of_stands block_, number, name]
  simp only [if_neg some_, UInt8.toUInt8_toUInt16]
  rfl

theorem readSlot?_of_vacant (vacant : Vacant block slot) : readSlot? order block slot = none := by
  have zero : order.bytes 0 ++ order.bytes 0 = Bytes.zeros 4 := by
    cases order <;> decide
  unfold Vacant at vacant
  rw [← zero] at vacant
  have length := Bytes.wordAt_of_stands (Bytes.stands_append vacant).2
  unfold readSlot?
  rw [show slot * 4 + (order.bytes 0).length = slot * 4 + 2 from rfl] at length
  rw [length]
  rfl

/-! ## The whole dictionary -/

theorem length_encode? (h : encode? order entries = some block) : block.length = Bytes.blockSize := by
  refine foldlM_writeSlot?_keeps (P := fun b => b.length = Bytes.blockSize) (Bytes.length_zeros _) h ?_
  intro e _ b b' length written
  exact (length_writeSlot? written).trans length

/-- A slot is read back as its entry, or as absent if it has none. -/
theorem readSlot?_encode? (h : encode? order entries = some block)
    (inside : ∀ e ∈ entries, e.slot < slots ∧ e.length ≠ 0)
    (distinct : entries.Pairwise (·.slot ≠ ·.slot)) (inside' : slot < slots) :
    readSlot? order block slot = (entries.find? (·.slot == slot)).map shown := by
  have written := writtenIn_of_foldlM h (fun e he => (inside e he).1) distinct
  cases found : entries.find? (·.slot == slot) with
  | some e =>
    have member := List.mem_of_find?_eq_some found
    have here : e.slot = slot := by simpa using List.find?_some found
    rw [← here]
    exact readSlot?_of_writtenIn (written e member) (inside e member).2
  | none =>
    have others : ∀ e ∈ entries, e.slot < slots ∧ slot ≠ e.slot := by
      intro e he
      have other := List.find?_eq_none.1 found e he
      exact ⟨(inside e he).1, fun eq => other (by simp [eq])⟩
    have vacant : Vacant (Bytes.zeros Bytes.blockSize) slot :=
      Bytes.stands_zeros (by simp only [slots] at inside'; simp only [Bytes.blockSize]; omega)
    refine readSlot?_of_vacant (foldlM_writeSlot?_keeps (P := (Vacant · slot)) vacant h ?_)
    intro e he b b' vacant written
    exact vacant.keeps written (others e he).1 inside' (others e he).2

/-- A block number below 256 shows the byte order: only one of its two bytes is zero. -/
theorem detectOrder_of_writtenIn (written : WrittenIn order block e) (first : e.slot = 0)
    (some_ : e.block ≠ 0) (low : e.block < 256) : detectOrder block = order := by
  have stands := (Bytes.stands_append written.extent).1
  rw [first, Nat.zero_mul, List.drop_zero] at stands
  obtain ⟨rest, rfl⟩ := stands
  have below : e.block.toNat < 256 := UInt16.lt_iff_toNat_lt.1 low
  have above : e.block.toNat ≠ 0 := fun zero => some_ (UInt16.toNat_inj.1 zero)
  have high : (e.block >>> 8).toUInt8 = 0 := by
    apply UInt8.toNat_inj.1
    simp [Nat.shiftRight_eq_div_pow]
    omega
  have lower : e.block.toUInt8 ≠ 0 := by
    intro zero
    have := congrArg UInt8.toNat zero
    simp at this
    omega
  cases order with
  | little => simp [detectOrder, ByteOrder.bytes, ByteOrder.split, high, lower]
  | big => simp [detectOrder, ByteOrder.bytes, ByteOrder.split, high, lower]

/-- A written dictionary is read back slot by slot. -/
theorem parse?_encode? (h : encode? order entries = some block)
    (inside : ∀ e ∈ entries, e.slot < slots ∧ e.length ≠ 0)
    (distinct : entries.Pairwise (·.slot ≠ ·.slot))
    (first : ∃ e ∈ entries, e.slot = 0 ∧ e.block ≠ 0 ∧ e.block < 256) :
    parse? block = some
      { order := order
        entries := (List.range slots).filterMap fun slot =>
          (entries.find? (·.slot == slot)).map shown } := by
  obtain ⟨e, he, zero, some_, low⟩ := first
  have written := writtenIn_of_foldlM h (fun e he => (inside e he).1) distinct e he
  have length := length_encode? h
  unfold parse?
  rw [if_neg (by rw [length]; decide), detectOrder_of_writtenIn written zero some_ low]
  have slot : ∀ slot ∈ List.range slots, readSlot? order block slot =
      (entries.find? (·.slot == slot)).map shown :=
    fun _ here => readSlot?_encode? h inside distinct (List.mem_range.1 here)
  dsimp only
  rw [List.filterMap_congr slot]

/-- Entries that are sorted by slot are found in their order. -/
theorem filterMap_find?_of_sorted {low n : Nat} (sorted : entries.Pairwise (·.slot < ·.slot))
    (inside : ∀ e ∈ entries, low ≤ e.slot ∧ e.slot < low + n) :
    ((List.range' low n).filterMap fun slot => entries.find? (·.slot == slot)) = entries := by
  induction n generalizing low entries with
  | zero =>
    cases entries with
    | nil => rfl
    | cons e rest =>
      have := inside e List.mem_cons_self
      omega
  | succ n ih =>
    rw [List.range'_succ]
    cases entries with
    | nil => exact List.filterMap_eq_nil_iff.2 fun _ _ => rfl
    | cons e rest =>
      obtain ⟨least, sorted'⟩ := List.pairwise_cons.1 sorted
      by_cases here : e.slot = low
      · -- the first slot has the first entry, and no later slot has it
        have later : ∀ slot ∈ List.range' (low + 1) n,
            (e :: rest).find? (·.slot == slot) = rest.find? (·.slot == slot) := by
          intro slot hslot
          have := (List.mem_range'_1.1 hslot).1
          rw [List.find?_cons_of_neg]
          simp only [beq_iff_eq]
          omega
        rw [List.filterMap_cons_some (b := e) (by simp [here]), List.filterMap_congr later, ih sorted']
        intro f hf
        have := least f hf
        have := inside f (List.mem_cons_of_mem _ hf)
        omega
      · have above : ∀ f ∈ e :: rest, low < f.slot := by
          intro f hf
          rcases List.mem_cons.1 hf with rfl | later
          · have := inside f hf
            omega
          · have := least f later
            have := inside e List.mem_cons_self
            omega
        have absent : (e :: rest).find? (·.slot == low) = none := by
          rw [List.find?_eq_none]
          intro f hf
          have := above f hf
          simp only [beq_iff_eq]
          omega
        rw [List.filterMap_cons_none (f := fun slot => (e :: rest).find? (·.slot == slot)) absent,
          ih sorted]
        intro f hf
        have := above f hf
        have := inside f hf
        omega

/-- A dictionary that is written in slot order is read back as it was, but for the names. -/
theorem parse?_encode?_of_sorted (h : encode? order entries = some block)
    (inside : ∀ e ∈ entries, e.slot < slots ∧ e.length ≠ 0)
    (sorted : entries.Pairwise (·.slot < ·.slot))
    (first : ∃ e ∈ entries, e.slot = 0 ∧ e.block ≠ 0 ∧ e.block < 256) :
    parse? block = some { order := order, entries := entries.map shown } := by
  rw [parse?_encode? h inside (sorted.imp Nat.ne_of_lt) first]
  have found : ((List.range slots).filterMap fun slot => entries.find? (·.slot == slot)) = entries := by
    rw [List.range_eq_range']
    exact filterMap_find?_of_sorted sorted fun e he => ⟨Nat.zero_le _, by
      rw [Nat.zero_add]
      exact (inside e he).1⟩
  rw [← List.map_filterMap, found]

end Dictionary
end PSystem
