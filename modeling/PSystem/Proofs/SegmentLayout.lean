import PSystem.Machine.Frame
import PSystem.Proofs.Memory
import PSystem.SegmentImage

/-!
# The layout of a segment in memory

`Memory.Reads m a bytes` says that reading from `a` on gives `bytes`.  For the image of a segment this
gives the same for each of its procedures, and for a procedure it gives the code at its start, the
entries of the jump table below its attribute table, and the distance back to the entry
(`ProcedureSpec.Placed`).
-/

namespace PSystem
namespace Memory

variable {m : Memory} {a : Nat} {xs ys bytes : Bytes}

/-- Reading from `a` on gives the bytes. -/
def Reads (m : Memory) (a : Nat) (bytes : Bytes) : Prop :=
  ∀ i b, bytes[i]? = some b → m.readByte (UInt16.ofNat (a + i)) = .ok b

instance (m : Memory) (a : Nat) (bytes : Bytes) : Decidable (m.Reads a bytes) :=
  decidable_of_iff (∀ i (h : i < bytes.length), m.readByte (UInt16.ofNat (a + i)) = .ok bytes[i])
    ⟨fun all i b hb => by
      obtain ⟨bound, rfl⟩ := List.getElem?_eq_some_iff.1 hb
      exact all i bound, fun h i bound => h i _ (List.getElem?_eq_getElem bound)⟩

theorem Reads.left (h : m.Reads a (xs ++ ys)) : m.Reads a xs := by
  intro i b hb
  obtain ⟨bound, -⟩ := List.getElem?_eq_some_iff.1 hb
  exact h i b (by rw [List.getElem?_append_left bound, hb])

theorem Reads.right (h : m.Reads a (xs ++ ys)) : m.Reads (a + xs.length) ys := by
  intro i b hb
  rw [Nat.add_assoc]
  refine h (xs.length + i) b ?_
  rw [List.getElem?_append_right (Nat.le_add_right ..), Nat.add_sub_cancel_left, hb]

/-- Cells above address 0 are free if they are neither mapped nor protected. -/
theorem free_of_unmarked {n : Nat} (positive : 0 < a) (fits : a + n ≤ 0x10000)
    (open_ : ∀ b : Address, a ≤ b.toNat → b.toNat < a + n →
      (m.cell b).mapped = false ∧ (m.cell b).readOnly = false) :
    ∀ i < n, m.Free (UInt16.ofNat (a + i)) := by
  intro i hi
  have place : (UInt16.ofNat (a + i)).toNat = a + i := UInt16.toNat_ofNat_of_lt' (show _ < 0x10000 by omega)
  obtain ⟨unmapped, unlocked⟩ := open_ (UInt16.ofNat (a + i)) (by omega) (by omega)
  refine ⟨?_, unmapped, unlocked⟩
  intro zero
  rw [zero] at place
  change 0 = a + i at place
  omega

/-- Bytes written to free cells that do not wrap around are stored there. -/
theorem exists_holds_of_free (free : ∀ i < bytes.length, m.Free (UInt16.ofNat (a + i)))
    (fits : a + bytes.length ≤ 0x10000) :
    ∃ m', writeBytes (UInt16.ofNat a) bytes m = .ok () m' ∧ m'.order = m.order ∧
      m'.Holds (UInt16.ofNat a) bytes := by
  have free' (i : Nat) (hi : i < bytes.length) : m.Free (UInt16.ofNat a + UInt16.ofNat i) := by
    rw [← UInt16.ofNat_add]
    exact free i hi
  obtain ⟨m', written, holds⟩ := writeBytes_free free' (by omega)
  have guarded : Guarded m m' := Keeps.of_ok written
  exact ⟨m', written, guarded.order, holds⟩

/-- Such bytes are read there. -/
theorem exists_reads_of_free (free : ∀ i < bytes.length, m.Free (UInt16.ofNat (a + i)))
    (fits : a + bytes.length ≤ 0x10000) :
    ∃ m', writeBytes (UInt16.ofNat a) bytes m = .ok () m' ∧ m'.order = m.order ∧
      m'.Reads a bytes := by
  obtain ⟨m', written, order, holds⟩ := exists_holds_of_free free fits
  have guarded : Guarded m m' := Keeps.of_ok written
  refine ⟨m', written, order, ?_⟩
  intro i b hb
  obtain ⟨bound, rfl⟩ := List.getElem?_eq_some_iff.1 hb
  have open_ := free i bound
  rw [readByte_unmapped open_.valid ((guarded.mapped _).trans open_.unmapped), UInt16.ofNat_add,
    holds i bound]

/-- The two bytes of a word are read as the word. -/
theorem Reads.word {w : Word} (h : m.Reads a (m.order.bytes w)) :
    m.readWord (UInt16.ofNat a) = .ok w := by
  have first := h 0 _ rfl
  have second := h 1 _ rfl
  have next : UInt16.ofNat (a + 1) = UInt16.ofNat a + 1 := UInt16.ofNat_add a 1
  rw [Nat.add_zero] at first
  rw [next] at second
  rw [readWord, first, second]
  exact congrArg Except.ok (ByteOrder.join_split m.order w)

/-- The bytes of words are read as the words. -/
theorem Reads.words {ws : List Word} (h : m.Reads a (ws.flatMap m.order.bytes)) {i : Nat} {w : Word}
    (hw : ws[i]? = some w) : m.readWord (UInt16.ofNat (a + 2 * i)) = .ok w := by
  induction ws generalizing a i with
  | nil => simp at hw
  | cons u us ih =>
    rw [List.flatMap_cons] at h
    cases i with
    | zero =>
      obtain rfl : u = w := by simpa using hw
      exact h.left.word
    | succ i =>
      have later := ih h.right (i := i) (by simpa using hw)
      have two : (m.order.bytes u).length = 2 := rfl
      rw [two] at later
      have place : a + 2 * (i + 1) = a + 2 + 2 * i := by omega
      rwa [place]

end Memory

/-! ## Procedures -/

theorem ofNat_add_sub {a n k : Nat} (le : k ≤ n) :
    UInt16.ofNat (a + n) - UInt16.ofNat k = UInt16.ofNat (a + (n - k)) := by
  have sum : a + n = a + (n - k) + k := by omega
  rw [sum, UInt16.ofNat_add]
  exact UInt16.add_sub_cancel ..

namespace ProcedureSpec

theorem distance_back (a slot target : Nat) :
    UInt16.ofNat (a + slot) - distance slot target = UInt16.ofNat (a + target) := by
  apply UInt16.toNat_inj.1
  rw [distance, Word.ofSigned, UInt16.toNat_sub, UInt16.toNat_ofNat', UInt16.toNat_ofNat',
    UInt16.toNat_ofNat']
  omega

theorem length_words (order : ByteOrder) (ws : List Word) :
    (ws.flatMap order.bytes).length = 2 * ws.length := by
  induction ws with
  | nil => rfl
  | cons w ws ih =>
    rw [List.flatMap_cons, List.length_append, ih, List.length_cons]
    simp only [ByteOrder.bytes, List.length_cons, List.length_nil]
    omega

@[simp]
theorem length_jumpWords (p : ProcedureSpec) :
    p.jumpWords.length = (p.body.getD {}).jumpTable.length := by
  simp [jumpWords]

theorem length_image (order : ByteOrder) (number : Nat) (p : ProcedureSpec) :
    (p.image order number).length = p.tableOffset + 2 := by
  simp only [image, tableOffset, List.length_append, length_words, length_jumpWords,
    List.length_cons, List.length_nil]
  omega

theorem even_length_image (order : ByteOrder) (number : Nat) (p : ProcedureSpec) :
    (p.image order number).length % 2 = 0 := by
  have even : (evenCode (p.body.getD {}).code).length % 2 = 0 := by
    unfold evenCode
    split
    · rw [List.length_append, List.length_singleton]
      omega
    · omega
  rw [length_image, tableOffset]
  omega

/-- The jump table lies backwards below the attributes. -/
theorem getElem?_jumpWords (p : ProcedureSpec) {k target : Nat}
    (h : (p.body.getD {}).jumpTable[k]? = some target) :
    p.jumpWords[(p.body.getD {}).jumpTable.length - 1 - k]? =
      some (distance (p.tableOffset - 10 - 2 * k) target) := by
  obtain ⟨bound, -⟩ := List.getElem?_eq_some_iff.1 h
  have back : (p.body.getD {}).jumpTable.length - 1 -
      ((p.body.getD {}).jumpTable.length - 1 - k) = k := by omega
  rw [jumpWords, List.getElem?_reverse (by simp; omega)]
  simp [back, h]

/-- Where the parts of a procedure at `a` are found that jumps use. -/
structure Placed (m : Memory) (a : Nat) (p : ProcedureSpec) : Prop where
  code : m.Reads a (p.body.getD {}).code
  /-- Entries of the jump table lead to their targets. -/
  entries : ∀ k target, (p.body.getD {}).jumpTable[k]? = some target →
    10 + 2 * k ≤ p.tableOffset ∧
      AttributeTable.follow m (UInt16.ofNat (a + (p.tableOffset - 10 - 2 * k))) =
        .ok (UInt16.ofNat (a + target))
  entry : AttributeTable.entry m (UInt16.ofNat (a + p.tableOffset)) = .ok (UInt16.ofNat a)

theorem follow_of_distance {m : Memory} {a slot target : Nat}
    (h : m.readWord (UInt16.ofNat (a + slot)) = .ok (distance slot target)) :
    AttributeTable.follow m (UInt16.ofNat (a + slot)) = .ok (UInt16.ofNat (a + target)) := by
  rw [AttributeTable.follow, h]
  exact congrArg Except.ok (distance_back a slot target)

/-- The words of the attribute table, from the lowest on. -/
theorem attribute_of_reads {m : Memory} {a number : Nat} {p : ProcedureSpec}
    (h : m.Reads a (p.image m.order number)) {i : Nat} {w : Word}
    (hw : [p.dataBytes, p.parameterBytes, distance (p.tableOffset - 4) (p.body.getD {}).exit,
      distance (p.tableOffset - 2) 0][i]? = some w) :
    m.readWord (UInt16.ofNat (a + (p.tableOffset - (8 - 2 * i)))) = .ok w := by
  obtain ⟨few, -⟩ := List.getElem?_eq_some_iff.1 hw
  simp only [List.length_cons, List.length_nil] at few
  have offset : p.tableOffset =
      (evenCode (p.body.getD {}).code).length + 2 * (p.body.getD {}).jumpTable.length + 8 := rfl
  have word : (p.jumpWords ++ [p.dataBytes, p.parameterBytes,
      distance (p.tableOffset - 4) (p.body.getD {}).exit, distance (p.tableOffset - 2) 0])[
        p.jumpWords.length + i]? = some w := by
    rw [List.getElem?_append_right (Nat.le_add_right ..), Nat.add_sub_cancel_left, hw]
  have read := h.left.right.words word
  have place : (evenCode (p.body.getD {}).code).length + 2 * (p.jumpWords.length + i) =
      p.tableOffset - (8 - 2 * i) := by
    rw [length_jumpWords]
    omega
  rwa [Nat.add_assoc, place] at read

/-- The image of a procedure has all parts in their places. -/
theorem placed_of_reads {m : Memory} {a number : Nat} {p : ProcedureSpec}
    (h : m.Reads a (p.image m.order number)) : Placed m a p := by
  have offset : p.tableOffset =
      (evenCode (p.body.getD {}).code).length + 2 * (p.body.getD {}).jumpTable.length + 8 := rfl
  -- The code comes first, padded to even length, then the jump table from its end, then the
  -- attributes.
  have words := h.left.right
  constructor
  · have even := h.left.left
    rw [evenCode] at even
    split at even
    · exact even.left
    · exact even
  · intro k target entry
    obtain ⟨bound, -⟩ := List.getElem?_eq_some_iff.1 entry
    have slot := words.words (i := (p.body.getD {}).jumpTable.length - 1 - k) (by
      rw [List.getElem?_append_left (by rw [length_jumpWords]; omega)]
      exact getElem?_jumpWords p entry)
    have place : (evenCode (p.body.getD {}).code).length +
        2 * ((p.body.getD {}).jumpTable.length - 1 - k) = p.tableOffset - 10 - 2 * k := by omega
    rw [Nat.add_assoc, place] at slot
    exact ⟨by omega, follow_of_distance slot⟩
  · have high : 8 ≤ p.tableOffset := Nat.le_add_left ..
    have back : UInt16.ofNat (a + p.tableOffset) - 2 = UInt16.ofNat (a + (p.tableOffset - 2)) :=
      ofNat_add_sub (k := 2) (by omega)
    rw [AttributeTable.entry, back]
    exact follow_of_distance (attribute_of_reads h (i := 3) rfl)

end ProcedureSpec

/-! ## Segments -/

namespace SegmentSpec

/-- The offset of a procedure from the start of its segment. -/
def start (order : ByteOrder) (s : SegmentSpec) (k : Nat) : Nat :=
  ((s.procedureImages order).take k).flatten.length

/-- Procedures start at even offsets. -/
theorem even_start (order : ByteOrder) (s : SegmentSpec) (k : Nat) : s.start order k % 2 = 0 := by
  have even : ∀ image ∈ (s.procedureImages order).take k, image.length % 2 = 0 := by
    intro image h
    obtain ⟨⟨p, i⟩, -, rfl⟩ := List.mem_map.1 (List.mem_of_mem_take h)
    exact p.even_length_image order (i + 1)
  unfold start
  revert even
  induction (s.procedureImages order).take k with
  | nil => exact fun _ => rfl
  | cons image rest ih =>
    intro even
    have first := even image List.mem_cons_self
    have later := ih fun image h => even image (List.mem_cons_of_mem _ h)
    rw [List.flatten_cons, List.length_append]
    omega

theorem getElem?_procedureImages (order : ByteOrder) {s : SegmentSpec} {k : Nat} {p : ProcedureSpec}
    (h : s.procedures[k]? = some p) :
    (s.procedureImages order)[k]? = some (p.image order (k + 1)) := by
  simp [procedureImages, h]

theorem getElem?_tableOffsets {images : List Bytes} {k : Nat} {image : Bytes}
    (h : images[k]? = some image) (start : Nat) :
    (tableOffsets start images)[k]? =
      some (start + (images.take k).flatten.length + image.length - 2) := by
  induction images generalizing start k with
  | nil => simp at h
  | cons first rest ih =>
    cases k with
    | zero =>
      obtain rfl : first = image := by simpa using h
      simp [tableOffsets]
    | succ k =>
      have later := ih (k := k) (by simpa using h) (start + first.length)
      simp only [tableOffsets, List.getElem?_cons_succ, later, List.take_succ_cons,
        List.flatten_cons, List.length_append, Option.some_inj]
      omega

/-- A procedure's image stands in the image of its segment behind those before it. -/
theorem image_split (order : ByteOrder) {s : SegmentSpec} {k : Nat} {p : ProcedureSpec}
    (hp : s.procedures[k]? = some p) :
    ∃ before after, s.image order = before ++ (p.image order (k + 1) ++ after) ∧
      before.length = s.start order k := by
  obtain ⟨bound, eq⟩ := List.getElem?_eq_some_iff.1 (getElem?_procedureImages order hp)
  have flat : (s.procedureImages order).flatten = ((s.procedureImages order).take k).flatten ++
      (p.image order (k + 1) ++ ((s.procedureImages order).drop (k + 1)).flatten) := by
    conv_lhs => rw [← List.take_append_drop k (s.procedureImages order)]
    rw [List.flatten_append, List.drop_eq_getElem_cons bound, List.flatten_cons, eq]
  have whole : s.image order = (s.procedureImages order).flatten ++ _ := rfl
  rw [flat, List.append_assoc, List.append_assoc] at whole
  exact ⟨_, _, whole, rfl⟩

/-- A procedure of a segment that is found at `load`. -/
theorem placed_of_reads {m : Memory} {load : Nat} {s : SegmentSpec} {k : Nat} {p : ProcedureSpec}
    (h : m.Reads load (s.image m.order)) (hp : s.procedures[k]? = some p) :
    p.Placed m (load + s.start m.order k) := by
  obtain ⟨before, after, eq, length⟩ := image_split m.order hp
  rw [eq] at h
  rw [← length]
  exact ProcedureSpec.placed_of_reads h.right.left

theorem getElem?_tableOffsets_procedureImages (order : ByteOrder) {s : SegmentSpec} {k : Nat}
    {p : ProcedureSpec} (hp : s.procedures[k]? = some p) :
    (tableOffsets 0 (s.procedureImages order))[k]? = some (s.start order k + p.tableOffset) := by
  rw [getElem?_tableOffsets (getElem?_procedureImages order hp), ProcedureSpec.length_image, start]
  congr 1
  omega

/-- The code of a procedure is shorter than its segment. -/
theorem length_code_lt (order : ByteOrder) {s : SegmentSpec} {k : Nat} {p : ProcedureSpec}
    (hp : s.procedures[k]? = some p) :
    (p.body.getD {}).code.length < (s.image order).length := by
  obtain ⟨before, after, eq, -⟩ := image_split order hp
  have even : (p.body.getD {}).code.length ≤
      (ProcedureSpec.evenCode (p.body.getD {}).code).length := by
    rw [ProcedureSpec.evenCode]
    split <;> simp
  rw [eq, List.length_append, List.length_append, ProcedureSpec.length_image,
    ProcedureSpec.tableOffset]
  omega

end SegmentSpec
end PSystem
