import PSystem.Proofs.InstructionRuns

/-!
# Packed arrays

A packed array keeps several elements in a word.  A `Packing` says how many and how wide they are; IXP
finds the word and the bits of an element, LDP loads the element and STP stores it.  Main statement:
`packed_array`.

An element is a `field` of its word.  An insertion replaces the bits of one field
(`testBit_insertField`), and the fields of two elements share no bit (`Packing.lowest_apart`), or they
lie in words that share no cell (`Packing.address_apart`).
-/

namespace PSystem
namespace Machine

open Store (capacity)

/-! ## Fields of a word -/

section

variable {x v width right : Word} {w r k : Nat}

/-- The number in the `w` bits of a word from bit `r` on. -/
def field (x : Word) (w r : Nat) : Nat :=
  x.toNat / 2 ^ r % 2 ^ w

theorem testBit_field : (field x w r).testBit k = (decide (k < w) && x.toNat.testBit (r + k)) := by
  rw [field, Nat.testBit_mod_two_pow, Nat.testBit_div_two_pow, Nat.add_comm]

theorem toNat_fieldMask (narrow : width.toNat ≤ 16) :
    (fieldMask width).toNat = 2 ^ width.toNat - 1 := by
  unfold fieldMask
  split
  · rename_i full
    rw [UInt16.le_iff_toNat_le] at full
    have sixteen : width.toNat = 16 := Nat.le_antisymm narrow full
    rw [sixteen]
    rfl
  · rename_i short
    rw [UInt16.le_iff_toNat_le] at short
    change ¬ 16 ≤ width.toNat at short
    have bound : 2 ^ width.toNat < 2 ^ 16 := Nat.pow_lt_pow_right (by decide) (by omega)
    have shifted : ((1 : Word) <<< width).toNat = 2 ^ width.toNat := by
      rw [UInt16.toNat_shiftLeft, Nat.mod_eq_of_lt (by omega : width.toNat < 16), Nat.shiftLeft_eq,
        UInt16.toNat_one, Nat.one_mul, Nat.mod_eq_of_lt bound]
    have one : (1 : Word) ≤ 1 <<< width := by
      rw [UInt16.le_iff_toNat_le, shifted]
      exact Nat.one_le_two_pow
    rw [UInt16.toNat_sub_of_le _ _ one, shifted]
    rfl

theorem toNat_shiftDown (inside : right.toNat < 16) :
    (shiftDown x right).toNat = x.toNat / 2 ^ right.toNat := by
  have small : ¬ 16 ≤ right := by
    rw [UInt16.le_iff_toNat_le]
    exact Nat.not_le.2 inside
  rw [shiftDown, if_neg small, UInt16.toNat_shiftRight, Nat.mod_eq_of_lt inside,
    Nat.shiftRight_eq_div_pow]

theorem testBit_shiftUp (inside : right.toNat < 16) (small : k < 16) :
    (shiftUp x right).toNat.testBit k =
      (decide (right.toNat ≤ k) && x.toNat.testBit (k - right.toNat)) := by
  have low : ¬ 16 ≤ right := by
    rw [UInt16.le_iff_toNat_le]
    exact Nat.not_le.2 inside
  rw [shiftUp, if_neg low, UInt16.toNat_shiftLeft, Nat.mod_eq_of_lt inside, Nat.testBit_mod_two_pow,
    Nat.testBit_shiftLeft]
  simp [small]

theorem toNat_extractField (narrow : width.toNat ≤ 16) (inside : right.toNat < 16) :
    (extractField x width right).toNat = field x width.toNat right.toNat := by
  rw [extractField, UInt16.toNat_and, toNat_shiftDown inside, toNat_fieldMask narrow,
    Nat.and_two_pow_sub_one_eq_mod, field]

theorem testBit_fieldMask (narrow : width.toNat ≤ 16) :
    (fieldMask width).toNat.testBit k = decide (k < width.toNat) := by
  rw [toNat_fieldMask narrow, Nat.testBit_two_pow_sub_one]

theorem testBit_not (small : k < 16) : (~~~x).toNat.testBit k = !x.toNat.testBit k := by
  rw [← WordSet.bit_eq_testBit _ small, ← WordSet.bit_eq_testBit _ small, WordSet.bit_not _ small]

/-- An insertion replaces the bits of the field and no others. -/
theorem testBit_insertField (fits : right.toNat + width.toNat ≤ 16) (inside : right.toNat < 16) :
    (insertField x width right v).toNat.testBit k =
      if right.toNat ≤ k ∧ k < right.toNat + width.toNat then v.toNat.testBit (k - right.toNat)
      else x.toNat.testBit k := by
  have narrow : width.toNat ≤ 16 := by omega
  by_cases small : k < 16
  · have mask := testBit_shiftUp (x := fieldMask width) inside small
    have bits := testBit_shiftUp (x := v &&& fieldMask width) inside small
    rw [testBit_fieldMask narrow] at mask
    rw [UInt16.toNat_and, Nat.testBit_and, testBit_fieldMask narrow] at bits
    rw [insertField, UInt16.toNat_or, Nat.testBit_or, UInt16.toNat_and, Nat.testBit_and,
      UInt16.toNat_and, Nat.testBit_and, testBit_not small, mask, bits]
    by_cases low : right.toNat ≤ k
    · by_cases high : k - right.toNat < width.toNat
      · rw [if_pos (by omega)]
        simp [low, high]
      · rw [if_neg (by omega)]
        simp [high]
    · rw [if_neg (fun here => low here.1)]
      simp [low]
  · -- no word has a bit there
    have large : 2 ^ 16 ≤ 2 ^ k := Nat.pow_le_pow_right (by decide) (Nat.le_of_not_lt small)
    rw [if_neg (by omega), Nat.testBit_lt_two_pow (Nat.lt_of_lt_of_le (UInt16.toNat_lt _) large),
      Nat.testBit_lt_two_pow (Nat.lt_of_lt_of_le x.toNat_lt large)]

theorem field_insertField (fits : right.toNat + width.toNat ≤ 16) (inside : right.toNat < 16) :
    field (insertField x width right v) width.toNat right.toNat = v.toNat % 2 ^ width.toNat := by
  apply Nat.eq_of_testBit_eq
  intro k
  rw [testBit_field, testBit_insertField fits inside, Nat.testBit_mod_two_pow]
  by_cases low : k < width.toNat
  · rw [if_pos (by omega), Nat.add_sub_cancel_left]
  · simp [low]

/-- Another field that shares no bit with it is as before. -/
theorem field_insertField_of_apart (fits : right.toNat + width.toNat ≤ 16)
    (inside : right.toNat < 16) (apart : r + w ≤ right.toNat ∨ right.toNat + width.toNat ≤ r) :
    field (insertField x width right v) w r = field x w r := by
  apply Nat.eq_of_testBit_eq
  intro k
  rw [testBit_field, testBit_field, testBit_insertField fits inside]
  by_cases low : k < w
  · rw [if_neg (by omega)]
  · simp [low]

end

end Machine

/-! ## Elements -/

/-- The layout of a packed array: how many elements a word has, and how many bits an element. -/
structure Packing where
  perWord : UInt8
  width : UInt8
  positive : 1 ≤ perWord.toNat
  fits : perWord.toNat * width.toNat ≤ 16

namespace Packing

open Machine

variable (g : Packing) (a i j : Word)

/-- The instruction that finds elements. -/
def code : Bytes :=
  [Opcode.ixp.code, g.perWord, g.width]

/-- The distance of the word of an element from the start of the array. -/
def offset : Nat :=
  2 * (i.toNat / g.perWord.toNat)

/-- The address of the word of an element. -/
def address : Address :=
  a + UInt16.ofNat (g.offset i)

/-- The lowest bit of an element in its word. -/
def lowest : Nat :=
  i.toNat % g.perWord.toNat * g.width.toNat

/-- The contents of an element of the array at `a`. -/
def element (m : Memory) : Word :=
  UInt16.ofNat (field (m.peekWord (g.address a i)) g.width.toNat (g.lowest i))

variable {i j}

theorem lowest_add_width_le : g.lowest i + g.width.toNat ≤ g.perWord.toNat * g.width.toNat := by
  have inside : i.toNat % g.perWord.toNat + 1 ≤ g.perWord.toNat := Nat.mod_lt _ g.positive
  have bits := Nat.mul_le_mul_right g.width.toNat inside
  rwa [Nat.add_mul, Nat.one_mul] at bits

theorem lowest_fits : g.lowest i + g.width.toNat ≤ 16 :=
  Nat.le_trans g.lowest_add_width_le g.fits

theorem width_le : g.width.toNat ≤ 16 :=
  Nat.le_trans (Nat.le_add_left ..) (g.lowest_fits (i := 0))

theorem lowest_lt : g.lowest i < 16 := by
  have fits := g.lowest_fits (i := i)
  cases wide : g.width.toNat with
  | zero =>
    rw [lowest, wide, Nat.mul_zero]
    decide
  | succ w => omega

theorem toNat_lowest : (UInt16.ofNat (g.lowest i)).toNat = g.lowest i :=
  UInt16.toNat_ofNat_of_lt' (Nat.lt_trans g.lowest_lt (by decide))

/-- The address as it is computed. -/
theorem address_eq : g.address a i = a + 2 * (i / g.perWord.toUInt16) := by
  apply UInt16.toNat_inj.1
  rw [address, offset, UInt16.toNat_add, UInt16.toNat_add, UInt16.toNat_ofNat', UInt16.toNat_mul,
    UInt16.toNat_div, UInt8.toNat_toUInt16]
  rfl

/-- The lowest bit as it is computed. -/
theorem lowest_eq :
    UInt16.ofNat (g.lowest i) = i % g.perWord.toUInt16 * g.width.toUInt16 := by
  apply UInt16.toNat_inj.1
  rw [lowest, UInt16.toNat_ofNat', UInt16.toNat_mul, UInt16.toNat_mod, UInt8.toNat_toUInt16,
    UInt8.toNat_toUInt16]

/-- Elements that share a word have bits of their own. -/
theorem lowest_apart (ne : i ≠ j) (same : g.offset i = g.offset j) :
    g.lowest j + g.width.toNat ≤ g.lowest i ∨ g.lowest i + g.width.toNat ≤ g.lowest j := by
  unfold offset at same
  have split := Nat.div_add_mod i.toNat g.perWord.toNat
  have split' := Nat.div_add_mod j.toNat g.perWord.toNat
  rw [show i.toNat / g.perWord.toNat = j.toNat / g.perWord.toNat by omega] at split
  have differ : i.toNat ≠ j.toNat := fun eq => ne (UInt16.toNat_inj.1 eq)
  unfold lowest
  rcases Nat.lt_or_gt_of_ne (show i.toNat % g.perWord.toNat ≠ j.toNat % g.perWord.toNat by omega)
    with before | after
  · right
    rw [← Nat.succ_mul]
    exact Nat.mul_le_mul_right _ before
  · left
    rw [← Nat.succ_mul]
    exact Nat.mul_le_mul_right _ after

/-- Elements of different words share no cell. -/
theorem address_apart (inside : g.offset i < 2 ^ 16) (inside' : g.offset j < 2 ^ 16)
    (ne : g.offset i ≠ g.offset j) :
    g.address a j ≠ g.address a i ∧ g.address a j ≠ g.address a i + 1 ∧
      g.address a j + 1 ≠ g.address a i ∧ g.address a j + 1 ≠ g.address a i + 1 := by
  have even : g.offset i % 2 = 0 := Nat.mul_mod_right 2 _
  have even' : g.offset j % 2 = 0 := Nat.mul_mod_right 2 _
  unfold address
  simp only [ne_eq, ← UInt16.toNat_inj, UInt16.toNat_add, UInt16.toNat_ofNat', UInt16.toNat_one]
  omega

theorem extractField_eq (m : Memory) :
    extractField (m.peekWord (g.address a i)) g.width.toUInt16 (UInt16.ofNat (g.lowest i)) =
      g.element a i m := by
  have narrow : g.width.toUInt16.toNat ≤ 16 := by
    rw [UInt8.toNat_toUInt16]
    exact g.width_le
  have inside : (UInt16.ofNat (g.lowest i)).toNat < 16 := by
    rw [toNat_lowest]
    exact g.lowest_lt
  have extracted := toNat_extractField (x := m.peekWord (g.address a i)) narrow inside
  rw [UInt8.toNat_toUInt16, toNat_lowest] at extracted
  rw [element, ← extracted, UInt16.ofNat_toNat]

/-- Work on the stack leaves the elements that lie elsewhere. -/
theorem element_of_within {m m' : Memory} (within : Memory.Within (Store.Below Store.top) m m')
    (storable : Storable m (g.address a i) 1) : g.element a i m' = g.element a i m := by
  have first := (storable 0 (by decide)).2
  rw [Memory.add_ofNat_zero] at first
  rw [element, element, within.peekWord first (storable 1 (by decide)).2]

/-- What is found in the elements after a value was inserted in one of them. -/
theorem element_of_insertField {m m' : Memory} {v : Word} (inside : g.offset i < 2 ^ 16)
    (inside' : g.offset j < 2 ^ 16)
    (within : Memory.Within (fun b => b = g.address a i ∨ b = g.address a i + 1) m m')
    (stored : m'.peekWord (g.address a i) =
      insertField (m.peekWord (g.address a i)) g.width.toUInt16 (UInt16.ofNat (g.lowest i)) v) :
    g.element a j m' =
      if i = j then UInt16.ofNat (v.toNat % 2 ^ g.width.toNat) else g.element a j m := by
  have width : g.width.toUInt16.toNat = g.width.toNat := UInt8.toNat_toUInt16 _
  have fits : (UInt16.ofNat (g.lowest i)).toNat + g.width.toUInt16.toNat ≤ 16 := by
    rw [width, toNat_lowest]
    exact g.lowest_fits
  have lt : (UInt16.ofNat (g.lowest i)).toNat < 16 := by
    rw [toNat_lowest]
    exact g.lowest_lt
  unfold element
  split
  · rename_i eq
    subst eq
    have same := field_insertField (x := m.peekWord (g.address a i)) (v := v) fits lt
    rw [width, toNat_lowest] at same
    rw [stored, same]
  · rename_i ne
    congr 1
    -- Two elements are in one word, at different bits of it, or in words that do not overlap.
    by_cases same : g.offset i = g.offset j
    · have here : g.address a j = g.address a i := by rw [address, address, same]
      have apart := g.lowest_apart ne same
      rw [here, stored]
      apply field_insertField_of_apart fits lt
      rw [width, toNat_lowest]
      exact apart
    · obtain ⟨h₁, h₂, h₃, h₄⟩ := g.address_apart a inside inside' same
      rw [within.peekWord (by rintro (h | h) <;> contradiction) (by rintro (h | h) <;> contradiction)]

end Packing

/-! ## The instructions -/

namespace Machine

open Store (capacity)

section

variable {m : Machine} {a v width right : Word} {ws : List Word}

/-- IXP takes the index of an element and the address of the array from the stack. -/
def indexing (perWord width : UInt8) : Run Machine Unit := do
  let index ← pop
  let a ← pop
  push (a + 2 * (index / perWord.toUInt16))
  push width.toUInt16
  push (index % perWord.toUInt16 * width.toUInt16)

theorem executeNext_of_indexing {g : Packing} {c : Address} (reads : m.memory.Reads c.toNat g.code) :
    executeNext (m.movedTo c) = (liftM (indexing g.perWord g.width) : Exec Unit) (m.movedTo (c + 3)) := by
  have opcode : m.memory.readByte (c + 0) = .ok Opcode.ixp.code :=
    readByte_of_reads reads (i := 0) rfl
  have first := fetchByte_of_reads reads (i := 1) rfl
  have second := fetchByte_of_reads reads (i := 2) rfl
  have some : max g.perWord 1 = g.perWord := by
    have least : (1 : UInt8) ≤ g.perWord := UInt8.le_iff_toNat_le.2 g.positive
    show (if g.perWord ≤ 1 then 1 else g.perWord) = g.perWord
    split
    · rename_i most
      exact UInt8.le_antisymm least most
    · rfl
  rw [UInt16.add_zero] at opcode
  rw [executeNext_of_fetched (m := m.movedTo c) .ixp (x := fetchByte) rfl rfl
    (by rw [nextAddress_movedTo]; exact opcode) (by rw [nextAddress_movedTo]; exact first)]
  dsimp only
  rw [some, liftM_bind_apply]
  exact liftM_bind_of_ok second

theorem produces_indexing (g : Packing) {i : Word} (h : m.store.Holds (i :: a :: ws))
    (room : ws.length + 3 ≤ capacity) :
    Produces (Store.Below Store.top) (indexing g.perWord g.width) m
      (UInt16.ofNat (g.lowest i) :: g.width.toUInt16 :: g.address a i :: ws) := by
  have h₁ := holds_dropped h
  have h₂ := holds_dropped h₁
  have indexed : Produces (Store.Below Store.top)
      (do
        push (g.address a i)
        push g.width.toUInt16
        push (UInt16.ofNat (g.lowest i))) ((m.dropped 2).dropped 2)
      (UInt16.ofNat (g.lowest i) :: g.width.toUInt16 :: g.address a i :: ws) :=
    (produces_push h₂ (by omega) _).bind fun _ h₃ =>
      (produces_push h₃ (by rw [List.length_cons]; omega) _).bind fun _ h₄ =>
        produces_push h₄ (by rw [List.length_cons, List.length_cons]; omega) _
  rw [dropped_dropped] at indexed
  refine indexed.of_dropped ?_
  rw [indexing, pop_bind h, pop_bind h₁, dropped_dropped, g.address_eq, g.lowest_eq]

theorem produces_loadPacked (h : m.store.Holds (right :: width :: a :: ws))
    (legible : m.memory.Legible a 2) :
    Produces (Store.Below Store.top) loadPacked m
      (extractField (m.memory.peekWord a) width right :: ws) := by
  have h₁ := holds_dropped h
  have h₂ := holds_dropped h₁
  have h₃ := holds_dropped h₂
  have room : ws.length < capacity := by
    have := h.length_le
    simp only [List.length_cons] at this
    omega
  have loaded := produces_push h₃ room (extractField (m.memory.peekWord a) width right)
  rw [dropped_dropped, dropped_dropped] at loaded
  refine loaded.of_dropped ?_
  rw [loadPacked, pop_bind h, pop_bind h₁, pop_bind h₂, bind_of_ok (reading_apply legible.readWord),
    dropped_dropped, dropped_dropped]

theorem endsIn_storePacked (h : m.store.Holds (v :: right :: width :: a :: ws))
    (storable : Storable m.memory a 1) :
    EndsIn storePacked m fun s =>
      s.Holds ws ∧ Memory.Within (fun b => b = a ∨ b = a + 1) m.memory s.memory ∧
        s.memory.peekWord a = insertField (m.memory.peekWord a) width right v := by
  have h₁ := holds_dropped h
  have h₂ := holds_dropped h₁
  have h₃ := holds_dropped h₂
  have h₄ := holds_dropped h₃
  have legible : m.memory.Legible a 2 := fun i hi => ⟨(storable i hi).1.valid, (storable i hi).1.unmapped⟩
  have stored := endsIn_writeWord h₄ storable (insertField (m.memory.peekWord a) width right v)
  simp only [dropped_dropped] at stored
  refine stored.of_dropped ?_
  rw [storePacked, pop_bind h, pop_bind h₁, pop_bind h₂, pop_bind h₃,
    bind_of_ok (reading_apply legible.readWord)]
  simp only [dropped_dropped]

end

/-! ## Packed arrays behave like arrays -/

section

variable {m : Machine} {a : Address} {ws : List Word}

theorem executeNext_of_loadPacked {c : Address} (reads : m.memory.Reads c.toNat [Opcode.ldp.code]) :
    executeNext (m.movedTo c) = (liftM loadPacked : Exec Unit) (m.movedTo (c + 1)) :=
  executeNext_movedTo_of_plain .ldp rfl rfl reads

theorem executeNext_of_storePacked {c : Address} (reads : m.memory.Reads c.toNat [Opcode.stp.code]) :
    executeNext (m.movedTo c) = (liftM storePacked : Exec Unit) (m.movedTo (c + 1)) :=
  executeNext_movedTo_of_plain .stp rfl rfl reads

theorem Storable.guarded {memory memory' : Memory} {n : Nat} (h : Storable memory a n)
    (guarded : Memory.Guarded memory memory') : Storable memory' a n :=
  fun i hi => ⟨guarded.free (h i hi).1, (h i hi).2⟩

theorem Storable.legible {memory : Memory} {n : Nat} (h : Storable memory a n) :
    memory.Legible a (2 * n) :=
  fun i hi => ⟨(h i hi).1.valid, (h i hi).1.unmapped⟩

/-- Address and index of an element are pushed, and the element is found. -/
theorem performs_index (g : Packing) (a i : Word) {events : List MachineEvent}
    {post : Except Stop Unit → Machine → Prop} (h : m.store.Holds ws) (room : ws.length + 3 ≤ capacity)
    (next : ∀ s c, s.Holds (UInt16.ofNat (g.lowest i) :: g.width.toUInt16 :: g.address a i :: ws) →
      Memory.Within (Store.Below Store.top) m.memory s.memory →
      ((m.withStore s).movedTo c).Performs events post) :
    m.Performs (.push a :: .push i :: .execute g.code :: events) post := by
  refine performs_push h (by omega) fun s h₁ within₁ => ?_
  refine performs_push (m := m.withStore s) h₁ (by rw [List.length_cons]; omega) fun t h₂ within₂ => ?_
  refine performs_produces (fun c reads => executeNext_of_indexing reads)
    (fun c => produces_indexing g h₂ room) fun u c h₃ within₃ => ?_
  exact next u c h₃ (IsTrans.trans _ _ _ within₁ (IsTrans.trans _ _ _ within₂ within₃))

/-- STP with a value for one element, then LDP of any element: the value is found in the element it was
stored in, cut to the width, and every other element is as it was. -/
theorem packed_array (g : Packing) (a i j v : Word) (h : m.store.Holds ws)
    (room : ws.length + 4 ≤ capacity) (inside : g.offset i < 2 ^ 16) (inside' : g.offset j < 2 ^ 16)
    (storable : Storable m.memory (g.address a i) 1) (storable' : Storable m.memory (g.address a j) 1) :
    m.Performs [.push a, .push i, .execute g.code, .push v, .execute [Opcode.stp.code],
        .push a, .push j, .execute g.code, .execute [Opcode.ldp.code]] fun result m' =>
      result = .ok () ∧
      m'.store.Holds
        ((if i = j then UInt16.ofNat (v.toNat % 2 ^ g.width.toNat) else g.element a j m.memory) :: ws) ∧
      Memory.Within
        (fun b => Store.Below Store.top b ∨ b = g.address a i ∨ b = g.address a i + 1)
        m.memory m'.memory := by
  refine performs_index g a i h (by omega) fun s₁ c₁ h₁ within₁ => ?_
  refine performs_push h₁ (by simp only [List.length_cons]; omega) fun s₂ h₂ within₂ => ?_
  have before : Memory.Within (Store.Below Store.top) m.memory s₂.memory :=
    IsTrans.trans _ _ _ within₁ within₂
  refine performs_execute (fun c reads => executeNext_of_storePacked reads)
    (Q := fun s => s.Holds ws ∧
      Memory.Within (fun b => b = g.address a i ∨ b = g.address a i + 1) s₂.memory s.memory ∧
      s.memory.peekWord (g.address a i) =
        insertField (s₂.memory.peekWord (g.address a i)) g.width.toUInt16 (UInt16.ofNat (g.lowest i)) v)
    (fun c => endsIn_storePacked h₂ (storable.guarded before.toGuarded)) ?_
  -- the value is stored; from here on only cells of the stack change
  rintro s₃ c₃ ⟨h₃, within₃, stored⟩
  refine performs_index g a j h₃ (by omega) fun s₄ c₄ h₄ within₄ => ?_
  have found : Storable s₃.memory (g.address a j) 1 :=
    (storable'.guarded before.toGuarded).guarded within₃.toGuarded
  have word := calc
    extractField (s₄.memory.peekWord (g.address a j)) g.width.toUInt16 (UInt16.ofNat (g.lowest j))
    _ = g.element a j s₄.memory := g.extractField_eq a s₄.memory
    _ = g.element a j s₃.memory := g.element_of_within a within₄ found
    _ = if i = j then UInt16.ofNat (v.toNat % 2 ^ g.width.toNat) else g.element a j s₂.memory :=
      g.element_of_insertField a inside inside' within₃ stored
    _ = if i = j then UInt16.ofNat (v.toNat % 2 ^ g.width.toNat) else g.element a j m.memory := by
      rw [g.element_of_within a before storable']
  have loads (c : Address) : Produces (Store.Below Store.top) loadPacked ((m.withStore s₄).movedTo c)
      ((if i = j then UInt16.ofNat (v.toNat % 2 ^ g.width.toNat) else g.element a j m.memory) :: ws) := by
    rw [← word]
    exact produces_loadPacked h₄ (found.guarded within₄.toGuarded).legible
  refine performs_produces (fun c reads => executeNext_of_loadPacked reads) loads
    fun s₅ c₅ h₅ within₅ => ?_
  refine ⟨rfl, h₅, ?_⟩
  have stored := IsTrans.trans _ _ _ (before.mono fun b => Or.inl) (within₃.mono fun b => Or.inr)
  have loaded : Memory.Within (Store.Below Store.top) s₃.memory s₅.memory :=
    IsTrans.trans _ _ _ within₄ within₅
  exact IsTrans.trans _ _ _ stored (loaded.mono fun b => Or.inl)

/-- Four elements of four bits in a word. -/
def nibbles : Packing where
  perWord := 4
  width := 4
  positive := by decide
  fits := by decide

/-- Elements 6 and 7 of the array at 0x2000 are 5 and 3. -/
def holdingNibbles : Machine :=
  primed
    (do
      Memory.writeBytes 0x1000
        (nibbles.code ++ [Opcode.stp.code] ++ nibbles.code ++ [Opcode.ldp.code])
      Memory.writeByte 0x2003 0x35) [] 0x1000

/-- Another element of the word in which 31 is stored is found. -/
theorem packed_array_nibbles :
    let run := carryOut [.push 0x2000, .push 5, .execute nibbles.code, .push 31, .execute [Opcode.stp.code],
      .push 0x2000, .push 6, .execute nibbles.code, .execute [Opcode.ldp.code]] holdingNibbles
    resultOf run = .ok () ∧ (endState run).store.Holds [5] := by
  have holds : holdingNibbles.store.Holds [] := holds_primed _ (by decide) _
  have storable : Storable holdingNibbles.memory 0x2002 1 := by decide +kernel
  have performs := packed_array nibbles 0x2000 5 6 31 holds (by decide) (by decide) (by decide)
    storable storable
  obtain ⟨result, store, -⟩ := performs.run (by decide +kernel)
  have element : nibbles.element 0x2000 6 holdingNibbles.memory = 5 := by decide +kernel
  rw [if_neg (by decide), element] at store
  exact ⟨result, store⟩

end

end Machine
end PSystem
