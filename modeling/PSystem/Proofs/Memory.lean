import Mathlib.Algebra.Ring.Nat
import Mathlib.Data.List.Basic
import PSystem.Proofs.Keeps
import PSystem.Syscom

/-!
# What writes do to memory

Two relations describe a write from outside.  `Memory.Guarded` is what every write keeps, whether
it succeeds or not: byte order, devices, the marks of all cells, and the values of protected cells.
`Memory.AgreesOff S` says that only cells in `S` changed.  Both are preorders, so they carry over
to any sequence of writes.

A write to cells that are `Free` succeeds, and the bytes are found there afterwards.
-/

namespace PSystem

/-! ## Addresses within the width of a store -/

namespace Cells

variable {α : Type}

theorem sameCell_iff_eq {n i j : Nat} (hi : i < 2 ^ n) (hj : j < 2 ^ n) :
    SameCell n i j ↔ i = j := by
  constructor
  · intro h
    apply Nat.eq_of_testBit_eq
    intro k
    rcases Nat.lt_or_ge k n with hk | hk
    · exact h k hk
    · have hpow : 2 ^ n ≤ 2 ^ k := Nat.pow_le_pow_right (by decide) hk
      rw [Nat.testBit_lt_two_pow (by omega), Nat.testBit_lt_two_pow (by omega)]
  · rintro rfl k _
    rfl

/-- The law of the store, for addresses within its width. -/
theorem get_modify {n : Nat} (cells : Cells α n) {i j : Nat} (hi : i < 2 ^ n) (hj : j < 2 ^ n)
    (f : α → α) :
    (cells.modify i f).get j = if i = j then f (cells.get j) else cells.get j := by
  by_cases h : i = j
  · simp only [h, if_true]
    exact get_modify_same cells f fun _ _ => rfl
  · simp only [h, if_false]
    exact get_modify_other cells f fun same => h ((sameCell_iff_eq hi hj).1 same)

theorem get_set {n : Nat} (cells : Cells α n) {i j : Nat} (hi : i < 2 ^ n) (hj : j < 2 ^ n)
    (value : α) : (cells.set i value).get j = if i = j then value else cells.get j :=
  get_modify cells hi hj fun _ => value

end Cells

/-! ## Bytes of a word -/

namespace ByteOrder

theorem high_or_low (w : Nat) : w >>> 8 <<< 8 ||| w % 256 = w := by
  rw [← Nat.shiftLeft_add_eq_or_of_lt (by omega : w % 256 < 2 ^ 8)]
  simp only [Nat.shiftLeft_eq, Nat.shiftRight_eq_div_pow]
  omega

/-- The bytes of a word make up the word again. -/
@[simp]
theorem join_split (order : ByteOrder) (w : Word) :
    order.join (order.split w).1 (order.split w).2 = w := by
  have hw : w.toNat < 2 ^ 16 := w.toNat_lt
  -- both halves of a word fit into a byte
  have high : w.toNat >>> 8 % 256 = w.toNat >>> 8 := by
    rw [Nat.shiftRight_eq_div_pow]
    omega
  have fits : w.toNat >>> 8 <<< 8 % 65536 = w.toNat >>> 8 <<< 8 := by
    rw [Nat.shiftLeft_eq, Nat.shiftRight_eq_div_pow]
    omega
  apply UInt16.toNat_inj.1
  cases order with
  | little => simp [split, join, high, fits, Nat.or_comm (w.toNat % 256), high_or_low]
  | big => simp [split, join, high, fits, high_or_low]

theorem low_of_or (low high : UInt8) :
    (low.toUInt16 ||| high.toUInt16 <<< 8).toUInt8 = low := by
  apply UInt8.eq_of_toBitVec_eq
  apply BitVec.eq_of_getLsbD_eq
  intro i hi
  simp [hi]

theorem high_of_or (low high : UInt8) :
    ((low.toUInt16 ||| high.toUInt16 <<< 8) >>> 8).toUInt8 = high := by
  apply UInt8.eq_of_toBitVec_eq
  apply BitVec.eq_of_getLsbD_eq
  intro i hi
  -- bit `i` of the high byte is bit `8 + i` of the word
  have below : i < 16 := by omega
  have above : 8 + i < 16 := by omega
  simp [hi, below, above]

/-- A word made of two bytes has these bytes. -/
@[simp]
theorem split_join (order : ByteOrder) (first second : UInt8) :
    order.split (order.join first second) = (first, second) := by
  cases order with
  | little =>
    simp only [split, join, Prod.mk.injEq]
    exact ⟨low_of_or first second, high_of_or first second⟩
  | big =>
    simp only [split, join, Prod.mk.injEq, UInt16.or_comm (first.toUInt16 <<< 8)]
    exact ⟨high_of_or second first, low_of_or second first⟩

end ByteOrder

namespace Memory

variable {m m' : Memory} {a b : Address} {v : UInt8} {w : Word}

/-! ## Cells -/

theorem cell_store (m : Memory) (a : Address) (v : UInt8) (b : Address) :
    (m.store a v).cell b =
      if a = b then { m.cell b with value := v, uninitialized := false } else m.cell b := by
  have h := Cells.get_modify m.cells (UInt16.toNat_lt a) (UInt16.toNat_lt b)
    fun c => { c with value := v, uninitialized := false }
  simp only [UInt16.toNat_inj] at h
  exact h

@[simp]
theorem readOnly_store : ((m.store a v).cell b).readOnly = (m.cell b).readOnly := by
  rw [cell_store]
  split <;> rfl

@[simp]
theorem mapped_store : ((m.store a v).cell b).mapped = (m.cell b).mapped := by
  rw [cell_store]
  split <;> rfl

@[simp]
theorem peekByte_store_self : (m.store a v).peekByte a = v := by
  simp [peekByte, cell_store]

theorem cell_store_of_ne (h : a ≠ b) : (m.store a v).cell b = m.cell b := by
  simp [cell_store, h]

theorem get_modifyRange (f : Cell → Cell) (cells : Cells Cell 16) (i n j : Nat)
    (fits : i + n ≤ 2 ^ 16) (hj : j < 2 ^ 16) :
    (modifyRange f cells i n).get j =
      if i ≤ j ∧ j < i + n then f (cells.get j) else cells.get j := by
  induction n generalizing cells i with
  | zero =>
    have none : ¬ (i ≤ j ∧ j < i + 0) := by omega
    simp only [modifyRange, if_neg none]
  | succ n ih =>
    rw [modifyRange, ih (cells.modify i f) (i + 1) (by omega),
      Cells.get_modify cells (by omega) hj]
    -- each cell is changed once, either here or further on
    by_cases first : i = j
    · have later : ¬ (i + 1 ≤ j ∧ j < i + 1 + n) := by omega
      have inside : i ≤ j ∧ j < i + (n + 1) := by omega
      rw [if_neg later, if_pos first, if_pos inside]
    · have same : (i + 1 ≤ j ∧ j < i + 1 + n) ↔ i ≤ j ∧ j < i + (n + 1) := by omega
      simp only [first, if_false, same]

theorem cell_mark (m : Memory) (start stop : Address) (f : Cell → Cell) (a : Address) :
    (m.mark start stop f).cell a =
      if start ≤ a ∧ a < stop then f (m.cell a) else m.cell a := by
  have hstop := stop.toNat_lt
  have hstart := start.toNat_lt
  have h := get_modifyRange f m.cells start.toNat (stop.toNat - start.toNat) a.toNat
    (by omega) a.toNat_lt
  -- an empty range marks nothing, also if it ends before it starts
  have range : (start.toNat ≤ a.toNat ∧ a.toNat < start.toNat + (stop.toNat - start.toNat)) ↔
      start ≤ a ∧ a < stop := by
    rw [UInt16.le_iff_toNat_le, UInt16.lt_iff_toNat_lt]
    omega
  simp only [range] at h
  exact h

/-- Protection changes the protection of its range and nothing else. -/
theorem cell_protect (m : Memory) (start stop : Address) (on : Bool) (a : Address) :
    (m.protect start stop on).cell a =
      { m.cell a with readOnly := if start ≤ a ∧ a < stop then on else (m.cell a).readOnly } := by
  rw [protect, cell_mark]
  split <;> rfl

theorem mapped_protect (start stop : Address) (on : Bool) :
    ((m.protect start stop on).cell a).mapped = (m.cell a).mapped := by
  rw [cell_protect]

theorem readOnly_protect_outside {start stop : Address} (on : Bool) (outside : ¬ (start ≤ a ∧ a < stop)) :
    ((m.protect start stop on).cell a).readOnly = (m.cell a).readOnly := by
  rw [cell_protect, if_neg outside]

@[simp]
theorem peekByte_protect {start stop : Address} {on : Bool} :
    (m.protect start stop on).peekByte a = m.peekByte a := by
  simp [peekByte, cell_protect]

/-- A device takes the cells of its range, which keep what they store. -/
theorem cell_attach (m : Memory) (device : Device) (a : Address) :
    (m.attach device).cell a =
      if device.start ≤ a ∧ a < device.stop then
        { m.cell a with mapped := true, uninitialized := false }
      else m.cell a :=
  cell_mark m device.start device.stop _ a

theorem readOnly_attach (m : Memory) (device : Device) (a : Address) :
    ((m.attach device).cell a).readOnly = (m.cell a).readOnly := by
  rw [cell_attach]
  split <;> rfl

/-- A reserved cell is marked and otherwise the same. -/
theorem cell_reserve (m : Memory) (first last a : Address) :
    (m.reserve first last).cell a = m.cell a ∨
      (m.reserve first last).cell a = { m.cell a with reserved := true } := by
  have hfirst := first.toNat_lt
  have hlast := last.toNat_lt
  have fits : first.toNat + (last.toNat + 1 - first.toNat) ≤ 2 ^ 16 := by omega
  have at_ := get_modifyRange (fun c => { c with reserved := true }) m.cells first.toNat
    (last.toNat + 1 - first.toNat) a.toNat fits a.toNat_lt
  unfold reserve cell
  rw [at_]
  split
  · exact .inr rfl
  · exact .inl rfl

/-! ## What every write keeps -/

/-- What a write keeps, whatever its outcome. -/
structure Guarded (m m' : Memory) : Prop where
  order : m'.order = m.order
  devices : m'.devices = m.devices
  readOnly : ∀ a, (m'.cell a).readOnly = (m.cell a).readOnly
  mapped : ∀ a, (m'.cell a).mapped = (m.cell a).mapped
  /-- Protected cells keep their values. -/
  locked : ∀ a, (m.cell a).readOnly = true → m'.peekByte a = m.peekByte a

instance : IsPreorder Memory Guarded where
  refl _ := ⟨rfl, rfl, fun _ => rfl, fun _ => rfl, fun _ _ => rfl⟩
  trans _ _ _ h h' :=
    { order := h'.order.trans h.order
      devices := h'.devices.trans h.devices
      readOnly := fun a => (h'.readOnly a).trans (h.readOnly a)
      mapped := fun a => (h'.mapped a).trans (h.mapped a)
      locked := fun a ha =>
        (h'.locked a ((h.readOnly a).trans ha)).trans (h.locked a ha) }

theorem guarded_store (h : (m.cell a).readOnly = false) : Guarded m (m.store a v) where
  order := rfl
  devices := rfl
  readOnly := fun _ => readOnly_store
  mapped := fun _ => mapped_store
  locked := by
    intro b hb
    have ne : a ≠ b := by
      rintro rfl
      rw [h] at hb
      cases hb
    rw [peekByte, cell_store_of_ne ne]
    rfl

/-- Only cells in `S` changed. -/
def AgreesOff (S : Address → Prop) (m m' : Memory) : Prop :=
  ∀ b, ¬ S b → m'.cell b = m.cell b

instance (S : Address → Prop) : IsPreorder Memory (AgreesOff S) where
  refl _ _ _ := rfl
  trans _ _ _ h h' b hb := (h' b hb).trans (h b hb)

theorem AgreesOff.peekByte {S : Address → Prop} (h : AgreesOff S m m') (hb : ¬ S b) :
    m'.peekByte b = m.peekByte b := by
  rw [Memory.peekByte, h b hb]
  rfl

theorem AgreesOff.mono {S T : Address → Prop} (h : AgreesOff S m m') (imp : ∀ b, S b → T b) :
    AgreesOff T m m' :=
  fun b hb => h b fun hs => hb (imp b hs)

/-- A byte write delivers the byte to a device, stores it in an unprotected cell, or fails. -/
theorem writeByte_cases (a : Address) (v : UInt8) (m : Memory) :
    (∃ delivered, writeByte a v m = .ok () { m with delivered := delivered }) ∨
    ((m.cell a).readOnly = false ∧ writeByte a v m = .ok () (m.store a v)) ∨
    writeByte a v m = .error (.invalidReference a) m := by
  unfold writeByte
  split
  · exact .inr (.inr rfl)
  · split
    · split
      · exact .inl ⟨_, rfl⟩
      · exact .inl ⟨m.delivered, rfl⟩
    · split
      · exact .inr (.inr rfl)
      · rename_i h
        exact .inr (.inl ⟨by simpa using h, rfl⟩)

instance keeps_writeByte (a : Address) (v : UInt8) : Keeps Guarded (writeByte a v) := by
  constructor
  intro m
  rcases writeByte_cases a v m with ⟨d, h⟩ | ⟨open_, h⟩ | h
  · rw [h]
    exact ⟨rfl, rfl, fun _ => rfl, fun _ => rfl, fun _ _ => rfl⟩
  · rw [h]
    exact guarded_store open_
  · rw [h]
    exact Std.Refl.refl m

instance keeps_writeWord (a : Address) (w : Word) : Keeps Guarded (writeWord a w) := by
  unfold writeWord
  infer_instance

instance keeps_writeBytes (a : Address) (bs : Bytes) : Keeps Guarded (writeBytes a bs) := by
  induction bs generalizing a with
  | nil => exact Keeps.pure ()
  | cons b bs ih =>
    have := ih (a + 1)
    unfold writeBytes
    infer_instance

instance keeps_writeWords (a : Address) (ws : List Word) : Keeps Guarded (writeWords a ws) := by
  induction ws generalizing a with
  | nil => exact Keeps.pure ()
  | cons w ws ih =>
    have := ih (a + 2)
    unfold writeWords
    infer_instance

/-! ## Where writes land -/

theorem keeps_writeByte_off {S : Address → Prop} (h : S a) :
    Keeps (AgreesOff S) (writeByte a v) := by
  constructor
  intro m b hb
  rcases writeByte_cases a v m with ⟨d, hw⟩ | ⟨-, hw⟩ | hw
  · rw [hw]
    rfl
  · rw [hw]
    -- the cell that is written is one of those that may change
    have ne : a ≠ b := by
      rintro rfl
      exact hb h
    exact cell_store_of_ne ne
  · rw [hw]
    rfl

theorem keeps_writeWord_off {S : Address → Prop} (h : S a) (h' : S (a + 1)) :
    Keeps (AgreesOff S) (writeWord a w) := by
  have first (v : UInt8) : Keeps (AgreesOff S) (writeByte a v) := keeps_writeByte_off h
  have second (v : UInt8) : Keeps (AgreesOff S) (writeByte (a + 1) v) := keeps_writeByte_off h'
  unfold writeWord
  infer_instance

theorem toNat_next (below : a.toNat + 1 < 2 ^ 16) : (a + 1).toNat = a.toNat + 1 := by
  rw [UInt16.toNat_add, UInt16.toNat_one]
  omega

theorem toNat_sub_two (above : 2 ≤ a.toNat) : (a - 2).toNat + 2 = a.toNat := by
  have two : (2 : Address) ≤ a := UInt16.le_iff_toNat_le.2 above
  rw [UInt16.toNat_sub_of_le _ _ two]
  exact Nat.sub_add_cancel above

theorem add_one_add (a : Address) (i : Nat) :
    a + 1 + UInt16.ofNat i = a + UInt16.ofNat (i + 1) := by
  apply UInt16.toNat_inj.1
  simp only [UInt16.toNat_add, UInt16.toNat_ofNat', UInt16.toNat_one]
  omega

theorem keeps_writeBytes_off {S : Address → Prop} {bs : Bytes}
    (h : ∀ i < bs.length, S (a + UInt16.ofNat i)) : Keeps (AgreesOff S) (writeBytes a bs) := by
  induction bs generalizing a with
  | nil => exact Keeps.pure ()
  | cons b bs ih =>
    have head : S a := by simpa using h 0 (by simp)
    have first : Keeps (AgreesOff S) (writeByte a b) := keeps_writeByte_off head
    have rest : Keeps (AgreesOff S) (writeBytes (a + 1) bs) := by
      apply ih
      intro i hi
      rw [add_one_add]
      exact h (i + 1) (by simpa using hi)
    unfold writeBytes
    infer_instance

/-! ## Writes that succeed -/

/-- A cell that a write reaches. -/
structure Free (m : Memory) (a : Address) : Prop where
  valid : a ≠ 0
  unmapped : (m.cell a).mapped = false
  unlocked : (m.cell a).readOnly = false

/-- Cells that can be written still can. -/
theorem Guarded.free (h : Guarded m m') (free : m.Free a) : m'.Free a where
  valid := free.valid
  unmapped := (h.mapped a).trans free.unmapped
  unlocked := (h.readOnly a).trans free.unlocked

theorem device?_of_unmapped (h : (m.cell a).mapped = false) : m.device? a = none := by
  simp [device?, h]

theorem writeByte_free (h : m.Free a) : writeByte a v m = .ok () (m.store a v) := by
  simp [writeByte, h.valid, h.unlocked, device?_of_unmapped h.unmapped]

/-- A byte write to an unmapped cell that succeeded found a free cell. -/
theorem free_of_writeByte (hm : (m.cell a).mapped = false) {m' : Memory}
    (h : writeByte a v m = .ok () m') : m.Free a ∧ m' = m.store a v := by
  unfold writeByte at h
  rw [device?_of_unmapped hm] at h
  by_cases hz : a = 0
  · simp [hz] at h
  · by_cases hr : (m.cell a).readOnly = true
    · simp [hz, hr] at h
    · simp only [hz, if_false, hr] at h
      cases h
      exact ⟨⟨hz, hm, by simpa using hr⟩, rfl⟩

theorem free_store (h : m.Free b) : (m.store a v).Free b where
  valid := h.valid
  unmapped := by rw [mapped_store, h.unmapped]
  unlocked := by rw [readOnly_store, h.unlocked]

/-- Memory holds a byte string from an address on. -/
def Holds (m : Memory) (a : Address) (bytes : Bytes) : Prop :=
  ∀ i (h : i < bytes.length), m.peekByte (a + UInt16.ofNat i) = bytes[i]

theorem ne_add_ofNat {i : Nat} (h : 0 < i) (fits : i < 2 ^ 16) : a ≠ a + UInt16.ofNat i := by
  intro eq
  have := congrArg UInt16.toNat eq
  simp only [UInt16.toNat_add, UInt16.toNat_ofNat'] at this
  have ha := a.toNat_lt
  omega

/-- Bytes written to free cells are found there. -/
theorem writeBytes_free {bs : Bytes} (h : ∀ i < bs.length, m.Free (a + UInt16.ofNat i))
    (fits : bs.length ≤ 2 ^ 16) :
    ∃ m', writeBytes a bs m = .ok () m' ∧ m'.Holds a bs := by
  induction bs generalizing a m with
  | nil =>
    refine ⟨m, rfl, ?_⟩
    intro i hi
    simp at hi
  | cons b bs ih =>
    have head : m.Free a := by simpa using h 0 (by simp)
    have rest : ∀ i < bs.length, (m.store a b).Free (a + 1 + UInt16.ofNat i) := by
      intro i hi
      rw [add_one_add]
      exact free_store (h (i + 1) (by simpa using hi))
    have short : bs.length ≤ 2 ^ 16 := by
      simp only [List.length_cons] at fits
      omega
    obtain ⟨m', hw, holds⟩ := ih rest short
    refine ⟨m', ?_, ?_⟩
    · rw [writeBytes, bind_of_ok (writeByte_free head), hw]
    · intro i hi
      rcases i with _ | i
      · -- the rest of the string is written to other cells
        have off : Keeps (AgreesOff (· ≠ a)) (writeBytes (a + 1) bs) := by
          apply keeps_writeBytes_off
          intro j hj
          rw [add_one_add]
          simp only [List.length_cons] at fits
          exact (ne_add_ofNat (by omega) (by omega)).symm
        have same := (off.of_ok hw).peekByte (b := a) (by simp)
        simpa using same
      · have := holds i (by simpa using hi)
        rw [add_one_add] at this
        simpa using this

/-- Bytes written between two addresses, where every cell is free, are found there, and no other
cell changes. -/
theorem writeBytes_between {base stop : Address} {bytes : Bytes} {size : Nat}
    (free : ∀ b, base ≤ b → b < stop → m.Free b) (carved : base.toNat + size = stop.toNat)
    (fits : bytes.length ≤ size) :
    ∃ m', writeBytes base bytes m = .ok () m' ∧ m'.Holds base bytes ∧
      AgreesOff (fun b => base ≤ b ∧ b < stop) m m' := by
  have hstop := stop.toNat_lt
  have inside : ∀ i < bytes.length, base ≤ base + UInt16.ofNat i ∧ base + UInt16.ofNat i < stop := by
    intro i hi
    have sum : (base + UInt16.ofNat i).toNat = base.toNat + i := by
      rw [UInt16.toNat_add, UInt16.toNat_ofNat']
      omega
    constructor
    · rw [UInt16.le_iff_toNat_le, sum]
      omega
    · rw [UInt16.lt_iff_toNat_lt, sum]
      omega
  obtain ⟨m', written, holds⟩ := writeBytes_free
    (fun i hi => free _ (inside i hi).1 (inside i hi).2) (by omega)
  have off := keeps_writeBytes_off (S := fun b => base ≤ b ∧ b < stop) inside
  exact ⟨m', written, holds, off.of_ok written⟩

/-- A byte string that reaches past the last address cannot be written, for address 0 comes next. -/
theorem writeBytes_past_end {bs : Bytes} (h : 2 ^ 16 < a.toNat + bs.length) (m : Memory) :
    ∃ e m', writeBytes a bs m = .error e m' := by
  have ha := a.toNat_lt
  induction bs generalizing a m with
  | nil =>
    rw [List.length_nil] at h
    omega
  | cons b bs ih =>
    rw [List.length_cons] at h
    cases first : writeByte a b m with
    | error e m' => exact ⟨e, m', by rw [writeBytes, bind_of_error first]⟩
    | ok u m' =>
      rw [writeBytes, bind_of_ok first]
      -- After the last address comes zero, where the next byte is refused.
      by_cases last : a.toNat = 2 ^ 16 - 1
      · have zero : a + 1 = 0 := by
          rw [← UInt16.toNat_inj, UInt16.toNat_add, last]
          rfl
        rcases bs with - | ⟨c, bs⟩
        · rw [List.length_nil] at h
          omega
        · refine ⟨.invalidReference 0, m', ?_⟩
          rw [zero, writeBytes]
          rfl
      · have next : (a + 1).toNat = a.toNat + 1 := by
          rw [UInt16.toNat_add, UInt16.toNat_one]
          omega
        exact ih (by omega) m' (by omega)

/-- A word write to unmapped cells that succeeded found free cells. -/
theorem free_of_writeWord (hm : (m.cell a).mapped = false) (hm' : (m.cell (a + 1)).mapped = false)
    (h : writeWord a w m = .ok () m') :
    m.Free a ∧ m.Free (a + 1) ∧
      m' = (m.store a (m.order.split w).1).store (a + 1) (m.order.split w).2 := by
  unfold writeWord at h
  rw [get_bind_apply] at h
  obtain ⟨u, m₁, first, second⟩ := bind_eq_ok.1 h
  obtain ⟨free, rfl⟩ := free_of_writeByte hm first
  obtain ⟨free', rfl⟩ := free_of_writeByte (by rw [mapped_store, hm']) second
  exact ⟨free, ⟨free'.valid, hm', by simpa using free'.unlocked⟩, rfl⟩

theorem writeWord_free (h : m.Free a) (h' : m.Free (a + 1)) :
    writeWord a w m =
      .ok () ((m.store a (m.order.split w).1).store (a + 1) (m.order.split w).2) := by
  unfold writeWord
  rw [get_bind_apply]
  exact (bind_of_ok (writeByte_free h)).trans (writeByte_free (free_store h'))

theorem ne_add_one (a : Address) : a ≠ a + 1 :=
  ne_add_ofNat (i := 1) (by decide) (by decide)

/-- The word is found where it was written. -/
theorem peekWord_of_writeWord (hm : (m.cell a).mapped = false)
    (hm' : (m.cell (a + 1)).mapped = false) (h : writeWord a w m = .ok () m') :
    m'.peekWord a = w := by
  obtain ⟨-, -, rfl⟩ := free_of_writeWord hm hm' h
  have first : ((m.store a (m.order.split w).1).store (a + 1) (m.order.split w).2).peekByte a =
      (m.order.split w).1 := by
    rw [peekByte, cell_store_of_ne (ne_add_one a).symm]
    exact peekByte_store_self
  rw [peekWord, first, peekByte_store_self]
  exact ByteOrder.join_split m.order w

/-! ## Reads -/

theorem readByte_unmapped (ha : a ≠ 0) (hm : (m.cell a).mapped = false) :
    m.readByte a = .ok (m.peekByte a) := by
  simp [readByte, ha, device?_of_unmapped hm, peekByte]

theorem readWord_unmapped (ha : a ≠ 0) (ha' : a + 1 ≠ 0) (hm : (m.cell a).mapped = false)
    (hm' : (m.cell (a + 1)).mapped = false) : m.readWord a = .ok (m.peekWord a) := by
  rw [readWord, readByte_unmapped ha hm, readByte_unmapped ha' hm']
  rfl

theorem peekWord_congr (order : m'.order = m.order) (first : m'.peekByte a = m.peekByte a)
    (second : m'.peekByte (a + 1) = m.peekByte (a + 1)) : m'.peekWord a = m.peekWord a := by
  rw [peekWord, order, first, second]
  rfl

theorem AgreesOff.peekWord {S : Address → Prop} (h : AgreesOff S m m') (guarded : Guarded m m')
    (first : ¬ S a) (second : ¬ S (a + 1)) : m'.peekWord a = m.peekWord a :=
  peekWord_congr guarded.order (h.peekByte first) (h.peekByte second)

/-- A list of reads that all succeed. -/
theorem mapM_eq_ok {ε α β : Type} {f : α → Except ε β} {g : α → β} {xs : List α}
    (h : ∀ x ∈ xs, f x = .ok (g x)) : xs.mapM f = .ok (xs.map g) := by
  induction xs with
  | nil => rfl
  | cons x xs ih =>
    rw [List.mapM_cons, h x (by simp), ih fun y hy => h y (by simp [hy])]
    rfl

/-- Reading back a byte string that memory holds. -/
theorem readBytes_of_holds {bytes : Bytes} (h : m.Holds a bytes)
    (valid : ∀ i < bytes.length, a + UInt16.ofNat i ≠ 0)
    (unmapped : ∀ i < bytes.length, (m.cell (a + UInt16.ofNat i)).mapped = false) :
    m.readBytes a bytes.length = .ok bytes := by
  have each : ∀ i ∈ List.range bytes.length,
      m.readByte (a + UInt16.ofNat i) = .ok (m.peekByte (a + UInt16.ofNat i)) := by
    intro i hi
    have hi := List.mem_range.1 hi
    exact readByte_unmapped (valid i hi) (unmapped i hi)
  rw [readBytes, mapM_eq_ok each]
  congr 1
  apply List.ext_getElem
  · simp
  · intro i h₁ h₂
    simpa using h i h₂

/-! ## Sequences of words -/

theorem add_two_add (a : Address) (i : Nat) :
    a + 2 + UInt16.ofNat i = a + UInt16.ofNat (i + 2) := by
  rw [UInt16.ofNat_add, UInt16.add_comm (UInt16.ofNat i), ← UInt16.add_assoc]
  rfl

theorem keeps_writeWords_off {S : Address → Prop} {ws : List Word}
    (h : ∀ i < 2 * ws.length, S (a + UInt16.ofNat i)) : Keeps (AgreesOff S) (writeWords a ws) := by
  induction ws generalizing a with
  | nil => exact Keeps.pure ()
  | cons w ws ih =>
    have low : S a := by simpa using h 0 (by simp)
    have high : S (a + 1) := h 1 (by simp only [List.length_cons]; omega)
    have first : Keeps (AgreesOff S) (writeWord a w) := keeps_writeWord_off low high
    have rest : Keeps (AgreesOff S) (writeWords (a + 2) ws) := by
      apply ih
      intro i hi
      rw [add_two_add]
      exact h (i + 2) (by simp only [List.length_cons]; omega)
    unfold writeWords
    infer_instance

/-- Words can be written side by side to free cells. -/
theorem writeWords_free {ws : List Word} (h : ∀ i < 2 * ws.length, m.Free (a + UInt16.ofNat i)) :
    ∃ m', writeWords a ws m = .ok () m' := by
  induction ws generalizing a m with
  | nil => exact ⟨m, rfl⟩
  | cons w ws ih =>
    rw [List.length_cons] at h
    have low : m.Free a := by simpa using h 0 (by omega)
    have high : m.Free (a + 1) := h 1 (by omega)
    have rest (i : Nat) (hi : i < 2 * ws.length) :
        ((m.store a (m.order.split w).1).store (a + 1) (m.order.split w).2).Free
          (a + 2 + UInt16.ofNat i) := by
      rw [add_two_add]
      exact free_store (free_store (h (i + 2) (by omega)))
    obtain ⟨m', written⟩ := ih rest
    exact ⟨m', by rw [writeWords, bind_of_ok (writeWord_free low high), written]⟩

/-- Words written side by side to unmapped cells are found there. -/
theorem peekWord_of_writeWords {ws : List Word} (h : writeWords a ws m = .ok () m')
    (unmapped : ∀ i < 2 * ws.length, (m.cell (a + UInt16.ofNat i)).mapped = false)
    (fits : 2 * ws.length ≤ 2 ^ 16) (i : Nat) (hi : i < ws.length) :
    m'.peekWord (a + UInt16.ofNat (2 * i)) = ws[i] := by
  induction ws generalizing a m i with
  | nil => simp at hi
  | cons w ws ih =>
    rw [writeWords] at h
    obtain ⟨u, m₁, first, rest⟩ := bind_eq_ok.1 h
    simp only [List.length_cons] at unmapped fits
    have guarded : Guarded m m₁ := Keeps.of_ok first
    have later : ∀ i < 2 * ws.length, (m₁.cell (a + 2 + UInt16.ofNat i)).mapped = false := by
      intro i hi
      rw [guarded.mapped, add_two_add]
      exact unmapped (i + 2) (by omega)
    rcases i with _ | i
    · have low : (m.cell a).mapped = false := by simpa using unmapped 0 (by omega)
      have high : (m.cell (a + 1)).mapped = false := unmapped 1 (by omega)
      have here := peekWord_of_writeWord low high first
      -- the words after the first are written to other cells
      have off : Keeps (AgreesOff fun b => b ≠ a ∧ b ≠ a + 1) (writeWords (a + 2) ws) := by
        apply keeps_writeWords_off
        intro j hj
        rw [add_two_add]
        refine ⟨(ne_add_ofNat (by omega) (by omega)).symm, ?_⟩
        rw [← add_one_add]
        exact (ne_add_ofNat (by omega) (by omega)).symm
      have same := off.of_ok rest
      rw [Nat.mul_zero, show UInt16.ofNat 0 = 0 from rfl, UInt16.add_zero,
        List.getElem_cons_zero, ← here]
      exact peekWord_congr (Keeps.of_ok (R := Guarded) rest).order
        (same.peekByte (by simp)) (same.peekByte (by simp))
    · have := ih rest later (by omega) i (by simpa using hi)
      rw [add_two_add] at this
      exact this

end Memory
end PSystem
