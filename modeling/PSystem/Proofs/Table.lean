import PSystem.Proofs.Memory
import PSystem.Segment

/-!
# Where code lies

The laws of the overlay table, and the two views of it that the machine relies on: the lowest
address with resident code (`SegmentTable.residentFloor`), and the place of each piece of code.
Segment 0 may come in two pieces, so pieces are named by `Part` and not by segment number.
-/

namespace PSystem

/-! ## Listing a store -/

namespace Cells

variable {α : Type}

theorem get_congr {n : Nat} (cells : Cells α n) {i j : Nat} (h : SameCell n i j) :
    cells.get i = cells.get j := by
  induction cells with
  | leaf value => rfl
  | @node n low high ihLow ihHigh =>
    obtain ⟨top, rest⟩ := sameCell_succ.1 h
    simp only [get, top, ihLow rest, ihHigh rest]

theorem toList_foldl_push {n : Nat} (cells : Cells α n) (before : Array α) :
    (cells.foldl Array.push before).toList =
      before.toList ++ (List.range (2 ^ n)).map cells.get := by
  induction cells generalizing before with
  | leaf value => simp [foldl, get]
  | @node n low high ihLow ihHigh =>
    -- the addresses with a low top bit come first, then those with a high one
    have lower : (List.range (2 ^ n)).map (node low high).get =
        (List.range (2 ^ n)).map low.get := by
      apply List.map_congr_left
      intro i hi
      have bit := Nat.testBit_lt_two_pow (List.mem_range.1 hi)
      simp [get, bit]
    have upper : (List.range (2 ^ n)).map ((node low high).get ∘ (2 ^ n + ·)) =
        (List.range (2 ^ n)).map high.get := by
      apply List.map_congr_left
      intro i hi
      have bit : (2 ^ n + i).testBit n = true := by
        rw [Nat.testBit_two_pow_add_eq, Nat.testBit_lt_two_pow (List.mem_range.1 hi)]
        rfl
      have same : SameCell n (2 ^ n + i) i := by
        intro k hk
        rw [Nat.testBit_two_pow_add_gt hk]
      simp only [Function.comp, get, bit, if_true]
      exact get_congr high same
    have double : 2 ^ (n + 1) = 2 ^ n + 2 ^ n := by
      rw [Nat.pow_succ]
      omega
    rw [foldl, ihHigh, ihLow, double, List.range_add, List.map_append, List.map_map, lower, upper,
      List.append_assoc]

/-- The listing has the value of each address in its place. -/
theorem toList_toArray {n : Nat} (cells : Cells α n) :
    cells.toArray.toList = (List.range (2 ^ n)).map cells.get := by
  simpa [toArray] using toList_foldl_push cells #[]

theorem modify_modify {n : Nat} (cells : Cells α n) (i : Nat) (f g : α → α) :
    (cells.modify i f).modify i g = cells.modify i (g ∘ f) := by
  induction cells with
  | leaf value => rfl
  | @node n low high ihLow ihHigh =>
    cases hb : i.testBit n with
    | true => simp [modify, hb, ihHigh]
    | false => simp [modify, hb, ihLow]

end Cells

namespace SegmentTable

variable {t t' : SegmentTable} {n k : UInt8} {s : Segment}

/-! ## Entries -/

theorem modify_modify (t : SegmentTable) (k : UInt8) (f g : Segment → Segment) :
    (t.modify k f).modify k g = t.modify k (g ∘ f) := by
  unfold modify
  rw [Cells.modify_modify, Option.map_comp_map]

theorem get?_modify (t : SegmentTable) (n : UInt8) (f : Segment → Segment) (k : UInt8) :
    (t.modify n f).get? k = if n = k then (t.get? k).map f else t.get? k := by
  have h := Cells.get_modify t.entries (UInt8.toNat_lt n) (UInt8.toNat_lt k) (Option.map f)
  simp only [UInt8.toNat_inj] at h
  exact h

theorem get?_modify_self {f : Segment → Segment} (h : t.get? n = some s) :
    (t.modify n f).get? n = some (f s) := by
  simp [get?_modify, h]

theorem get?_modify_of_ne {f : Segment → Segment} (h : n ≠ k) :
    (t.modify n f).get? k = t.get? k := by
  simp [get?_modify, h]

theorem get?_insert (t : SegmentTable) (s : Segment) (k : UInt8) :
    (t.insert s).get? k = if s.number = k then some s else t.get? k := by
  have h := Cells.get_set t.entries (UInt8.toNat_lt s.number) (UInt8.toNat_lt k) (some s)
  simp only [UInt8.toNat_inj] at h
  exact h

theorem get?_insert_cases {s' : Segment} (h : (t.insert s).get? n = some s') :
    (s.number = n ∧ s' = s) ∨ t.get? n = some s' := by
  rw [get?_insert] at h
  split at h
  · rename_i here
    cases h
    exact .inl ⟨here, rfl⟩
  · exact .inr h

@[simp]
theorem get?_empty (k : UInt8) : empty.get? k = none := by
  simp [empty, get?]

theorem require_eq_ok : t.require n = .ok s ↔ t.get? n = some s := by
  unfold require
  cases t.get? n with
  | none => simp
  | some s' => simp

theorem mem_toList : s ∈ t.toList ↔ ∃ n, t.get? n = some s := by
  rw [toList, Cells.toList_toArray, List.mem_filterMap]
  constructor
  · rintro ⟨entry, mem, rfl⟩
    obtain ⟨i, hi, eq⟩ := List.mem_map.1 mem
    refine ⟨UInt8.ofNat i, ?_⟩
    have small : i < UInt8.size := List.mem_range.1 hi
    rw [get?, UInt8.toNat_ofNat_of_lt' small, eq]
  · rintro ⟨n, h⟩
    refine ⟨some s, ?_, rfl⟩
    exact List.mem_map.2 ⟨n.toNat, List.mem_range.2 n.toNat_lt, h⟩

/-! ## The lowest code -/

theorem min_eq_ite (a b : Address) : min a b = if a ≤ b then a else b := rfl

theorem min_le_left (a b : Address) : min a b ≤ a := by
  rw [min_eq_ite]
  split
  · exact UInt16.le_refl a
  · rename_i h
    exact UInt16.le_of_lt (UInt16.not_le.1 h)

theorem min_le_right (a b : Address) : min a b ≤ b := by
  rw [min_eq_ite]
  split
  · assumption
  · exact UInt16.le_refl b

theorem foldl_min_le (a : Address) (rest : List Address) :
    rest.foldl min a ≤ a ∧ ∀ x ∈ rest, rest.foldl min a ≤ x := by
  induction rest generalizing a with
  | nil => simp
  | cons y rest ih =>
    obtain ⟨first, others⟩ := ih (min a y)
    refine ⟨UInt16.le_trans first (min_le_left a y), ?_⟩
    intro x hx
    rcases List.mem_cons.1 hx with rfl | hx
    · exact UInt16.le_trans first (min_le_right a x)
    · exact others x hx

theorem foldl_min_mem (a : Address) (rest : List Address) : rest.foldl min a ∈ a :: rest := by
  induction rest generalizing a with
  | nil => simp
  | cons y rest ih =>
    have := ih (min a y)
    rcases List.mem_cons.1 this with eq | mem
    · rw [List.foldl_cons, eq, min_eq_ite]
      split <;> simp
    · exact List.mem_cons_of_mem _ (List.mem_cons_of_mem _ mem)

theorem residentFloor_le {top a : Address} (h : a ∈ t.toList.flatMap codeAddresses) :
    t.residentFloor top ≤ a := by
  unfold residentFloor
  cases hl : t.toList.flatMap codeAddresses with
  | nil =>
    rw [hl] at h
    cases h
  | cons b rest =>
    rw [hl] at h
    rcases List.mem_cons.1 h with rfl | h
    · exact (foldl_min_le a rest).1
    · exact (foldl_min_le b rest).2 a h

theorem residentFloor_mem (top : Address) :
    t.residentFloor top = top ∨ t.residentFloor top ∈ t.toList.flatMap codeAddresses := by
  unfold residentFloor
  cases t.toList.flatMap codeAddresses with
  | nil => exact .inl rfl
  | cons b rest => exact .inr (foldl_min_mem b rest)

/-- The floor depends only on where resident code lies. -/
theorem residentFloor_congr {top : Address}
    (h : ∀ n, (t'.get? n).toList.flatMap codeAddresses = (t.get? n).toList.flatMap codeAddresses) :
    t'.residentFloor top = t.residentFloor top := by
  -- numbers without an entry contribute nothing, so the table may be listed by number
  have spread (u : SegmentTable) : u.toList.flatMap codeAddresses =
      (List.range (2 ^ 8)).flatMap fun i => (u.entries.get i).toList.flatMap codeAddresses := by
    rw [toList, Cells.toList_toArray, List.filterMap_eq_flatMap_toList, List.flatMap_assoc,
      List.flatMap_map]
    rfl
  have same : t'.toList.flatMap codeAddresses = t.toList.flatMap codeAddresses := by
    rw [spread, spread]
    apply List.flatMap_congr
    intro i hi
    have at_ := h (UInt8.ofNat i)
    have small : i < UInt8.size := List.mem_range.1 hi
    simp only [get?, UInt8.toNat_ofNat_of_lt' small] at at_
    exact at_
  rw [residentFloor, same]
  rfl

end SegmentTable

/-! ## Pieces of code -/

/-- A piece of code: a whole segment, or the second piece of segment 0. -/
inductive Part where
  | segment (number : UInt8)
  | extension
  deriving DecidableEq, Repr

/-- Where a piece of code lies in memory and on disk. -/
structure Placement where
  base : Address
  unit : Word
  block : Word
  size : Word
  deriving DecidableEq, Repr

namespace Placement

/-- The bytes that the piece takes, rounded up to whole words. -/
def footprint (p : Placement) : Nat :=
  (evenSize p.size).toNat

/-- Whether an address lies in the piece. -/
def Covers (p : Placement) (a : Address) : Prop :=
  p.base.toNat ≤ a.toNat ∧ a.toNat < p.base.toNat + p.footprint

end Placement

theorem and_even (x : Nat) (h : x < 2 ^ 16) : x &&& 0xFFFE = 2 * (x / 2) := by
  apply Nat.eq_of_testBit_eq
  intro i
  -- the mask clears bit 0 and keeps the 15 bits above it
  have mask : (0xFFFE : Nat) = 2 * (2 ^ 15 - 1) := rfl
  rw [Nat.testBit_and, mask]
  cases i with
  | zero => simp
  | succ i =>
    rw [Nat.testBit_succ, Nat.testBit_succ, Nat.testBit_succ,
      Nat.mul_div_cancel_left _ (by decide : 0 < 2), Nat.mul_div_cancel_left _ (by decide : 0 < 2),
      Nat.testBit_two_pow_sub_one]
    rcases Nat.lt_or_ge i 15 with hi | hi
    · simp [hi]
    · have wide : 2 ^ 15 ≤ 2 ^ i := Nat.pow_le_pow_right (by decide) hi
      rw [Nat.testBit_lt_two_pow (by omega : x / 2 < 2 ^ i)]
      rfl

/-- No length but the largest loses its value when it is rounded up. -/
theorem toNat_evenSize {size : Word} (h : size.toNat ≤ 65534) :
    (evenSize size).toNat = 2 * ((size.toNat + 1) / 2) := by
  have sum : (size + 1).toNat = size.toNat + 1 := by
    rw [UInt16.toNat_add, UInt16.toNat_one]
    omega
  rw [evenSize, UInt16.toNat_and, sum]
  exact and_even (size.toNat + 1) (by omega)

namespace Segment

variable {s : Segment} {p count : UInt8} {slot first : Address}

/-- A procedure's dictionary word lies in the segment, two bytes below that of the procedure before it. -/
theorem dictionarySlot_eq_ok :
    s.dictionarySlot p = .ok slot ↔ slot.toNat + 2 * p.toNat = s.topWord.toNat ∧ s.codeBase ≤ slot := by
  have small := p.toNat_lt
  -- Twice a byte fits in a word, so the product in the code does not wrap.
  have back : (UInt16.ofNat (2 * p.toNat)).toNat = 2 * p.toNat := UInt16.toNat_ofNat_of_lt' (by
    change _ < 2 ^ 16
    omega)
  unfold dictionarySlot
  rw [UInt16.le_iff_toNat_le]
  dsimp only
  split
  · rename_i outside
    constructor
    · nofun
    · omega
  · rename_i inside
    have le : UInt16.ofNat (2 * p.toNat) ≤ s.topWord := UInt16.le_iff_toNat_le.2 (by omega)
    have place := UInt16.toNat_sub_of_le _ _ le
    constructor
    · intro h
      cases h
      omega
    · rintro ⟨sum, -⟩
      exact congrArg Except.ok (UInt16.toNat_inj.1 (by omega))

/-- The words of all procedures before another have room if that one's word has. -/
theorem exists_dictionarySlot (slot : s.dictionarySlot count = .ok first) (le : p ≤ count) :
    ∃ a, s.dictionarySlot p = .ok a ∧ a.toNat + 2 * p.toNat = s.topWord.toNat ∧ s.codeBase ≤ a := by
  obtain ⟨sum, low⟩ := dictionarySlot_eq_ok.1 slot
  have le := UInt8.le_iff_toNat_le.1 le
  have low := UInt16.le_iff_toNat_le.1 low
  have top := s.topWord.toNat_lt
  have place : (UInt16.ofNat (s.topWord.toNat - 2 * p.toNat)).toNat = s.topWord.toNat - 2 * p.toNat :=
    UInt16.toNat_ofNat_of_lt' (by change _ < 2 ^ 16; omega)
  have room : (UInt16.ofNat (s.topWord.toNat - 2 * p.toNat)).toNat + 2 * p.toNat = s.topWord.toNat ∧
      s.codeBase ≤ UInt16.ofNat (s.topWord.toNat - 2 * p.toNat) := by
    rw [UInt16.le_iff_toNat_le, place]
    omega
  exact ⟨_, dictionarySlot_eq_ok.2 room, room⟩

theorem toNat_topWord (above : 2 ≤ s.codeBase.toNat) (fits : s.codeBase.toNat + s.footprint.toNat < 2 ^ 16) :
    s.topWord.toNat + 2 = s.codeBase.toNat + s.footprint.toNat := by
  have whole : (s.codeBase + s.footprint).toNat = s.codeBase.toNat + s.footprint.toNat := by
    rw [UInt16.toNat_add]
    omega
  rw [← whole]
  exact Memory.toNat_sub_two (by omega)

/-- The place of the segment's own code. -/
def placement (s : Segment) : Placement where
  base := s.codeBase
  unit := s.unit
  block := s.block
  size := s.size

/-- The place of the second piece, once it is loaded. -/
def extensionPlacement? (s : Segment) : Option Placement :=
  s.extension.bind fun e => e.base.map fun base =>
    { base := base, unit := e.unit, block := e.block, size := e.size }

end Segment

namespace SegmentTable

variable {t t' : SegmentTable} {n k : UInt8} {s : Segment} {p : Placement}

/-- The place of a piece of resident code. -/
def placement? (t : SegmentTable) : Part → Option Placement
  | .segment n => (t.get? n).bind fun s => if s.isResident then some s.placement else none
  | .extension => (t.get? 0).bind fun s => if s.isResident then s.extensionPlacement? else none

theorem placement?_segment :
    t.placement? (.segment n) = some p ↔
      ∃ s, t.get? n = some s ∧ s.isResident = true ∧ s.placement = p := by
  simp only [placement?, Option.bind_eq_some_iff]
  constructor
  · rintro ⟨s, hs, h⟩
    split at h
    · rename_i resident
      exact ⟨s, hs, resident, Option.some.inj h⟩
    · cases h
  · rintro ⟨s, hs, resident, rfl⟩
    exact ⟨s, hs, by rw [if_pos resident]⟩

theorem placement?_extension :
    t.placement? .extension = some p ↔
      ∃ s, t.get? 0 = some s ∧ s.isResident = true ∧ s.extensionPlacement? = some p := by
  simp only [placement?, Option.bind_eq_some_iff]
  constructor
  · rintro ⟨s, hs, h⟩
    split at h
    · rename_i resident
      exact ⟨s, hs, resident, h⟩
    · cases h
  · rintro ⟨s, hs, resident, h⟩
    exact ⟨s, hs, by rw [if_pos resident, h]⟩

/-- A piece of code lies where the entry of its segment says. -/
theorem placement?_congr {part : Part}
    (h : ∀ n, part = .segment n ∨ part = .extension ∧ n = 0 → t'.get? n = t.get? n) :
    t'.placement? part = t.placement? part := by
  cases part with
  | segment n => simp only [placement?, h n (.inl rfl)]
  | extension => simp only [placement?, h 0 (.inr ⟨rfl, rfl⟩)]

/-- No code lies below the floor. -/
theorem residentFloor_le_base {part : Part} {top : Address} (h : t.placement? part = some p) :
    t.residentFloor top ≤ p.base := by
  apply residentFloor_le
  rw [List.mem_flatMap]
  cases part with
  | segment n =>
    obtain ⟨s, hs, resident, rfl⟩ := placement?_segment.1 h
    refine ⟨s, mem_toList.2 ⟨n, hs⟩, ?_⟩
    simp [codeAddresses, resident, Segment.placement]
  | extension =>
    obtain ⟨s, hs, resident, he⟩ := placement?_extension.1 h
    refine ⟨s, mem_toList.2 ⟨0, hs⟩, ?_⟩
    obtain ⟨e, hx, hb⟩ := Option.bind_eq_some_iff.1 he
    obtain ⟨base, hbase, rfl⟩ := Option.map_eq_some_iff.1 hb
    simp [codeAddresses, resident, hx, hbase]

/-- The floor is the top of memory for code, or some piece of code lies there. -/
theorem residentFloor_eq_base (top : Address)
    (single : ∀ n s, n ≠ 0 → t.get? n = some s → s.extension = none) :
    t.residentFloor top = top ∨
      ∃ part p, t.placement? part = some p ∧ p.base = t.residentFloor top := by
  rcases residentFloor_mem (t := t) top with h | h
  · exact .inl h
  · right
    obtain ⟨s, mem, code⟩ := List.mem_flatMap.1 h
    obtain ⟨n, hs⟩ := mem_toList.1 mem
    unfold codeAddresses at code
    split at code
    · rename_i resident
      rcases List.mem_cons.1 code with eq | code
      · exact ⟨.segment n, s.placement, placement?_segment.2 ⟨s, hs, resident, rfl⟩, eq.symm⟩
      · obtain ⟨e, hx, hb⟩ := Option.bind_eq_some_iff.1 (Option.mem_toList.1 code)
        -- only segment 0 has an extension
        have zero : n = 0 := by
          by_contra other
          rw [single n s other hs] at hx
          cases hx
        subst zero
        have placed : s.extensionPlacement? = some
            { base := t.residentFloor top, unit := e.unit, block := e.block, size := e.size } := by
          simp [Segment.extensionPlacement?, hx, hb]
        exact ⟨.extension, _, placement?_extension.2 ⟨s, hs, resident, placed⟩, rfl⟩
    · cases code

/-! ## Changed entries -/

/-- A change of an entry that leaves its code where it is. -/
theorem placement?_modify {f : Segment → Segment}
    (same : ∀ s, t.get? k = some s → (f s).isResident = s.isResident ∧
      (f s).placement = s.placement ∧ (f s).extensionPlacement? = s.extensionPlacement?)
    (part : Part) : (t.modify k f).placement? part = t.placement? part := by
  -- each entry is the old one, or the changed one of the segment in question
  have entry (n : UInt8) : ((t.modify k f).get? n = t.get? n) ∨
      ∃ s, t.get? n = some s ∧ (t.modify k f).get? n = some (f s) ∧ t.get? k = some s := by
    by_cases h : k = n
    · subst h
      cases hs : t.get? k with
      | none =>
        left
        simp [get?_modify, hs]
      | some s => exact .inr ⟨s, rfl, get?_modify_self hs, rfl⟩
    · exact .inl (get?_modify_of_ne h)
  cases part with
  | segment n =>
    rcases entry n with h | ⟨s, hs, hf, hk⟩
    · simp only [placement?, h]
    · obtain ⟨resident, placed, -⟩ := same s hk
      simp only [placement?, hs, hf, Option.bind_some, resident, placed]
  | extension =>
    rcases entry 0 with h | ⟨s, hs, hf, hk⟩
    · simp only [placement?, h]
    · obtain ⟨resident, -, placed⟩ := same s hk
      simp only [placement?, hs, hf, Option.bind_some, resident, placed]

/-- A change of an entry leaves the code of other segments where it is. -/
theorem placement?_modify_of_ne {f : Segment → Segment} {part : Part} (other : part ≠ .segment k)
    (kernel : part = .extension → k ≠ 0) :
    (t.modify k f).placement? part = t.placement? part := by
  apply placement?_congr
  rintro n (rfl | ⟨rfl, rfl⟩)
  · apply get?_modify_of_ne
    rintro rfl
    exact other rfl
  · exact get?_modify_of_ne (kernel rfl)

end SegmentTable
end PSystem
