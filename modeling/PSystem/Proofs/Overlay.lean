import PSystem.Proofs.Disk
import PSystem.Proofs.Quiet
import PSystem.Proofs.Table

/-!
# Loading and releasing segments

First the outcomes of `loadSegment` and `unloadSegment`, as equations about the machine after them.
Then `CodeLayout`, which any program leaves intact: pieces of code are apart from each other, none
lies below the program stack pointer, and a cell is protected exactly where code lies.

A segment is loaded right below the program stack pointer.  Nothing is protected there, so the load
can write, and no other piece is there, so the new one is apart from all others.
-/

namespace PSystem
namespace Machine

variable {m m' : Machine} {n : UInt8} {e : Fault} {s : Segment}

/-! ## Outcomes -/

/-- The machine with other memory. -/
def withMemory (m : Machine) (memory : Memory) : Machine :=
  { m with store := { m.store with memory := memory } }

/-- The machine with another overlay table. -/
def withTable (m : Machine) (table : SegmentTable) : Machine :=
  { m with segments := table }

theorem onMemory_of_ok {α : Type} {x : Run Memory α} {a : α} {memory : Memory}
    (h : x m.memory = .ok a memory) : onMemory x m = .ok a (m.withMemory memory) := by
  unfold onMemory onStore Store.onMemory
  change x m.store.memory = _ at h
  simp only [h]
  rfl

theorem onMemory_of_error {α : Type} {x : Run Memory α} {memory : Memory}
    (h : x m.memory = .error e memory) : onMemory x m = .error e (m.withMemory memory) := by
  unfold onMemory onStore Store.onMemory
  change x m.store.memory = _ at h
  simp only [h]
  rfl

theorem onMemory_eq_ok {α : Type} {x : Run Memory α} {a : α} :
    onMemory x m = .ok a m' ↔ ∃ memory, x m.memory = .ok a memory ∧ m' = m.withMemory memory := by
  cases hx : x m.memory with
  | ok b memory =>
    rw [onMemory_of_ok hx]
    constructor
    · intro h
      cases h
      exact ⟨memory, rfl, rfl⟩
    · rintro ⟨_, h, rfl⟩
      cases h
      rfl
  | error e memory =>
    rw [onMemory_of_error hx]
    simp

/-- A step of a sequence that is a value or a fault. -/
theorem orFault_bind_cases {α β : Type} {x : Except Fault α} {f : α → Run Machine β}
    {r : EStateM.Result Fault Machine β} (h : (orFault x >>= f) m = r) :
    (∃ e, x = .error e ∧ r = .error e m) ∨ ∃ a, x = .ok a ∧ f a m = r := by
  cases x with
  | ok a => exact .inr ⟨a, rfl, h⟩
  | error e => exact .inl ⟨e, rfl, h.symm⟩

theorem reading_of_ok {α : Type} {f : Memory → Except Fault α} {a : α}
    (h : f m.memory = .ok a) : reading f m = .ok a m := by
  unfold reading
  rw [get_bind_apply, h]
  rfl

theorem reading_of_error {α : Type} {f : Memory → Except Fault α} {e : Fault}
    (h : f m.memory = .error e) : reading f m = .error e m := by
  unfold reading
  rw [get_bind_apply, h]
  rfl

/-- A step of a sequence that reads memory. -/
theorem reading_bind_cases {α β : Type} {read : Memory → Except Fault α} {f : α → Run Machine β}
    {r : EStateM.Result Fault Machine β} (h : (reading read >>= f) m = r) :
    (∃ e, read m.memory = .error e ∧ r = .error e m) ∨
      ∃ a, read m.memory = .ok a ∧ f a m = r := by
  have same : (reading read >>= f) m = (orFault (read m.memory) >>= f) m := rfl
  exact orFault_bind_cases (same.symm.trans h)

end Machine

namespace Segment

/-- One more use of a segment. -/
def countUp (s : Segment) : Segment :=
  { s with useCount := s.useCount + 1 }

/-- One use of a segment less. -/
def countDown (s : Segment) : Segment :=
  { s with useCount := s.useCount - 1 }

/-- A segment used once, with its code at an address. -/
def putAt (base : Address) (s : Segment) : Segment :=
  { s with useCount := 1, codeBase := base }

end Segment

namespace Machine

variable {m m' : Machine} {n : UInt8} {e : Fault} {s : Segment}

/-- The machine after a segment was brought in, given the memory with its bytes. -/
def afterLoad (m : Machine) (s : Segment) (base : Address) (memory : Memory) : Machine :=
  { m.withMemory (memory.protect base (base + s.footprint) true) with
    segments := m.segments.modify s.number (Segment.putAt base)
    psp := base }

/-- The machine after the bytes of a segment could not all be written: the use is counted. -/
def afterFailedLoad (m : Machine) (s : Segment) (memory : Memory) : Machine :=
  { m.withMemory memory with
    segments := m.segments.modify s.number fun s => { s with useCount := 1 } }

/-- The memory after one use of a segment was given up. -/
def memoryAfterRelease (m : Memory) (s : Segment) : Memory :=
  if s.useCount = 1 then m.protect s.codeBase (s.codeBase + s.footprint) false else m

theorem peekByte_memoryAfterRelease (memory : Memory) (s : Segment) (x : Address) :
    (memoryAfterRelease memory s).peekByte x = memory.peekByte x := by
  unfold memoryAfterRelease
  split
  · exact Memory.peekByte_protect
  · rfl

theorem order_memoryAfterRelease (memory : Memory) (s : Segment) :
    (memoryAfterRelease memory s).order = memory.order := by
  unfold memoryAfterRelease
  split <;> rfl

/-- The machine after one use of a segment was given up. -/
def afterRelease (m : Machine) (n : UInt8) (s : Segment) : Machine :=
  (m.withMemory (memoryAfterRelease m.memory s)).withTable
    (m.segments.modify n Segment.countDown)

/-- How bringing in a segment ends once there is room for it and its bytes are found. -/
theorem bringIn_found {base : Address} {bytes : Bytes} (room : m.carve s.footprint = .ok base)
    (found : m.fetchCode s.unit s.block s.size = .ok bytes) :
    match Memory.writeBytes base bytes m.memory with
    | .ok _ memory => bringIn s m = .ok () (m.afterLoad s base memory)
    | .error e memory => bringIn s m = .error e (m.afterFailedLoad s memory) := by
  have counted : bringIn s m = (onMemory (Memory.writeBytes base bytes) >>= fun _ => do
      protect base (base + s.footprint) true
      modifySegment s.number fun s => { s with codeBase := base }
      modify fun m => { m with psp := base })
      (m.withTable (m.segments.modify s.number fun s => { s with useCount := 1 })) := by
    unfold bringIn
    rw [get_bind_apply, room, found]
    rfl
  rw [counted]
  cases hw : Memory.writeBytes base bytes m.memory with
  | error e memory =>
    have failed : onMemory (Memory.writeBytes base bytes)
        (m.withTable (m.segments.modify s.number fun s => { s with useCount := 1 })) = _ :=
      onMemory_of_error hw
    exact bind_of_error failed
  | ok u memory =>
    -- the entry is changed twice, before and after the write
    have written : onMemory (Memory.writeBytes base bytes)
        (m.withTable (m.segments.modify s.number fun s => { s with useCount := 1 })) = _ :=
      onMemory_of_ok hw
    have twice := SegmentTable.modify_modify m.segments s.number
      (fun s => { s with useCount := 1 }) (fun s => { s with codeBase := base })
    dsimp only
    rw [bind_of_ok written, afterLoad, show Segment.putAt base =
      (fun s => { s with codeBase := base }) ∘ fun s => { s with useCount := 1 } from rfl, ← twice]
    rfl

/-- How bringing in a segment ends: nothing was done, or its bytes were found and written. -/
theorem bringIn_cases {r : EStateM.Result Fault Machine Unit} (h : bringIn s m = r) :
    (∃ e, r = .error e m) ∨
    ∃ base bytes, m.carve s.footprint = .ok base ∧
      m.fetchCode s.unit s.block s.size = .ok bytes ∧
      match Memory.writeBytes base bytes m.memory with
      | .ok _ memory => r = .ok () (m.afterLoad s base memory)
      | .error e memory => r = .error e (m.afterFailedLoad s memory) := by
  subst h
  cases room : m.carve s.footprint with
  | error e =>
    refine .inl ⟨e, ?_⟩
    unfold bringIn
    rw [get_bind_apply, room]
    rfl
  | ok base =>
    cases found : m.fetchCode s.unit s.block s.size with
    | error e =>
      refine .inl ⟨e, ?_⟩
      unfold bringIn
      rw [get_bind_apply, room, found]
      rfl
    | ok bytes => exact .inr ⟨base, bytes, rfl, rfl, bringIn_found room found⟩

/-- The first use of a segment brings it in. -/
theorem loadSegment_absent (entry : m.segments.get? n = some s) (absent : s.isResident = false) :
    loadSegment n m = bringIn s m := by
  unfold loadSegment
  rw [get_bind_apply, SegmentTable.require_eq_ok.2 entry]
  change (if s.isResident = true then _ else bringIn s) m = bringIn s m
  rw [if_neg (by simp [absent])]

/-- How a load ends: nothing was done, or a use was counted, or the segment was brought in. -/
theorem loadSegment_cases {r : EStateM.Result Fault Machine Unit} (h : loadSegment n m = r) :
    (∃ e, r = .error e m) ∨
    ∃ s, m.segments.get? n = some s ∧
      ((s.isResident = true ∧
          r = .ok () (m.withTable (m.segments.modify n Segment.countUp))) ∨
        (s.isResident = false ∧ bringIn s m = r)) := by
  unfold loadSegment at h
  rw [get_bind_apply] at h
  rcases orFault_bind_cases h with ⟨e, -, hr⟩ | ⟨s, hs, h⟩
  · exact .inl ⟨e, hr⟩
  refine .inr ⟨s, SegmentTable.require_eq_ok.1 hs, ?_⟩
  split at h
  · rename_i resident
    exact .inl ⟨resident, h.symm⟩
  · rename_i absent
    exact .inr ⟨by simpa using absent, h⟩

/-- How a release ends: the segment was not resident, or one use of it is given up. -/
theorem unloadSegment_cases {r : EStateM.Result Fault Machine Unit} (h : unloadSegment n m = r) :
    ((∃ e, r = .error e m) ∧ ∀ s, m.segments.get? n = some s → s.isResident = false) ∨
    ∃ s, m.segments.get? n = some s ∧ s.isResident = true ∧ r = .ok () (m.afterRelease n s) := by
  unfold unloadSegment at h
  rw [get_bind_apply] at h
  rcases orFault_bind_cases h with ⟨e, absent, hr⟩ | ⟨s, hs, h⟩
  · refine .inl ⟨⟨e, hr⟩, ?_⟩
    intro s hs
    rw [SegmentTable.require_eq_ok.2 hs] at absent
    cases absent
  have found := SegmentTable.require_eq_ok.1 hs
  -- only the check of residence can fail on an entry that exists
  cases resident : s.isResident with
  | false =>
    refine .inl ⟨⟨.system (.releaseOfAbsent n), ?_⟩, ?_⟩
    · simp only [resident] at h
      exact h.symm
    · intro s' hs'
      rw [found] at hs'
      cases hs'
      exact resident
  | true =>
    refine .inr ⟨s, found, resident, ?_⟩
    simp only [resident] at h
    rw [← h, afterRelease, memoryAfterRelease]
    by_cases last : s.useCount = 1
    · simp only [last, if_true]
      rfl
    · simp only [last, if_false]
      rfl

end Machine

/-! ## The layout of code -/

namespace SegmentTable

variable {t : SegmentTable} {k : UInt8} {f : Segment → Segment}

/-- Entries stand under their numbers, no length is so large that rounding it up loses it, and only
segment 0 has a second piece. -/
structure WellFormed (t : SegmentTable) : Prop where
  numbered : ∀ n s, t.get? n = some s → s.number = n
  sized : ∀ n s, t.get? n = some s →
    s.size.toNat ≤ 65534 ∧ ∀ x, s.extension = some x → x.size.toNat ≤ 65534
  single : ∀ n s, n ≠ 0 → t.get? n = some s → s.extension = none

theorem get?_modify_cases {n : UInt8} {s : Segment} (h : (t.modify k f).get? n = some s) :
    (n ≠ k ∧ t.get? n = some s) ∨ ∃ s₀, n = k ∧ t.get? n = some s₀ ∧ s = f s₀ := by
  rw [get?_modify] at h
  split at h
  · rename_i here
    obtain ⟨s₀, hs, rfl⟩ := Option.map_eq_some_iff.1 h
    exact .inr ⟨s₀, here.symm, hs, rfl⟩
  · rename_i other
    exact .inl ⟨Ne.symm other, h⟩

theorem WellFormed.modify (h : t.WellFormed)
    (same : ∀ s, t.get? k = some s → (f s).number = s.number ∧ (f s).size = s.size ∧
      (f s).extension.map Extension.size = s.extension.map Extension.size) :
    (t.modify k f).WellFormed where
  numbered := by
    intro n s hs
    rcases get?_modify_cases hs with ⟨-, hs⟩ | ⟨s₀, rfl, old, rfl⟩
    · exact h.numbered n s hs
    · exact (same s₀ old).1.trans (h.numbered n s₀ old)
  sized := by
    intro n s hs
    rcases get?_modify_cases hs with ⟨-, hs⟩ | ⟨s₀, rfl, old, rfl⟩
    · exact h.sized n s hs
    · -- The extension of the new entry has the size of the old one's, so its bound carries over.
      obtain ⟨own, ext⟩ := h.sized n s₀ old
      obtain ⟨-, size, exts⟩ := same s₀ old
      refine ⟨size ▸ own, ?_⟩
      intro x hx
      rw [hx, Option.map_some] at exts
      obtain ⟨x₀, hx₀, eq⟩ := Option.map_eq_some_iff.1 exts.symm
      exact eq ▸ ext x₀ hx₀
  single := by
    intro n s other hs
    rcases get?_modify_cases hs with ⟨-, hs⟩ | ⟨s₀, rfl, old, rfl⟩
    · exact h.single n s other hs
    · have exts := (same s₀ old).2.2
      rw [h.single n s₀ other old] at exts
      simpa using exts

theorem WellFormed.size_le_footprint (h : t.WellFormed) {part : Part} {p : Placement}
    (placed : t.placement? part = some p) : p.size.toNat ≤ p.footprint := by
  have small : p.size.toNat ≤ 65534 := by
    cases part with
    | segment n =>
      obtain ⟨s, hs, -, rfl⟩ := placement?_segment.1 placed
      exact (h.sized n s hs).1
    | extension =>
      obtain ⟨s, hs, -, he⟩ := placement?_extension.1 placed
      obtain ⟨x, hx, hb⟩ := Option.bind_eq_some_iff.1 he
      obtain ⟨base, -, rfl⟩ := Option.map_eq_some_iff.1 hb
      exact (h.sized 0 s hs).2 x hx
  have even := toNat_evenSize small
  change _ ≤ (evenSize p.size).toNat
  omega

end SegmentTable

open Machine (programTop)

/-- Where code lies, and that exactly its cells are protected. -/
structure CodeLayout (table : SegmentTable) (memory : Memory) (psp : Address) (heap : Heap) :
    Prop where
  entries : table.WellFormed
  heap : Heap.start ≤ heap.np
  unmapped : ∀ a, Heap.start ≤ a → (memory.cell a).mapped = false
  top : psp ≤ programTop
  above : ∀ part p, table.placement? part = some p → psp ≤ p.base
  below : ∀ part p, table.placement? part = some p → p.base.toNat + p.footprint ≤ 0xF000
  apart : ∀ part part' p p', part ≠ part' → table.placement? part = some p →
    table.placement? part' = some p' → ∀ a, p.Covers a → ¬ p'.Covers a
  marked : ∀ a, (memory.cell a).readOnly = true ↔
    ∃ part p, table.placement? part = some p ∧ p.Covers a

namespace CodeLayout

variable {table table' : SegmentTable} {memory memory' : Memory} {psp psp' : Address}
  {heap heap' : Heap} {n : UInt8} {s : Segment}

/-- Writes leave the layout alone. -/
theorem guarded (h : CodeLayout table memory psp heap) (g : Memory.Guarded memory memory')
    (low : Heap.start ≤ heap'.np) : CodeLayout table memory' psp heap' where
  entries := h.entries
  heap := low
  unmapped := fun a ha => (g.mapped a).trans (h.unmapped a ha)
  top := h.top
  above := h.above
  below := h.below
  apart := h.apart
  marked := by
    intro a
    rw [g.readOnly a]
    exact h.marked a

/-- The program stack pointer may be anywhere up to the lowest code. -/
theorem moved (h : CodeLayout table memory psp heap)
    (floor : psp' ≤ table.residentFloor programTop) (top : psp' ≤ programTop) :
    CodeLayout table memory psp' heap where
  entries := h.entries
  heap := h.heap
  unmapped := h.unmapped
  top := top
  above := fun _ _ hp => UInt16.le_trans floor (SegmentTable.residentFloor_le_base hp)
  below := h.below
  apart := h.apart
  marked := h.marked

theorem floor_le_top (h : CodeLayout table memory psp heap) :
    table.residentFloor programTop ≤ programTop := by
  rcases SegmentTable.residentFloor_eq_base (t := table) programTop h.entries.single with
    eq | ⟨part, p, hp, eq⟩
  · rw [eq]
    exact UInt16.le_refl _
  · have := h.below part p hp
    rw [← eq, UInt16.le_iff_toNat_le]
    change _ ≤ 0xF000
    omega

theorem psp_le_floor (h : CodeLayout table memory psp heap) :
    psp ≤ table.residentFloor programTop := by
  rcases SegmentTable.residentFloor_eq_base (t := table) programTop h.entries.single with
    eq | ⟨part, p, hp, eq⟩
  · rw [eq]
    exact h.top
  · rw [← eq]
    exact h.above part p hp

/-- Frames are carved below the program stack pointer. -/
theorem lowered (h : CodeLayout table memory psp heap) (le : psp' ≤ psp) :
    CodeLayout table memory psp' heap :=
  h.moved (UInt16.le_trans le h.psp_le_floor) (UInt16.le_trans le h.top)

/-- Changes of the table that move no code. -/
theorem retabled (h : CodeLayout table memory psp heap) (entries : table'.WellFormed)
    (same : ∀ part, table'.placement? part = table.placement? part) :
    CodeLayout table' memory psp heap where
  entries := entries
  heap := h.heap
  unmapped := h.unmapped
  top := h.top
  above := fun part p hp => h.above part p (same part ▸ hp)
  below := fun part p hp => h.below part p (same part ▸ hp)
  apart := fun part part' p p' ne hp hp' => h.apart part part' p p' ne (same part ▸ hp)
    (same part' ▸ hp')
  marked := by
    intro a
    rw [h.marked a]
    simp only [same]

/-- Nothing protected lies below the program stack pointer. -/
theorem unlocked (h : CodeLayout table memory psp heap) {a : Address} (low : a < psp) :
    (memory.cell a).readOnly = false := by
  by_contra locked
  obtain ⟨part, p, hp, covers⟩ := (h.marked a).1 (by simpa using locked)
  have above := h.above part p hp
  rw [UInt16.le_iff_toNat_le] at above
  rw [UInt16.lt_iff_toNat_lt] at low
  have := covers.1
  omega

/-- Cells between the start of the heap and the program stack pointer can be written. -/
theorem free (h : CodeLayout table memory psp heap) {a : Address} (start : Heap.start ≤ a)
    (low : a < psp) : memory.Free a where
  valid := by
    rintro rfl
    exact absurd start (by decide)
  unmapped := h.unmapped a start
  unlocked := h.unlocked low

/-- The bytes of a piece of code lie in its cells. -/
theorem covers (h : CodeLayout table memory psp heap) {part : Part} {p : Placement}
    (placed : table.placement? part = some p) {i : Nat} (hi : i < p.size.toNat) :
    p.Covers (p.base + UInt16.ofNat i) := by
  have below := h.below part p placed
  have sized := h.entries.size_le_footprint placed
  have sum : (p.base + UInt16.ofNat i).toNat = p.base.toNat + i := by
    rw [UInt16.toNat_add, UInt16.toNat_ofNat']
    omega
  constructor
  · omega
  · omega

/-! ### Code comes and goes -/

/-- Where code lies after a load. -/
theorem placement?_putAt (base : Address) (hs : table.get? n = some s)
    (kernel : n = 0 → s.extensionPlacement? = none) (absent : s.isResident = false) (part : Part) :
    (table.modify n (Segment.putAt base)).placement? part =
      if part = .segment n then some (Segment.putAt base s).placement
      else table.placement? part := by
  split
  · rename_i here
    subst here
    exact SegmentTable.placement?_segment.2 ⟨_, SegmentTable.get?_modify_self hs, rfl, rfl⟩
  · rename_i other
    by_cases ext : part = .extension ∧ n = 0
    · -- a second piece that is not loaded does not appear with the first
      obtain ⟨rfl, rfl⟩ := ext
      have before : table.placement? .extension = none := by
        simp [SegmentTable.placement?, hs, absent]
      have after : (Segment.putAt base s).extensionPlacement? = none := kernel rfl
      rw [before]
      simp [SegmentTable.placement?, SegmentTable.get?_modify_self hs, after]
    · exact SegmentTable.placement?_modify_of_ne other fun hx hn => ext ⟨hx, hn⟩

/-- Where code lies after the last release. -/
theorem placement?_countDown (hs : table.get? n = some s) (last : s.useCount = 1) (other : n ≠ 0)
    (part : Part) :
    (table.modify n Segment.countDown).placement? part =
      if part = .segment n then none else table.placement? part := by
  split
  · rename_i here
    subst here
    have absent : (Segment.countDown s).isResident = false := by
      simp [Segment.isResident, Segment.countDown, last]
    simp [SegmentTable.placement?, SegmentTable.get?_modify_self hs, absent]
  · rename_i ne
    exact SegmentTable.placement?_modify_of_ne ne fun _ => other

theorem size_le_footprint (h : table.WellFormed) (hs : table.get? n = some s) :
    s.size.toNat ≤ s.footprint.toNat := by
  have even := toNat_evenSize (h.sized n s hs).1
  change _ ≤ (evenSize s.size).toNat
  omega

/-- A piece of code that is placed right below the program stack pointer is apart from all code. -/
theorem placed (h : CodeLayout table memory psp heap) (entries : table'.WellFormed) {part : Part}
    {p : Placement} (new : table.placement? part = none)
    (place : ∀ q, table'.placement? q = if q = part then some p else table.placement? q)
    (carved : p.base.toNat + p.footprint = psp.toNat)
    (mapped : ∀ a, (memory'.cell a).mapped = (memory.cell a).mapped)
    (marks : ∀ a, (memory'.cell a).readOnly = true ↔
      (memory.cell a).readOnly = true ∨ p.Covers a) :
    CodeLayout table' memory' p.base heap := by
  have top : psp.toNat ≤ 0xF000 := UInt16.le_iff_toNat_le.1 h.top
  -- older code lies at or above the program stack pointer, and the new piece below it
  have outside {q : Part} {p' : Placement} (hq : table.placement? q = some p') {a : Address}
      (covers : p'.Covers a) : ¬ p.Covers a := by
    have above := UInt16.le_iff_toNat_le.1 (h.above q p' hq)
    intro inside
    have low := covers.1
    have high := inside.2
    omega
  refine
    { entries := entries
      heap := h.heap
      unmapped := fun a ha => (mapped a).trans (h.unmapped a ha)
      top := ?top, above := ?above, below := ?below, apart := ?apart, marked := ?marked }
  case top =>
    rw [UInt16.le_iff_toNat_le]
    change _ ≤ 0xF000
    omega
  case above =>
    intro q p' hq
    rw [place] at hq
    split at hq
    · cases hq
      exact UInt16.le_refl p.base
    · have above := UInt16.le_iff_toNat_le.1 (h.above q p' hq)
      rw [UInt16.le_iff_toNat_le]
      omega
  case below =>
    intro q p' hq
    rw [place] at hq
    split at hq
    · cases hq
      omega
    · exact h.below q p' hq
  case apart =>
    intro q q' p₁ p₂ ne hq hq' a covers covers'
    rw [place] at hq hq'
    -- at most one of two different pieces is the new one
    split at hq
    · cases hq
      split at hq'
      · rename_i eq eq'
        exact ne (eq.trans eq'.symm)
      · exact outside hq' covers' covers
    · split at hq'
      · cases hq'
        exact outside hq covers covers'
      · exact h.apart q q' p₁ p₂ ne hq hq' a covers covers'
  case marked =>
    intro a
    rw [marks, h.marked]
    simp only [place]
    constructor
    · rintro (⟨q, p', hq, covers⟩ | inside)
      · refine ⟨q, p', ?_, covers⟩
        rw [if_neg, hq]
        rintro rfl
        rw [new] at hq
        cases hq
      · exact ⟨part, p, if_pos rfl, inside⟩
    · rintro ⟨q, p', hq, covers⟩
      split at hq
      · cases hq
        exact .inr covers
      · exact .inl ⟨q, p', hq, covers⟩

/-- Protecting the cells of a piece of code that ends at an address. -/
theorem readOnly_protect {p : Placement} {stop : Address}
    (carved : p.base.toNat + p.footprint = stop.toNat) (a : Address) :
    ((memory.protect p.base stop true).cell a).readOnly = true ↔
      (memory.cell a).readOnly = true ∨ p.Covers a := by
  rw [Memory.cell_protect]
  have inside : (p.base ≤ a ∧ a < stop) ↔ p.Covers a := by
    rw [UInt16.le_iff_toNat_le, UInt16.lt_iff_toNat_lt, ← carved]
    rfl
  by_cases covers : p.Covers a
  · simp [inside.2 covers, covers]
  · simp [mt inside.1 covers, covers]

theorem loaded (h : CodeLayout table memory psp heap) {base : Address}
    (hs : table.get? n = some s) (absent : s.isResident = false)
    (kernel : n = 0 → s.extensionPlacement? = none)
    (carved : base.toNat + s.footprint.toNat = psp.toNat)
    (g : Memory.Guarded memory memory') :
    CodeLayout (table.modify n (Segment.putAt base))
      (memory'.protect base (base + s.footprint) true) base heap := by
  have new : table.placement? (.segment n) = none := by
    simp [SegmentTable.placement?, hs, absent]
  have hpsp := psp.toNat_lt
  have stop : (Segment.putAt base s).placement.base.toNat +
      (Segment.putAt base s).placement.footprint = (base + s.footprint).toNat := by
    rw [UInt16.toNat_add]
    change base.toNat + s.footprint.toNat = _
    omega
  have entries : (table.modify n (Segment.putAt base)).WellFormed :=
    h.entries.modify fun _ _ => ⟨rfl, rfl, rfl⟩
  refine h.placed (p := (Segment.putAt base s).placement) entries new
    (placement?_putAt base hs kernel absent) carved ?_ ?_
  · intro a
    rw [Memory.cell_protect]
    exact g.mapped a
  · intro a
    rw [← g.readOnly a]
    exact readOnly_protect stop a

/-- The cells of a segment that is released for the last time are the ones that lose protection. -/
theorem released (h : CodeLayout table memory psp heap) (hs : table.get? n = some s)
    (last : s.useCount = 1) (other : n ≠ 0) :
    CodeLayout (table.modify n Segment.countDown)
      (memory.protect s.codeBase (s.codeBase + s.footprint) false) psp heap := by
  have place := placement?_countDown hs last other
  -- the pieces that remain were there before, and are not the one that goes
  have still {part : Part} {p : Placement}
      (hp : (table.modify n Segment.countDown).placement? part = some p) :
      part ≠ .segment n ∧ table.placement? part = some p := by
    rw [place] at hp
    split at hp
    · cases hp
    · rename_i ne
      exact ⟨ne, hp⟩
  have before : table.placement? (.segment n) = some s.placement :=
    SegmentTable.placement?_segment.2 ⟨s, hs, by simp [Segment.isResident, last], rfl⟩
  have end_ : s.codeBase.toNat + s.footprint.toNat ≤ 0xF000 := h.below _ _ before
  have stop : (s.codeBase + s.footprint).toNat = s.codeBase.toNat + s.footprint.toNat := by
    rw [UInt16.toNat_add]
    omega
  have here (a : Address) : s.placement.Covers a ↔
      s.codeBase ≤ a ∧ a < s.codeBase + s.footprint := by
    rw [UInt16.le_iff_toNat_le, UInt16.lt_iff_toNat_lt, stop]
    rfl
  refine
    { entries := h.entries.modify fun _ _ => ⟨rfl, rfl, rfl⟩
      heap := h.heap
      unmapped := ?unmapped
      top := h.top
      above := fun part p hp => h.above part p (still hp).2
      below := fun part p hp => h.below part p (still hp).2
      apart := fun part part' p p' ne hp hp' =>
        h.apart part part' p p' ne (still hp).2 (still hp').2
      marked := ?marked }
  case unmapped =>
    intro a ha
    rw [Memory.cell_protect]
    exact h.unmapped a ha
  case marked =>
    intro a
    rw [Memory.cell_protect]
    dsimp only
    split
    · rename_i inside
      simp only [Bool.false_eq_true, false_iff]
      rintro ⟨part, p, hp, covers⟩
      obtain ⟨ne, hp⟩ := still hp
      -- a cell that loses protection belongs to the segment that goes, so to no other
      exact h.apart part _ p _ ne hp before a covers ((here a).2 inside)
    · rename_i away
      rw [h.marked a]
      constructor
      · rintro ⟨part, p, hp, covers⟩
        refine ⟨part, p, ?_, covers⟩
        rw [place, if_neg, hp]
        rintro rfl
        rw [before] at hp
        cases hp
        exact away ((here a).1 covers)
      · rintro ⟨part, p, hp, covers⟩
        exact ⟨part, p, (still hp).2, covers⟩

end CodeLayout

namespace CodeLayout

variable {table : SegmentTable} {memory : Memory} {psp : Address} {heap : Heap}

/-- What lies between heap and program stack pointer can be written. -/
theorem write (h : CodeLayout table memory psp heap) {base : Address} {bytes : Bytes} {size : Nat}
    (carved : base.toNat + size = psp.toNat) (room : heap.np ≤ base) (fits : bytes.length ≤ size) :
    ∃ memory', Memory.writeBytes base bytes memory = .ok () memory' ∧
      memory'.Holds base bytes := by
  obtain ⟨memory', written, holds, -⟩ := Memory.writeBytes_between
    (fun b low high => h.free (UInt16.le_trans (UInt16.le_trans h.heap room) low) high) carved fits
  exact ⟨memory', written, holds⟩

end CodeLayout

/-! ### Loads that succeed -/

namespace Machine

variable {m : Machine} {n : UInt8}

theorem carve_ok {footprint : Word} {base : Address} (h : m.carve footprint = .ok base) :
    base.toNat + footprint.toNat = m.psp.toNat ∧ m.heap.np ≤ base := by
  unfold carve at h
  split at h
  · rename_i fits
    cases h
    have fits' := UInt16.le_iff_toNat_le.1 fits.1
    refine ⟨?_, fits.2⟩
    rw [UInt16.toNat_sub_of_le _ _ fits.1]
    omega
  · cases h

theorem length_of_fetchCode {unit block size : Word} {bytes : Bytes}
    (h : m.fetchCode unit block size = .ok bytes) : bytes.length = size.toNat := by
  unfold fetchCode at h
  cases hr : m.storage.readBlocks unit block size.toNat with
  | ok found =>
    rw [hr] at h
    cases h
    exact Storage.length_of_readBlocks hr
  | error e =>
    rw [hr] at h
    cases h

/-- A segment that was brought in: where it lies, what was read and what memory holds. -/
structure BroughtIn (m : Machine) (s : Segment) (base : Address) (bytes : Bytes)
    (memory : Memory) : Prop where
  carved : base.toNat + s.footprint.toNat = m.psp.toNat
  room : m.heap.np ≤ base
  fetched : m.fetchCode s.unit s.block s.size = .ok bytes
  written : Memory.writeBytes base bytes m.memory = .ok () memory
  holds : memory.Holds base bytes

/-- A load that fails does nothing, for what lies below the program stack pointer can be written. -/
theorem loadSegment_outcome (layout : CodeLayout m.segments m.memory m.psp m.heap)
    {r : EStateM.Result Fault Machine Unit} (h : loadSegment n m = r) :
    (∃ e, r = .error e m) ∨
    ∃ s, m.segments.get? n = some s ∧
      ((s.isResident = true ∧ r = .ok () (m.withTable (m.segments.modify n Segment.countUp))) ∨
        (s.isResident = false ∧ ∃ base bytes memory, m.BroughtIn s base bytes memory ∧
          r = .ok () (m.afterLoad s base memory))) := by
  rcases loadSegment_cases h with ⟨e, hr⟩ | ⟨s, hs, ⟨resident, hr⟩ | ⟨absent, h⟩⟩
  · exact .inl ⟨e, hr⟩
  · exact .inr ⟨s, hs, .inl ⟨resident, hr⟩⟩
  rcases bringIn_cases h with ⟨e, hr⟩ | ⟨base, bytes, hc, hf, hr⟩
  · exact .inl ⟨e, hr⟩
  obtain ⟨carved, room⟩ := carve_ok hc
  have fits : bytes.length ≤ s.footprint.toNat := by
    rw [length_of_fetchCode hf]
    exact CodeLayout.size_le_footprint layout.entries hs
  obtain ⟨memory, written, holds⟩ := layout.write carved room fits
  rw [written] at hr
  exact .inr ⟨s, hs, .inr ⟨absent, base, bytes, memory, ⟨carved, room, hf, written, holds⟩, hr⟩⟩

end Machine
end PSystem
