import PSystem.Machine.Boot
import PSystem.Proofs.Boot
import PSystem.Proofs.Overlay

/-!
# Loads that fail

A load fails if there is no such segment, no room for it, no way to read it from its disk, or an
address in the way that cannot be written.  The first three are found out before anything has
changed.  The last cannot happen below the program stack pointer, where nothing is protected; but
the length 0xFFFF is rounded up to zero, so that nothing is carved for it and its bytes go upward
from the program stack pointer until they reach address 0.  That is the one load that fails and
leaves something behind (`Overlong`, `failed_load_unchanged_iff`): the segment counts as in use.
-/

namespace PSystem
namespace Machine

variable {m m' : Machine} {n : UInt8} {e : Fault} {s : Segment} {base : Address} {bytes : Bytes}

/-- What a load can count on: entries under their own numbers, the heap above the system area, and
no protected cell and no device between heap and program stack pointer. -/
structure Clear (m : Machine) : Prop where
  numbered : ∀ n s, m.segments.get? n = some s → s.number = n
  heap : Heap.start ≤ m.heap.np
  unlocked : ∀ a, m.heap.np ≤ a → a < m.psp → (m.memory.cell a).readOnly = false
  unmapped : ∀ a, m.heap.np ≤ a → a < m.psp → (m.memory.cell a).mapped = false

theorem Clear.free (h : m.Clear) {a : Address} (low : m.heap.np ≤ a) (high : a < m.psp) :
    m.memory.Free a where
  valid := ne_zero_of_start (UInt16.le_trans h.heap low)
  unmapped := h.unmapped a low high
  unlocked := h.unlocked a low high

/-! ## Lengths that round up to zero -/

/-- A load of 0xFFFF bytes that gets as far as writing them. -/
structure Overlong (m : Machine) (n : UInt8) (s : Segment) (bytes : Bytes) : Prop where
  entry : m.segments.get? n = some s
  absent : s.isResident = false
  size : s.size = 0xFFFF
  room : m.heap.np ≤ m.psp
  fetched : m.fetchCode s.unit s.block s.size = .ok bytes

theorem carve_zero (room : m.heap.np ≤ m.psp) : m.carve 0 = .ok m.psp := by
  rw [carve, UInt16.sub_zero, if_pos ⟨UInt16.zero_le, room⟩]

/-- Such a load fails once the use is counted and bytes are written. -/
theorem Overlong.fails (h : m.Overlong n s bytes) (clear : m.Clear) :
    ∃ e memory, loadSegment n m = .error e (m.afterFailedLoad s memory) := by
  have rounded : s.footprint = 0 := by
    rw [Segment.footprint, h.size]
    decide
  have length : bytes.length = 65535 := by
    rw [length_of_fetchCode h.fetched, h.size]
    rfl
  have low : 0x0100 ≤ m.psp.toNat :=
    UInt16.le_iff_toNat_le.1 (UInt16.le_trans clear.heap h.room)
  have beyond : 2 ^ 16 < m.psp.toNat + bytes.length := by omega
  obtain ⟨e, memory, failed⟩ := Memory.writeBytes_past_end beyond m.memory
  have found := bringIn_found (rounded ▸ carve_zero h.room) h.fetched
  rw [failed] at found
  exact ⟨e, memory, (loadSegment_absent h.entry h.absent).trans found⟩

/-- What it leaves behind is a use of the segment. -/
theorem Overlong.changed (h : m.Overlong n s bytes) (clear : m.Clear) (memory : Memory) :
    m.afterFailedLoad s memory ≠ m := by
  intro same
  have used := SegmentTable.get?_modify_self (f := fun s => { s with useCount := 1 }) h.entry
  have here : (m.afterFailedLoad s memory).segments.get? s.number = m.segments.get? s.number := by
    rw [same]
  rw [← clear.numbered n s h.entry] at used
  -- a segment that is not resident has no uses
  have counts := here.symm.trans used
  rw [clear.numbered n s h.entry, h.entry] at counts
  have absent := h.absent
  rw [Option.some.inj counts] at absent
  cases absent

/-! ## Loads that succeed -/

/-- What the first load of a segment does. -/
structure FirstLoad (m m' : Machine) (n : UInt8) (s : Segment) : Prop where
  /-- The program stack pointer is lowered by the length, rounded up to whole words. -/
  lowered : m'.psp.toNat + 2 * ((s.size.toNat + 1) / 2) = m.psp.toNat
  entry : m'.segments.get? n = some { s with useCount := 1, codeBase := m'.psp }
  others : ∀ k, k ≠ n → m'.segments.get? k = m.segments.get? k
  /-- The bytes of the segment lie at the program stack pointer. -/
  code : ∃ bytes, m.storage.readBlocks s.unit s.block s.size.toNat = .ok bytes ∧
    m'.memory.Holds m'.psp bytes
  locked : ∀ a, m'.psp ≤ a → a < m.psp → (m'.memory.cell a).readOnly = true
  outside : ∀ a, ¬ (m'.psp ≤ a ∧ a < m.psp) → m'.memory.cell a = m.memory.cell a

theorem readBlocks_of_fetchCode {unit block size : Word}
    (h : m.fetchCode unit block size = .ok bytes) :
    m.storage.readBlocks unit block size.toNat = .ok bytes := by
  unfold fetchCode at h
  cases hr : m.storage.readBlocks unit block size.toNat with
  | ok found =>
    rw [hr] at h
    cases h
    rfl
  | error e =>
    rw [hr] at h
    cases h

/-- A segment of any other length finds its cells free. -/
theorem Clear.brought (clear : m.Clear) (entry : m.segments.get? n = some s)
    (size : s.size.toNat ≤ 65534) (room : m.carve s.footprint = .ok base)
    (fetched : m.fetchCode s.unit s.block s.size = .ok bytes) :
    ∃ memory, Memory.writeBytes base bytes m.memory = .ok () memory ∧
      m.FirstLoad (m.afterLoad s base memory) n s := by
  obtain ⟨carved, above⟩ := carve_ok room
  have footprint : s.footprint.toNat = 2 * ((s.size.toNat + 1) / 2) := toNat_evenSize size
  have length := length_of_fetchCode fetched
  have fits : bytes.length ≤ s.footprint.toNat := by omega
  obtain ⟨memory, written, holds, off⟩ := Memory.writeBytes_between
    (fun b low high => clear.free (UInt16.le_trans above low) high) carved fits
  have table : (m.afterLoad s base memory).segments = m.segments.modify n (Segment.putAt base) :=
    congrArg (m.segments.modify · (Segment.putAt base)) (clear.numbered n s entry)
  -- Protecting what was carved out changes no byte of it, only the flag.
  have cells (a : Address) : (m.afterLoad s base memory).memory.cell a =
      { memory.cell a with
        readOnly := if base ≤ a ∧ a < m.psp then true else (memory.cell a).readOnly } := by
    rw [← add_of_carved carved]
    exact Memory.cell_protect memory base (base + s.footprint) true a
  refine ⟨memory, written, ?_⟩
  refine
    { lowered := by rw [← footprint]; exact carved
      entry := ?_
      others := ?_
      code := ⟨bytes, readBlocks_of_fetchCode fetched, ?_⟩
      locked := ?_
      outside := ?_ }
  · rw [table]
    exact SegmentTable.get?_modify_self entry
  · intro k other
    rw [table]
    exact SegmentTable.get?_modify_of_ne other.symm
  · intro i hi
    exact Memory.peekByte_protect.trans (holds i hi)
  · intro a low high
    rw [cells, if_pos ⟨low, high⟩]
  · intro a away
    have same := off a away
    rw [cells, if_neg (show ¬ (base ≤ a ∧ a < m.psp) from away), ← same]

/-! ## Every load -/

/-- How a load ends: nothing was done, or a use was counted, or the segment was brought in, or its
length was 0xFFFF and the use was counted although the load failed. -/
theorem Clear.load_cases (clear : m.Clear) {r : EStateM.Result Fault Machine Unit}
    (h : loadSegment n m = r) :
    ((∃ e, r = .error e m) ∧ ¬ ∃ s bytes, m.Overlong n s bytes) ∨
    (∃ s bytes e memory, m.Overlong n s bytes ∧ r = .error e (m.afterFailedLoad s memory)) ∨
    ∃ s m', m.segments.get? n = some s ∧ r = .ok () m' ∧
      (s.isResident = false → m.FirstLoad m' n s) := by
  by_cases overlong : ∃ s bytes, m.Overlong n s bytes
  · obtain ⟨s, bytes, overlong⟩ := overlong
    obtain ⟨e, memory, failed⟩ := overlong.fails clear
    exact .inr (.inl ⟨s, bytes, e, memory, overlong, h ▸ failed⟩)
  rcases loadSegment_cases h with unchanged | ⟨s, entry, ⟨resident, counted⟩ | ⟨absent, h⟩⟩
  · exact .inl ⟨unchanged, overlong⟩
  · exact .inr (.inr ⟨s, _, entry, counted, fun absent => by simp [resident] at absent⟩)
  rcases bringIn_cases h with unchanged | ⟨base, bytes, room, fetched, ending⟩
  · exact .inl ⟨unchanged, overlong⟩
  -- the length is not 0xFFFF, which would have got this far
  have size : s.size.toNat ≤ 65534 := by
    by_contra long
    have bound := s.size.toNat_lt
    have size : s.size = 0xFFFF := UInt16.toNat_inj.1 (by
      change _ = 65535
      omega)
    have above := (carve_ok room).2
    have below := UInt16.le_iff_toNat_le.2 (Nat.le.intro (carve_ok room).1)
    exact overlong ⟨s, bytes, entry, absent, size, UInt16.le_trans above below, fetched⟩
  obtain ⟨memory, written, loaded⟩ := clear.brought entry size room fetched
  rw [written] at ending
  exact .inr (.inr ⟨s, _, entry, ending, fun _ => loaded⟩)

/-- A load that fails leaves the whole machine as it was, except for a length of 0xFFFF that is read
from its disk.  A first load that succeeds carves the segment out right below the program stack
pointer, protects it, and changes no other cell. -/
theorem failed_load_unchanged_iff (clear : m.Clear) (n : UInt8) :
    (∀ e m', loadSegment n m = .error e m' →
      (m' = m ↔ ¬ ∃ s bytes, m.Overlong n s bytes)) ∧
    (∀ m' s, loadSegment n m = .ok () m' → m.segments.get? n = some s → s.isResident = false →
      m.FirstLoad m' n s) := by
  constructor
  · intro e m' failed
    rcases clear.load_cases failed with ⟨⟨_, unchanged⟩, short⟩ |
      ⟨s, bytes, _, memory, overlong, changed⟩ | ⟨s, _, -, done, -⟩
    · cases unchanged
      exact iff_of_true rfl short
    · cases changed
      exact iff_of_false (overlong.changed clear memory) fun short => short ⟨s, bytes, overlong⟩
    · cases done
  · intro m' s done entry absent
    rcases clear.load_cases done with ⟨⟨_, failed⟩, -⟩ | ⟨_, _, _, _, -, failed⟩ |
      ⟨s', m'', entry', done', loaded⟩
    · cases failed
    · cases failed
    · cases done'
      rw [entry] at entry'
      cases entry'
      exact loaded absent

/-- A machine with one segment, which starts the disk on unit 4. -/
def overlay (size : Word) (disk : Bytes) : Machine :=
  { create (Storage.empty.setDisk 4 (some (Disk.ofBytes disk false false))) {} {} {} none with
    segments := SegmentTable.empty.insert
      { number := 1, name := "OVERLAY", unit := 4, block := 0, size := size } }

/-- A new machine with one segment can load it. -/
theorem clear_create (storage : Storage) (s : Segment) :
    Clear { create storage {} {} {} none with segments := SegmentTable.empty.insert s } where
  numbered := by
    intro n s' entry
    rcases SegmentTable.get?_insert_cases entry with ⟨rfl, rfl⟩ | none
    · rfl
    · rw [SegmentTable.get?_empty] at none
      cases none
  heap := UInt16.le_refl _
  unlocked a _ _ :=
    (Memory.clean_reserve (Memory.clean_reserve Memory.clean_empty _ _) _ _).readOnly a
  unmapped a low _ :=
    (Memory.clean_reserve (Memory.clean_reserve Memory.clean_empty _ _) _ _).unmapped a low

theorem clear_overlay (size : Word) (disk : Bytes) : (overlay size disk).Clear :=
  clear_create _ _

theorem fetchCode_overlay {size : Word} {disk : Bytes} (fits : size.toNat ≤ disk.length) :
    (overlay size disk).fetchCode 4 0 size = .ok (disk.take size.toNat) := by
  have holds : (overlay size disk).storage.Holds 4 disk :=
    ⟨Disk.ofBytes disk false false, Storage.require_setDisk rfl _, rfl, rfl⟩
  have read : (overlay size disk).storage.readBlocks 4 0 size.toNat = .ok (disk.take size.toNat) :=
    Storage.readAt_of_holds holds (by simpa using fits)
  rw [fetchCode, read]

/-- A segment of three bytes takes four, and one that its disk does not have changes nothing. -/
theorem failed_load_unchanged_short :
    (∃ m', loadSegment 1 (overlay 3 [7, 8, 9]) = .ok () m' ∧ m'.psp = 0xEFFC ∧
      (overlay 3 [7, 8, 9]).FirstLoad m' 1
        { number := 1, name := "OVERLAY", unit := 4, block := 0, size := 3 }) ∧
    ∃ e, loadSegment 1 (overlay 3 [7]) = .error e (overlay 3 [7]) := by
  constructor
  · have done : succeeded (loadSegment 1 (overlay 3 [7, 8, 9])) = true := by decide +kernel
    have ran := eq_ok_of_succeeded done
    generalize endState (loadSegment 1 (overlay 3 [7, 8, 9])) = m' at ran
    have loaded := (failed_load_unchanged_iff (clear_overlay 3 [7, 8, 9]) 1).2 m' _ ran rfl rfl
    have top : (overlay 3 [7, 8, 9]).psp.toNat = 61440 := rfl
    have four : 2 * (((3 : Word).toNat + 1) / 2) = 4 := rfl
    have lowered := loaded.lowered
    rw [four, top] at lowered
    exact ⟨m', ran, UInt16.toNat_inj.1 (Nat.add_right_cancel lowered), loaded⟩
  · have undone : succeeded (loadSegment 1 (overlay 3 [7])) = false := by decide +kernel
    cases failed : loadSegment 1 (overlay 3 [7]) with
    | ok _ m' =>
      rw [failed] at undone
      cases undone
    | error e m' =>
      have unchanged := (failed_load_unchanged_iff (clear_overlay 3 [7]) 1).1 e m' failed
      refine ⟨e, congrArg _ (unchanged.2 ?_)⟩
      rintro ⟨s, bytes, overlong⟩
      have entry := overlong.entry
      cases entry
      exact absurd overlong.size (by decide)

/-- A load of 0xFFFF bytes fails, and the segment counts as in use. -/
theorem overlong_load_counts :
    (overlay 0xFFFF (List.replicate 0xFFFF 7)).Clear ∧
    ∃ e m', loadSegment 1 (overlay 0xFFFF (List.replicate 0xFFFF 7)) = .error e m' ∧
      ((overlay 0xFFFF (List.replicate 0xFFFF 7)).segments.get? 1).map (·.useCount) = some 0 ∧
      (m'.segments.get? 1).map (·.useCount) = some 1 := by
  have clear := clear_overlay 0xFFFF (List.replicate 0xFFFF 7)
  have overlong : (overlay 0xFFFF (List.replicate 0xFFFF 7)).Overlong 1
      { number := 1, name := "OVERLAY", unit := 4, block := 0, size := 0xFFFF }
      ((List.replicate 0xFFFF 7).take 0xFFFF) :=
    { entry := rfl
      absent := rfl
      size := rfl
      room := by decide
      fetched := fetchCode_overlay (by rw [List.length_replicate]; decide) }
  obtain ⟨e, memory, failed⟩ := overlong.fails clear
  exact ⟨clear, e, _, failed, rfl, rfl⟩

end Machine
end PSystem
