import PSystem.Proofs.Boot
import PSystem.Proofs.FailedLoads

/-!
# Loading the extension of segment 0 elsewhere

The extension was linked to lie right below segment 0.  Wherever it is loaded instead, each dictionary word
that points below segment 0 is corrected by the distance, so that its procedure keeps its place in the
extension (`Extended`).  Nothing else in segment 0 changes, and all of it is protected again in the end.  A
load that fails has changed nothing (`extension_relocated`).  All this takes a segment 0 that is as a load left
it: a device over a dictionary word drops its correction, and a cell that was opened since stays open
(`extension_misled`).
-/

namespace PSystem

namespace Machine

variable {m m' : Machine} {s : Segment} {x : Extension} {base resident slot first : Address}
  {delta : Word} {count p : UInt8} {bytes : Bytes} {n : Nat}

/-! ## Correcting dictionary words -/

/-- A dictionary word after the correction. -/
def corrected (resident : Address) (delta : Word) (slot : Address) (w : Word) : Word :=
  if slot - w < resident then w + delta else w

/-- One dictionary word is corrected. -/
theorem relocate_step (resident : Address) (delta : Word) (n : Nat) (free : m.memory.Free slot)
    (free' : m.memory.Free (slot + 1)) :
    ∃ memory, relocate resident delta (n + 1) slot m =
        relocate resident delta n (slot - 2) (m.withMemory memory) ∧
      Memory.Guarded m.memory memory ∧
      Memory.AgreesOff (fun a => a = slot ∨ a = slot + 1) m.memory memory ∧
      memory.peekWord slot = corrected resident delta slot (m.memory.peekWord slot) := by
  have word : m.memory.readWord slot = .ok (m.memory.peekWord slot) :=
    Memory.readWord_unmapped free.valid free'.valid free.unmapped free'.unmapped
  have read := reading_of_ok (f := (·.readWord slot)) word
  rw [relocate, bind_of_ok read, corrected]
  by_cases below : slot - m.memory.peekWord slot < resident
  · have written := Memory.writeWord_free (w := m.memory.peekWord slot + delta) free free'
    have guarded := Keeps.of_ok (R := Memory.Guarded) written
    have off := (Memory.keeps_writeWord_off (S := fun a => a = slot ∨ a = slot + 1) (.inl rfl)
      (.inr rfl)).of_ok written
    have changed := Memory.peekWord_of_writeWord free.unmapped free'.unmapped written
    refine ⟨_, ?_, guarded, off, ?_⟩
    · rw [if_pos below, bind_of_ok (onMemory_of_ok written)]
    · rw [if_pos below, changed]
  · refine ⟨m.memory, ?_, Std.Refl.refl _, fun _ _ => rfl, ?_⟩
    · rw [if_neg below]
      rfl
    · rw [if_neg below]

/-- The correction of `n` dictionary words in free cells changes these words and no other cell. -/
theorem relocate_spec (resident : Address) (delta : Word) {low : Nat} (start : 2 ≤ low)
    (stop : low + 2 * n < 2 ^ 16) (last : slot.toNat + 2 = low + 2 * n)
    (free : ∀ a : Address, low ≤ a.toNat → a.toNat < low + 2 * n → m.memory.Free a) :
    ∃ memory, relocate resident delta n slot m = .ok () (m.withMemory memory) ∧
      Memory.Guarded m.memory memory ∧
      Memory.AgreesOff (fun a => low ≤ a.toNat ∧ a.toNat < low + 2 * n) m.memory memory ∧
      ∀ i < n, ∀ a : Address, a.toNat = low + 2 * i →
        memory.peekWord a = corrected resident delta a (m.memory.peekWord a) := by
  -- downward from the word of the first procedure: those already corrected lie above those that are left
  induction n generalizing slot m with
  | zero => exact ⟨m.memory, rfl, Std.Refl.refl _, fun _ _ => rfl, fun i none => by omega⟩
  | succ n ih =>
    have next : (slot + 1).toNat = slot.toNat + 1 := Memory.toNat_next (by omega)
    have below : (slot - 2).toNat + 2 = slot.toNat := Memory.toNat_sub_two (by omega)
    obtain ⟨first, step, guarded, off, word⟩ := relocate_step resident delta n
      (free slot (by omega) (by omega)) (free (slot + 1) (by omega) (by omega))
    have free' (a : Address) (above : low ≤ a.toNat) (under : a.toNat < low + 2 * n) : first.Free a :=
      guarded.free (free a above (by omega))
    obtain ⟨memory, ran, guarded', off', words⟩ :=
      ih (m := m.withMemory first) (by omega) (by omega : (slot - 2).toNat + 2 = low + 2 * n) free'
    refine ⟨memory, step.trans ran, IsTrans.trans _ _ _ guarded guarded', ?_, fun i inside a place => ?_⟩
    · have one : Memory.AgreesOff (fun a => low ≤ a.toNat ∧ a.toNat < low + 2 * (n + 1)) m.memory first := by
        apply off.mono
        rintro a (rfl | rfl) <;> omega
      exact IsTrans.trans _ _ _ one (off'.mono fun a within => by omega)
    · -- the first word corrected is the last of the `n + 1`; the steps after it leave it as it is
      by_cases here : i = n
      · have same : a = slot := UInt16.toNat_inj.1 (by omega)
        rw [same]
        exact (off'.peekWord guarded' (by omega) (by omega)).trans word
      · have after : (a + 1).toNat = a.toNat + 1 := Memory.toNat_next (by omega)
        have apart : a ≠ slot ∧ a ≠ slot + 1 ∧ a + 1 ≠ slot ∧ a + 1 ≠ slot + 1 := by
          simp only [ne_eq, ← UInt16.toNat_inj]
          omega
        rw [words i (by omega) a place]
        exact congrArg _ (off.peekWord guarded (by tauto) (by tauto))

/-! ## Procedures in the dictionary -/

theorem jtab_of_slot {t : SegmentTable} {memory : Memory} {w : Word} {n : UInt8} (hs : t.get? n = some s)
    (used : s.isResident = true) (counted : t.procedureCount memory n = .ok count) (some_ : p ≠ 0)
    (le : p ≤ count) (here : s.dictionarySlot p = .ok slot) (read : memory.readWord slot = .ok w) :
    t.jtab memory n p = .ok (slot - w) := by
  have found : t.resident n = .ok s := by
    rw [SegmentTable.resident, SegmentTable.require_eq_ok.2 hs, except_ok_bind, if_pos used]
  rw [SegmentTable.jtab, counted, except_ok_bind, if_neg (by simp [some_, le]), found, except_ok_bind, here,
    except_ok_bind, read]
  rfl

/-- A correction by the distance from where the extension was linked moves what a word points to by it. -/
theorem sub_corrected (w linked : Word) : slot - corrected resident (linked - base) slot w =
    if resident ≤ slot - w then slot - w else slot - w + (base - linked) := by
  rw [corrected]
  by_cases below : slot - w < resident
  · rw [if_pos below, if_neg (UInt16.not_le.2 below)]
    grind
  · rw [if_neg below, if_pos (UInt16.not_lt.1 below)]

/-! ## Segment 0 in memory -/

/-- The memory of segment 0 as a load leaves it: protected, and memory of its own. -/
structure KernelLoaded (m : Machine) (s : Segment) : Prop where
  locked : ∀ a, s.codeBase ≤ a → a < s.codeBase + s.footprint → (m.memory.cell a).readOnly = true
  unmapped : ∀ a, s.codeBase ≤ a → a < s.codeBase + s.footprint → (m.memory.cell a).mapped = false

/-- What the first load of a segment carves out lies above the heap, and no device comes or goes. -/
theorem carved_of_load (hs : m.segments.get? 0 = some s) (absent : s.isResident = false)
    (loaded : loadSegment 0 m = .ok () m') :
    m.carve s.footprint = .ok m'.psp ∧ ∀ a, (m'.memory.cell a).mapped = (m.memory.cell a).mapped := by
  -- The kernel part is not in memory yet, so a load that succeeds has brought it in.
  rcases loadSegment_cases loaded with ⟨e, failed⟩ | ⟨s', hs', ⟨used, -⟩ | ⟨-, brought⟩⟩
  · cases failed
  · rw [hs] at hs'
    cases hs'
    rw [absent] at used
    cases used
  · rw [hs] at hs'
    cases hs'
    rcases bringIn_cases brought with ⟨e, failed⟩ | ⟨base, bytes, room, -, ending⟩
    · cases failed
    · cases written : Memory.writeBytes base bytes m.memory with
      | error e memory =>
        rw [written] at ending
        cases ending
      | ok u memory =>
        rw [written] at ending
        cases ending
        have guarded : Memory.Guarded m.memory memory := Keeps.of_ok written
        exact ⟨room, fun a => (Memory.mapped_protect _ _ _).trans (guarded.mapped a)⟩

/-- The first load of segment 0 leaves it so. -/
theorem Clear.kernelLoaded (clear : m.Clear) (hs : m.segments.get? 0 = some s)
    (absent : s.isResident = false) (loaded : loadSegment 0 m = .ok () m') :
    m.FirstLoad m' 0 s ∧ m'.KernelLoaded { s with useCount := 1, codeBase := m'.psp } := by
  have first : m.FirstLoad m' 0 s := by
    rcases clear.load_cases loaded with ⟨⟨_, failed⟩, -⟩ | ⟨_, _, _, _, -, failed⟩ | ⟨_, _, hs', done, first⟩
    · cases failed
    · cases failed
    · cases done
      rw [hs] at hs'
      cases hs'
      exact first absent
  obtain ⟨room, mapped⟩ := carved_of_load hs absent loaded
  obtain ⟨carved, above⟩ := carve_ok room
  have stop : m'.psp + s.footprint = m.psp := add_of_carved carved
  refine ⟨first, fun a low high => first.locked a low (stop ▸ high), fun a low high => ?_⟩
  rw [mapped]
  exact clear.unmapped a (UInt16.le_trans above low) (stop ▸ high)

/-- What a load of the extension can count on: segment 0 is in memory, the program stack pointer is not
above it, and there is no protected cell and no device between the heap and the program stack pointer. -/
structure Extendable (m : Machine) (s : Segment) (x : Extension) : Prop where
  entry : m.segments.get? 0 = some s
  used : s.isResident = true
  fits : s.codeBase.toNat + s.footprint.toNat < 2 ^ 16
  extension : s.extension = some x
  unplaced : x.base = none
  size : x.size.toNat ≤ 65534
  below : m.psp ≤ s.codeBase
  heap : Heap.start ≤ m.heap.np
  unlocked : ∀ a, m.heap.np ≤ a → a < m.psp → (m.memory.cell a).readOnly = false
  unmapped : ∀ a, m.heap.np ≤ a → a < m.psp → (m.memory.cell a).mapped = false

theorem Extendable.free (h : m.Extendable s x) {a : Address} (low : m.heap.np ≤ a) (high : a < m.psp) :
    m.memory.Free a where
  valid := ne_zero_of_start (UInt16.le_trans h.heap low)
  unmapped := h.unmapped a low high
  unlocked := h.unlocked a low high

/-- What memory holds once the extension is loaded. -/
structure Corrected (s : Segment) (x : Extension) (count : UInt8) (first base stop : Address) (bytes : Bytes)
    (before after : Memory) : Prop where
  order : after.order = before.order
  code : after.Holds base bytes
  words : ∀ p slot, p ≠ 0 → p ≤ count → s.dictionarySlot p = .ok slot →
    after.peekWord slot =
      corrected s.codeBase (s.codeBase - evenSize x.size - base) slot (before.peekWord slot)
  others : ∀ a, ¬ (base ≤ a ∧ a < stop) → ¬ (first ≤ a ∧ a < s.topWord) → after.cell a = before.cell a
  unmapped : ∀ a, (after.cell a).mapped = (before.cell a).mapped
  locked : ∀ a, base ≤ a ∧ a < stop ∨ (first ≤ a ∧ a < s.topWord) ∨ (before.cell a).readOnly = true →
    (after.cell a).readOnly = true

theorem cell_extendedMemory (memory : Memory) (base stop first last a : Address) :
    (extendedMemory memory base stop first last).cell a =
      { memory.cell a with
        readOnly := if first ≤ a ∧ a < last then false
          else if base ≤ a ∧ a < stop then true else (memory.cell a).readOnly } := by
  rw [extendedMemory, Memory.cell_protect, Memory.cell_protect]

/-- What was written between the addresses and then corrected is what memory holds. -/
theorem corrected_of_relocated {stop : Address} {before wrote memory : Memory}
    (holds : wrote.Holds base bytes) (off : Memory.AgreesOff (fun a => base ≤ a ∧ a < stop) before wrote)
    (guarded : Memory.Guarded before wrote)
    (guarded' : Memory.Guarded (extendedMemory wrote base stop first s.topWord) memory)
    (off' : Memory.AgreesOff (fun a => first ≤ a ∧ a < s.topWord)
      (extendedMemory wrote base stop first s.topWord) memory)
    (words : ∀ p slot, p ≠ 0 → p ≤ count → s.dictionarySlot p = .ok slot → memory.peekWord slot =
      corrected s.codeBase (s.codeBase - evenSize x.size - base) slot
        ((extendedMemory wrote base stop first s.topWord).peekWord slot))
    (fits : base.toNat + bytes.length ≤ stop.toNat) (below : stop ≤ s.codeBase) (start : s.codeBase ≤ first) :
    Corrected s x count first base stop bytes before (memory.protect first s.topWord true) := by
  -- protection comes and goes, but no stored byte changes with it
  have opened (a : Address) :
      (extendedMemory wrote base stop first s.topWord).peekByte a = wrote.peekByte a := by
    rw [extendedMemory, Memory.peekByte_protect, Memory.peekByte_protect]
  refine ⟨guarded'.order.trans guarded.order, fun i hi => ?_, fun p slot some_ le here => ?_, ?_, ?_, ?_⟩
  · have here : (base + UInt16.ofNat i).toNat = base.toNat + i := by
      have := stop.toNat_lt
      rw [UInt16.toNat_add, UInt16.toNat_ofNat']
      omega
    have away : ¬ (first ≤ base + UInt16.ofNat i ∧ base + UInt16.ofNat i < s.topWord) := by
      rintro ⟨low, -⟩
      have := UInt16.le_iff_toNat_le.1 (UInt16.le_trans below (UInt16.le_trans start low))
      omega
    exact Memory.peekByte_protect.trans ((off'.peekByte away).trans ((opened _).trans (holds i hi)))
  · obtain ⟨sum, inside⟩ := Segment.dictionarySlot_eq_ok.1 here
    have positive : p.toNat ≠ 0 := fun zero => some_ (UInt8.toNat_inj.1 zero)
    have next : (slot + 1).toNat = slot.toNat + 1 :=
      Memory.toNat_next (by have := s.topWord.toNat_lt; omega)
    -- the word lies above all that was written
    have apart (a : Address) (high : slot.toNat ≤ a.toNat) : ¬ (base ≤ a ∧ a < stop) := by
      rintro ⟨-, low⟩
      have low := UInt16.lt_iff_toNat_lt.1 low
      have := UInt16.le_iff_toNat_le.1 (UInt16.le_trans below inside)
      omega
    have before_ : (extendedMemory wrote base stop first s.topWord).peekWord slot = before.peekWord slot :=
      Memory.peekWord_congr guarded.order ((opened _).trans (off.peekByte (apart slot (Nat.le_refl _))))
        ((opened _).trans (off.peekByte (apart (slot + 1) (by omega))))
    have after : (memory.protect first s.topWord true).peekWord slot = memory.peekWord slot :=
      Memory.peekWord_congr rfl Memory.peekByte_protect Memory.peekByte_protect
    rw [after, words p slot some_ le here, before_]
  · intro a outside away
    rw [Memory.cell_protect, if_neg away, off' a away, cell_extendedMemory, if_neg away, if_neg outside,
      off a outside]
  · intro a
    rw [Memory.mapped_protect]
    refine (guarded'.mapped a).trans ?_
    rw [cell_extendedMemory]
    exact guarded.mapped a
  · intro a covered
    rw [Memory.cell_protect]
    split
    · rfl
    · rename_i away
      refine (guarded'.readOnly a).trans ?_
      rw [cell_extendedMemory, if_neg away]
      split
      · rfl
      · rename_i outside
        exact (guarded.readOnly a).trans ((covered.resolve_left outside).resolve_left away)

/-- The extension, segment 0 and the dictionary in it lie one above the other. -/
theorem Extendable.layout (h : m.Extendable s x) (slot : s.dictionarySlot count = .ok first)
    (room : m.carve (evenSize x.size) = .ok base) :
    0x100 ≤ base.toNat ∧ base.toNat + 2 * ((x.size.toNat + 1) / 2) = m.psp.toNat ∧
      m.psp.toNat ≤ s.codeBase.toNat ∧ s.codeBase.toNat ≤ first.toNat ∧
      first.toNat + 2 * count.toNat = s.topWord.toNat ∧
      s.topWord.toNat + 2 = s.codeBase.toNat + s.footprint.toNat := by
  obtain ⟨carved, above⟩ := carve_ok room
  rw [toNat_evenSize h.size] at carved
  have bottom : 0x100 ≤ base.toNat := UInt16.le_iff_toNat_le.1 (UInt16.le_trans h.heap above)
  have below := UInt16.le_iff_toNat_le.1 h.below
  obtain ⟨sum, start⟩ := Segment.dictionarySlot_eq_ok.1 slot
  exact ⟨bottom, carved, below, UInt16.le_iff_toNat_le.1 start, sum,
    Segment.toNat_topWord (by omega) h.fits⟩

/-- While the dictionary is open it can be written. -/
theorem Extendable.free_opened (h : m.Extendable s x) (kernel : m.KernelLoaded s) {wrote : Memory}
    {stop a : Address} (guarded : Memory.Guarded m.memory wrote) (above : 1 ≤ s.codeBase.toNat)
    (start : s.codeBase.toNat ≤ first.toNat)
    (top : s.topWord.toNat + 2 = s.codeBase.toNat + s.footprint.toNat) (inside : first ≤ a ∧ a < s.topWord) :
    (extendedMemory wrote base stop first s.topWord).Free a := by
  have low := UInt16.le_iff_toNat_le.1 inside.1
  have high := UInt16.lt_iff_toNat_lt.1 inside.2
  have after : s.codeBase ≤ a := UInt16.le_iff_toNat_le.2 (by omega)
  have before : a < s.codeBase + s.footprint := by
    have fits := h.fits
    rw [UInt16.lt_iff_toNat_lt, UInt16.toNat_add]
    omega
  refine ⟨?_, ?_, ?_⟩
  · rintro rfl
    have zero : (0 : Address).toNat = 0 := rfl
    omega
  · rw [cell_extendedMemory]
    exact (guarded.mapped a).trans (kernel.unmapped a after before)
  · rw [cell_extendedMemory, if_pos inside]

theorem protect_apply (start stop : Address) (on : Bool) (m : Machine) :
    protect start stop on m = .ok () (m.withMemory (m.memory.protect start stop on)) :=
  rfl

/-- Once the checks are passed the extension is loaded. -/
theorem Extendable.extendAt_ok (h : m.Extendable s x) (kernel : m.KernelLoaded s)
    (slot : s.dictionarySlot count = .ok first) (room : m.carve (evenSize x.size) = .ok base)
    (fetched : m.fetchCode x.unit x.block x.size = .ok bytes) :
    ∃ memory, Corrected s x count first base m.psp bytes m.memory memory ∧
      extendAt s x count first base bytes m = .ok base
        { m.withMemory memory with
          segments := m.segments.modify 0 (placeExtension x base)
          psp := base } := by
  obtain ⟨bottom, carved, below, start, sum, top⟩ := h.layout slot room
  have length := length_of_fetchCode fetched
  obtain ⟨wrote, written, holds, off⟩ := Memory.writeBytes_between
    (fun a low high => h.free (UInt16.le_trans (carve_ok room).2 low) high) (carve_ok room).1
    (by rw [toNat_evenSize h.size]; omega : bytes.length ≤ _)
  have guarded : Memory.Guarded m.memory wrote := Keeps.of_ok written
  have range (a : Address) :
      (first.toNat ≤ a.toNat ∧ a.toNat < first.toNat + 2 * count.toNat) ↔ first ≤ a ∧ a < s.topWord := by
    rw [UInt16.le_iff_toNat_le, UInt16.lt_iff_toNat_lt, sum]
  -- The correction runs downwards from the last word of the dictionary. Its bounds do not wrap, and
  -- the words between them have just been opened.
  have last := Memory.toNat_sub_two (a := s.topWord) (by omega)
  obtain ⟨memory, ran, guarded', off', words⟩ := relocate_spec s.codeBase
    (s.codeBase - evenSize x.size - base)
    (m := m.withMemory (extendedMemory wrote base m.psp first s.topWord)) (by omega)
    (by have := s.topWord.toNat_lt; omega) (last.trans sum.symm)
    (fun a low high => h.free_opened kernel guarded (by omega) start top ((range a).1 ⟨low, high⟩))
  refine ⟨memory.protect first s.topWord true, ?_, ?_⟩
  · refine corrected_of_relocated holds off guarded guarded' (off'.mono fun a => (range a).1) ?_ (by omega)
      h.below (UInt16.le_iff_toNat_le.2 start)
    intro p slot some_ le here
    have place := (Segment.dictionarySlot_eq_ok.1 here).1
    have positive : p.toNat ≠ 0 := fun zero => some_ (UInt8.toNat_inj.1 zero)
    have le := UInt8.le_iff_toNat_le.1 le
    exact words (count.toNat - p.toNat) (by omega) slot (by omega)
  · rw [extendAt, add_of_carved (carve_ok room).1, bind_of_ok (onMemory_of_ok written),
      bind_of_ok (protect_apply ..), bind_of_ok (protect_apply ..)]
    exact (bind_of_ok ran).trans rfl

/-! ## What a load of the extension does -/

/-- What a load of the extension does: it puts the extension right below the program stack pointer and
corrects the procedures in it. -/
structure Extended (m m' : Machine) (s : Segment) (x : Extension) (base : Address) : Prop where
  /-- The extension takes its length, rounded up to whole words. -/
  lowered : base.toNat + 2 * ((x.size.toNat + 1) / 2) = m.psp.toNat
  code : ∃ bytes, m.storage.readBlocks x.unit x.block x.size.toNat = .ok bytes ∧ m'.memory.Holds base bytes
  /-- A procedure stays where it was in segment 0, or at its offset in the extension; the other cells are
  those before. -/
  procedures : ∃ count first, m.segments.procedureCount m.memory 0 = .ok count ∧
    s.dictionarySlot count = .ok first ∧
    (∀ p, p ≠ 0 → p ≤ count → ∃ old, m.segments.jtab m.memory 0 p = .ok old ∧
      m'.segments.jtab m'.memory 0 p = .ok
        (if s.codeBase ≤ old then old else old + (base - (s.codeBase - evenSize x.size)))) ∧
    ∀ a, ¬ (base ≤ a ∧ a < m.psp) → ¬ (first ≤ a ∧ a < s.topWord) → m'.memory.cell a = m.memory.cell a
  locked : ∀ a, s.codeBase ≤ a ∧ a < s.codeBase + s.footprint ∨ base ≤ a ∧ a < m.psp →
    (m'.memory.cell a).readOnly = true
  rest : m' =
    { m.withMemory m'.memory with
      segments := m.segments.modify 0 (placeExtension x base)
      psp := base }
  again : loadExtension m' = .ok base m'

theorem orFault_ok {α : Type} {r : Except Fault α} {a : α} (h : r = .ok a) (m : Machine) :
    orFault r m = .ok a m := by
  rw [h]
  rfl

/-- A load of the extension that passes its checks goes on. -/
theorem loadExtension_eq (hs : m.segments.get? 0 = some s) (hx : s.extension = some x)
    (unplaced : x.base = none) (counted : m.segments.procedureCount m.memory 0 = .ok count)
    (slot : s.dictionarySlot count = .ok first) (room : m.carve (evenSize x.size) = .ok base)
    (fetched : m.fetchCode x.unit x.block x.size = .ok bytes) :
    loadExtension m = extendAt s x count first base bytes m := by
  rw [loadExtension, get_bind_apply, bind_of_ok (orFault_ok counted m),
    bind_of_ok (orFault_ok (SegmentTable.require_eq_ok.2 hs) m), bind_of_ok (orFault_ok slot m), hx]
  simp only [unplaced]
  rw [bind_of_ok (orFault_ok room m), bind_of_ok (orFault_ok fetched m)]
  rfl

/-- An extension that is loaded is not loaded again. -/
theorem loadExtension_again (hs : m.segments.get? 0 = some s) (hx : s.extension = some x)
    (placed : x.base = some base) (counted : m.segments.procedureCount m.memory 0 = .ok count)
    (slot : s.dictionarySlot count = .ok first) : loadExtension m = .ok base m := by
  rw [loadExtension, get_bind_apply, bind_of_ok (orFault_ok counted m),
    bind_of_ok (orFault_ok (SegmentTable.require_eq_ok.2 hs) m), bind_of_ok (orFault_ok slot m), hx]
  simp only [placed]
  rfl

/-- Words in segment 0 are memory of their own. -/
theorem Extendable.readWord (h : m.Extendable s x) (kernel : m.KernelLoaded s) {memory : Memory}
    {a : Address} (same : ∀ a, (memory.cell a).mapped = (m.memory.cell a).mapped) (above : 1 ≤ s.codeBase.toNat)
    (low : s.codeBase ≤ a) (high : a.toNat + 2 ≤ s.codeBase.toNat + s.footprint.toNat) :
    memory.readWord a = .ok (memory.peekWord a) := by
  have fits := h.fits
  have low' := UInt16.le_iff_toNat_le.1 low
  have next : (a + 1).toNat = a.toNat + 1 := Memory.toNat_next (by omega)
  have zero : (0 : Address).toNat = 0 := rfl
  have inside (b : Address) (lower : a.toNat ≤ b.toNat) (upper : b.toNat ≤ a.toNat + 1) :
      (memory.cell b).mapped = false := by
    refine (same b).trans (kernel.unmapped b (UInt16.le_iff_toNat_le.2 (by omega)) ?_)
    rw [UInt16.lt_iff_toNat_lt, UInt16.toNat_add]
    omega
  refine Memory.readWord_unmapped ?_ ?_ (inside a (Nat.le_refl _) (by omega)) (inside _ (by omega) (by omega))
  · rintro rfl
    omega
  · intro wrapped
    rw [wrapped] at next
    omega

theorem procedureCount_congr {t t' : SegmentTable} {memory memory' : Memory} {s' : Segment}
    (hs : t.get? 0 = some s) (used : s.isResident = true) (hs' : t'.get? 0 = some s')
    (used' : s'.isResident = true) (same : memory'.readWord s'.topWord = memory.readWord s.topWord) :
    t'.procedureCount memory' 0 = t.procedureCount memory 0 := by
  have found : t.resident 0 = .ok s := by
    rw [SegmentTable.resident, SegmentTable.require_eq_ok.2 hs, except_ok_bind, if_pos used]
  have found' : t'.resident 0 = .ok s' := by
    rw [SegmentTable.resident, SegmentTable.require_eq_ok.2 hs', except_ok_bind, if_pos used']
  rw [SegmentTable.procedureCount, SegmentTable.procedureCount, found, found', except_ok_bind, except_ok_bind,
    same]

/-- A load of the extension that passed its checks has done all that it should. -/
theorem Extendable.extended (h : m.Extendable s x) (kernel : m.KernelLoaded s)
    (counted : m.segments.procedureCount m.memory 0 = .ok count) (slot : s.dictionarySlot count = .ok first)
    (room : m.carve (evenSize x.size) = .ok base) (fetched : m.fetchCode x.unit x.block x.size = .ok bytes) :
    ∃ m', extendAt s x count first base bytes m = .ok base m' ∧ Extended m m' s x base := by
  obtain ⟨memory, corrected, ran⟩ := h.extendAt_ok kernel slot room fetched
  obtain ⟨bottom, carved, below, start, sum, top⟩ := h.layout slot room
  have fits := h.fits
  have entry := SegmentTable.get?_modify_self (f := placeExtension x base) h.entry
  -- the last word of segment 0 is none of the dictionary words
  have last : memory.peekWord s.topWord = m.memory.peekWord s.topWord := by
    have cell (a : Address) (high : s.topWord.toNat ≤ a.toNat) : memory.cell a = m.memory.cell a := by
      refine corrected.others a ?_ ?_
      · rw [UInt16.lt_iff_toNat_lt]
        omega
      · rw [UInt16.lt_iff_toNat_lt]
        omega
    have next : (s.topWord + 1).toNat = s.topWord.toNat + 1 := Memory.toNat_next (by omega)
    exact Memory.peekWord_congr corrected.order (congrArg Cell.value (cell _ (Nat.le_refl _)))
      (congrArg Cell.value (cell _ (by omega)))
  have inside : s.codeBase ≤ s.topWord := UInt16.le_iff_toNat_le.2 (by omega)
  have counted' : (m.segments.modify 0 (placeExtension x base)).procedureCount memory 0 = .ok count := by
    refine (procedureCount_congr h.entry h.used entry h.used ?_).trans counted
    refine (h.readWord kernel corrected.unmapped (by omega) inside (by omega)).trans ?_
    rw [h.readWord kernel (fun _ => rfl) (by omega) inside (by omega), last]
  refine ⟨_, ran, ?_⟩
  refine
    { lowered := carved
      code := ⟨bytes, readBlocks_of_fetchCode fetched, corrected.code⟩
      procedures := ⟨count, first, counted, slot, ?_, corrected.others⟩
      locked := ?_
      rest := rfl
      again := loadExtension_again entry rfl rfl counted' slot }
  · intro p some_ le
    obtain ⟨a, here, place, low⟩ := Segment.exists_dictionarySlot slot le
    have positive : p.toNat ≠ 0 := fun zero => some_ (UInt8.toNat_inj.1 zero)
    have read := h.readWord kernel (fun _ => rfl) (by omega) low (by omega)
    have read' := h.readWord kernel corrected.unmapped (by omega) low (by omega)
    rw [corrected.words p a some_ le here] at read'
    refine ⟨_, jtab_of_slot h.entry h.used counted some_ le here read, ?_⟩
    rw [← sub_corrected]
    exact jtab_of_slot entry h.used counted' some_ le here read'
  · rintro a (resident | extension)
    · exact corrected.locked a (.inr (.inr (kernel.locked a resident.1 resident.2)))
    · exact corrected.locked a (.inl extension)

/-- A load of the extension of segment 0 puts it right below the program stack pointer and corrects the
procedures in it, or it fails and changes nothing.  It does not fail if the dictionary fits into segment 0,
there is room above the heap, and the disk has the extension. -/
theorem extension_relocated (h : m.Extendable s x) (kernel : m.KernelLoaded s) :
    (∀ base m', loadExtension m = .ok base m' → Extended m m' s x base) ∧
    (∀ e m', loadExtension m = .error e m' → m' = m) ∧
    ∀ count first bytes, m.segments.procedureCount m.memory 0 = .ok count →
      s.dictionarySlot count = .ok first →
      m.heap.np.toNat + 2 * ((x.size.toNat + 1) / 2) ≤ m.psp.toNat →
      m.storage.readBlocks x.unit x.block x.size.toNat = .ok bytes →
      ∃ base m', loadExtension m = .ok base m' := by
  -- Loading has one successful course, and each of the three parts compares what was reported with
  -- it.
  refine ⟨fun base m' loaded => ?_, fun e m' failed => ?_, fun count first bytes counted slot fits read => ?_⟩
  · rcases loadExtension_cases loaded h.entry h.extension h.unplaced with
      ⟨e, failed⟩ | ⟨count, first, base', bytes, counted, slot, room, fetched, ending⟩
    · cases failed
    · obtain ⟨after, ran, extended⟩ := h.extended kernel counted slot room fetched
      rw [ran] at ending
      cases ending
      exact extended
  · rcases loadExtension_cases failed h.entry h.extension h.unplaced with
      ⟨e, unchanged⟩ | ⟨count, first, base', bytes, counted, slot, room, fetched, ending⟩
    · cases unchanged
      rfl
    · obtain ⟨after, ran, -⟩ := h.extended kernel counted slot room fetched
      rw [ran] at ending
      cases ending
  · have even := toNat_evenSize h.size
    have below : evenSize x.size ≤ m.psp := UInt16.le_iff_toNat_le.2 (by omega)
    have above : m.heap.np ≤ m.psp - evenSize x.size := by
      rw [UInt16.le_iff_toNat_le, UInt16.toNat_sub_of_le _ _ below]
      omega
    have room : m.carve (evenSize x.size) = .ok (m.psp - evenSize x.size) := if_pos ⟨below, above⟩
    have fetched : m.fetchCode x.unit x.block x.size = .ok bytes := by
      rw [fetchCode, read]
    obtain ⟨m', ran, -⟩ := h.extended kernel counted slot room fetched
    have goes := loadExtension_eq h.entry h.extension h.unplaced counted slot room fetched
    exact ⟨_, m', goes.trans ran⟩

/-- A machine with segment 0 in two parts: its first procedure lies in the resident part, and its second was
linked to lie right below. -/
def inTwoParts (disk : Bytes) : Machine :=
  { create (Storage.empty.setDisk 4 (some (Disk.ofBytes disk false false))) {} {} {} none with
    segments := SegmentTable.empty.insert
      { number := 0, name := "KERNEL", unit := 4, block := 0, size := 8
        extension := some { unit := 4, block := 1, size := 2 } } }

/-- The resident part in the first block. -/
def residentPart : Bytes :=
  [0xAD, 0, 4, 0, 4, 0, 0, 2] ++ Bytes.zeros 504

/-- The machine once the resident part is loaded, with something else right below it. -/
def apart (disk : Bytes) : Machine :=
  { endState (loadSegment 0 (inTwoParts disk)) with psp := 0xEFF4 }

theorem clear_inTwoParts (disk : Bytes) : (inTwoParts disk).Clear :=
  clear_create _ _

theorem extendable_apart (disk : Bytes) (done : succeeded (loadSegment 0 (inTwoParts disk)) = true)
    (heap : (apart disk).heap.np = Heap.start) :
    ∃ s, s.codeBase = 0xEFF8 ∧ (apart disk).Extendable s { unit := 4, block := 1, size := 2 } ∧
      (apart disk).KernelLoaded s := by
  have ran := eq_ok_of_succeeded done
  have clear := clear_inTwoParts disk
  obtain ⟨first, kernel⟩ := clear.kernelLoaded rfl rfl ran
  have lowered : (endState (loadSegment 0 (inTwoParts disk))).psp.toNat + 8 = 0xF000 := first.lowered
  have base : (endState (loadSegment 0 (inTwoParts disk))).psp = 0xEFF8 :=
    UInt16.toNat_inj.1 (Nat.add_right_cancel lowered)
  -- Beneath the new stack pointer nothing has changed since the kernel part was brought in.
  have outside (a : Address) (high : a < (apart disk).psp) :
      (apart disk).memory.cell a = (inTwoParts disk).memory.cell a := by
    refine first.outside a ?_
    rintro ⟨low, -⟩
    rw [base] at low
    exact absurd (UInt16.lt_of_le_of_lt low high) (by decide : ¬ (0xEFF8 : Address) < 0xEFF4)
  have beneath (a : Address) (high : a < (apart disk).psp) : a < (inTwoParts disk).psp :=
    UInt16.lt_trans high (by decide : (0xEFF4 : Address) < programTop)
  have above (a : Address) (low : (apart disk).heap.np ≤ a) : (inTwoParts disk).heap.np ≤ a := by
    rw [heap] at low
    exact low
  refine ⟨_, base, ?_, ⟨kernel.locked, kernel.unmapped⟩⟩
  refine
    { entry := first.entry
      used := rfl
      fits := ?_
      extension := rfl
      unplaced := rfl
      size := by decide
      below := ?_
      heap := heap ▸ UInt16.le_refl _
      unlocked := fun a low high => ?_
      unmapped := fun a low high => ?_ }
  · rw [base]
    exact (by decide : (0xEFF8 : Address).toNat + 8 < 2 ^ 16)
  · rw [base]
    exact (by decide : (0xEFF4 : Address) ≤ 0xEFF8)
  · rw [outside a high]
    exact clear.unlocked a (above a low) (beneath a high)
  · rw [outside a high]
    exact clear.unmapped a (above a low) (beneath a high)

/-- Where a load has put the extension. -/
def placeOf : EStateM.Result Fault Machine Address → Option Address
  | .ok base _ => some base
  | .error _ _ => none

theorem eq_ok_of_placeOf {r : EStateM.Result Fault Machine Address} (h : placeOf r = some base) :
    r = .ok base (endState r) := by
  cases r with
  | ok base m' =>
    cases h
    rfl
  | error e m' => cases h

/-- The second procedure moves with the extension, the first stays, and a disk without the extension changes
nothing. -/
theorem extension_relocated_apart :
    (∃ m', loadExtension (apart (residentPart ++ [7, 9])) = .ok 0xEFF2 m' ∧ m'.psp = 0xEFF2 ∧
      m'.segments.jtab m'.memory 0 1 = .ok 0xEFF8 ∧ m'.segments.jtab m'.memory 0 2 = .ok 0xEFF2) ∧
    ∃ e, loadExtension (apart residentPart) = .error e (apart residentPart) := by
  constructor
  · obtain ⟨s, resident, ready, kernel⟩ :=
      extendable_apart (residentPart ++ [7, 9]) (by decide +kernel) (by decide +kernel)
    have placed : placeOf (loadExtension (apart (residentPart ++ [7, 9]))) = some 0xEFF2 := by
      decide +kernel
    have ran := eq_ok_of_placeOf placed
    generalize endState (loadExtension (apart (residentPart ++ [7, 9]))) = m' at ran
    have extended := (extension_relocated ready kernel).1 0xEFF2 m' ran
    obtain ⟨count, first, counted, -, procedures, -⟩ := extended.procedures
    have two : (apart (residentPart ++ [7, 9])).segments.procedureCount
      (apart (residentPart ++ [7, 9])).memory 0 = .ok 2 := by decide +kernel
    -- The first procedure is in the resident part and keeps its address; the second is in the
    -- extension and moves.
    have old₁ : (apart (residentPart ++ [7, 9])).segments.jtab
      (apart (residentPart ++ [7, 9])).memory 0 1 = .ok 0xEFF8 := by decide +kernel
    have old₂ : (apart (residentPart ++ [7, 9])).segments.jtab
      (apart (residentPart ++ [7, 9])).memory 0 2 = .ok 0xEFF6 := by decide +kernel
    rw [two] at counted
    cases counted
    obtain ⟨_, found₁, new₁⟩ := procedures 1 (by decide) (by decide)
    obtain ⟨_, found₂, new₂⟩ := procedures 2 (by decide) (by decide)
    rw [old₁] at found₁
    rw [old₂] at found₂
    cases found₁
    cases found₂
    rw [resident] at new₁ new₂
    refine ⟨m', ran, ?_, new₁, new₂⟩
    rw [extended.rest]
  · obtain ⟨s, -, ready, kernel⟩ :=
      extendable_apart residentPart (by decide +kernel) (by decide +kernel)
    have undone : succeeded (loadExtension (apart residentPart)) = false := by decide +kernel
    cases failed : loadExtension (apart residentPart) with
    | ok base m' =>
      rw [failed] at undone
      cases undone
    | error e m' => exact ⟨e, congrArg _ ((extension_relocated ready kernel).2.1 e m' failed)⟩

/-! ## A segment 0 that is not as a load left it -/

/-- Changes in segment 0 do not keep the extension from being loaded. -/
theorem Extendable.withMemory (h : m.Extendable s x) {memory : Memory}
    (same : ∀ a, a < s.codeBase → memory.cell a = m.memory.cell a) :
    (m.withMemory memory).Extendable s x where
  entry := h.entry
  used := h.used
  fits := h.fits
  extension := h.extension
  unplaced := h.unplaced
  size := h.size
  below := h.below
  heap := h.heap
  unlocked a low high := (congrArg Cell.readOnly (same a (UInt16.lt_of_lt_of_le high h.below))).trans
    (h.unlocked a low high)
  unmapped a low high := (congrArg Cell.mapped (same a (UInt16.lt_of_lt_of_le high h.below))).trans
    (h.unmapped a low high)

theorem Extendable.attach (h : m.Extendable s x) (device : Device) (above : s.codeBase ≤ device.start) :
    (m.withMemory (m.memory.attach device)).Extendable s x := by
  apply h.withMemory
  intro a under
  rw [Memory.cell_attach, if_neg fun inside => UInt16.not_le.2 under (UInt16.le_trans above inside.1)]

theorem Extendable.unprotect (h : m.Extendable s x) (start stop : Address) (above : s.codeBase ≤ start) :
    (m.withMemory (m.memory.protect start stop false)).Extendable s x := by
  apply h.withMemory
  intro a under
  rw [Memory.cell_protect, if_neg fun inside => UInt16.not_le.2 under (UInt16.le_trans above inside.1)]

/-- A device over the dictionary word of the second procedure, which shows what lies there. -/
def dictionaryDevice : Device where
  start := 0xEFFA
  stop := 0xEFFC
  read a _ := if a = 0xEFFA then 4 else 0

/-- The two parts with a device over a dictionary word. -/
def shown : Machine :=
  (apart (residentPart ++ [7, 9])).withMemory
    ((apart (residentPart ++ [7, 9])).memory.attach dictionaryDevice)

/-- The two parts with the first byte of the resident one opened. -/
def opened : Machine :=
  (apart (residentPart ++ [7, 9])).withMemory
    ((apart (residentPart ++ [7, 9])).memory.protect 0xEFF8 0xEFF9 false)

/-- Where a device shows a dictionary word, the extension is loaded and its procedure is left behind; and a
cell of segment 0 that is not protected before the load is not protected after it. -/
theorem extension_misled :
    (∃ s, shown.Extendable s { unit := 4, block := 1, size := 2 } ∧
      (∀ a, s.codeBase ≤ a → a < s.codeBase + s.footprint → (shown.memory.cell a).readOnly = true) ∧
      ∃ m', loadExtension shown = .ok 0xEFF2 m' ∧ shown.segments.jtab shown.memory 0 2 = .ok 0xEFF6 ∧
        m'.segments.jtab m'.memory 0 2 = .ok 0xEFF6) ∧
    (∃ s, opened.Extendable s { unit := 4, block := 1, size := 2 } ∧
      (∀ a, s.codeBase ≤ a → a < s.codeBase + s.footprint → (opened.memory.cell a).mapped = false) ∧
      ∃ m', loadExtension opened = .ok 0xEFF2 m' ∧ s.codeBase = 0xEFF8 ∧
        (m'.memory.cell 0xEFF8).readOnly = false) := by
  obtain ⟨s, resident, ready, kernel⟩ :=
    extendable_apart (residentPart ++ [7, 9]) (by decide +kernel) (by decide +kernel)
  constructor
  · have above : s.codeBase ≤ dictionaryDevice.start := by
      rw [resident]
      decide
    have placed : placeOf (loadExtension shown) = some 0xEFF2 := by decide +kernel
    exact ⟨s, ready.attach dictionaryDevice above, fun a low high =>
      (Memory.readOnly_attach _ dictionaryDevice a).trans (kernel.locked a low high), _,
      eq_ok_of_placeOf placed, by decide +kernel, by decide +kernel⟩
  · have above : s.codeBase ≤ 0xEFF8 := UInt16.le_of_eq resident
    have placed : placeOf (loadExtension opened) = some 0xEFF2 := by decide +kernel
    exact ⟨s, ready.unprotect 0xEFF8 0xEFF9 above, fun a low high =>
      (Memory.mapped_protect 0xEFF8 0xEFF9 false).trans (kernel.unmapped a low high), _,
      eq_ok_of_placeOf placed, resident, by decide +kernel⟩

end Machine
end PSystem
