import PSystem.CodeFile
import PSystem.Machine.Boot
import PSystem.Proofs.Secure

/-!
# Starting a machine

Booting goes in stages: the table is made from the dictionary, the communication block is set up,
segment 0 and its extension are loaded, and the first procedure is called.  `Unloaded` holds before
the first load.  The extension of segment 0 is loaded right below it, so it needs no correction, and
what memory holds then is what was read.
-/

namespace PSystem

/-! ## The table of a dictionary -/

namespace SegmentTable

/-- A table of a dictionary: nothing is loaded. -/
structure Unloaded (t : SegmentTable) : Prop where
  entries : t.WellFormed
  unused : ∀ n s, t.get? n = some s → s.useCount = 0
  unplaced : ∀ n s, t.get? n = some s → ∀ x, s.extension = some x → x.base = none

theorem unloaded_empty : Unloaded empty where
  entries :=
    { numbered := fun n s h => by simp at h
      sized := fun n s h => by simp at h
      single := fun n s _ h => by simp at h }
  unused := fun n s h => by simp at h
  unplaced := fun n s h => by simp at h

/-- What holds of a segment for each entry of a dictionary, with an extension or without, holds of every
segment in its table. -/
theorem forall_ofDictionary {P : UInt8 → Segment → Prop} {d : Dictionary} (unit block : Word)
    (entry : ∀ e ∈ d.entries, P e.number
      { number := e.number, name := e.name, unit := unit, block := block + e.block, size := e.length })
    (extended : ∀ e ∈ d.entries, ∀ s, P 0 s → P 0
      { s with extension := some { unit := unit, block := block + e.block, size := e.length } })
    (numbered : ∀ n s, P n s → s.number = n) :
    ∀ n s, (ofDictionary d unit block).get? n = some s → P n s := by
  have each (entries : List DictionaryEntry) (inside : ∀ e ∈ entries, e ∈ d.entries)
      (t : SegmentTable) (ht : ∀ n s, t.get? n = some s → P n s) :
      ∀ n s, (entries.foldl (addEntry unit block) t).get? n = some s → P n s := by
    induction entries generalizing t with
    | nil => exact ht
    | cons e rest ih =>
      refine ih (fun e he => inside e (by simp [he])) _ ?_
      intro n s hs
      unfold addEntry at hs
      dsimp only at hs
      -- an entry whose number is taken is the extension of segment 0, or is left out
      cases found : t.get? e.number with
      | none =>
        rw [found] at hs
        rcases get?_insert_cases hs with ⟨rfl, rfl⟩ | old
        · exact entry e (inside e (by simp))
        · exact ht n s old
      | some s₀ =>
        rw [found] at hs
        dsimp only at hs
        split at hs
        · rename_i kernel
          have held := ht e.number s₀ found
          rw [kernel.1] at held
          rcases get?_insert_cases hs with ⟨here, rfl⟩ | old
          · have zero : n = 0 := here.symm.trans (numbered 0 s₀ held)
            rw [zero]
            exact extended e (inside e (by simp)) s₀ held
          · exact ht n s old
        · exact ht n s hs
  exact each d.entries (fun _ => id) empty fun n s h => by simp at h

theorem unloaded_ofDictionary {d : Dictionary} (small : ∀ e ∈ d.entries, e.length.toNat ≤ 65534)
    (unit block : Word) : (ofDictionary d unit block).Unloaded := by
  have each := forall_ofDictionary unit block (d := d)
    (P := fun n s => s.number = n ∧ s.size.toNat ≤ 65534 ∧ s.useCount = 0 ∧
      (n ≠ 0 → s.extension = none) ∧
      ∀ x, s.extension = some x → x.size.toNat ≤ 65534 ∧ x.base = none)
    (fun e he => ⟨rfl, small e he, rfl, fun _ => rfl, fun x hx => by cases hx⟩)
    (fun e he s ⟨number, size, unused, _, _⟩ => ⟨number, size, unused, fun other => absurd rfl other,
      fun x hx => by cases hx; exact ⟨small e he, rfl⟩⟩)
    (fun n s h => h.1)
  exact
    { entries :=
        { numbered := fun n s h => (each n s h).1
          sized := fun n s h => ⟨(each n s h).2.1, fun x hx => ((each n s h).2.2.2.2 x hx).1⟩
          single := fun n s other h => (each n s h).2.2.2.1 other }
      unused := fun n s h => (each n s h).2.2.1
      unplaced := fun n s h x hx => ((each n s h).2.2.2.2 x hx).2 }

theorem Unloaded.placement?_eq_none {t : SegmentTable} (h : t.Unloaded) (part : Part) :
    t.placement? part = none := by
  have absent {n : UInt8} {s : Segment} (hs : t.get? n = some s) : s.isResident = false := by
    simp [Segment.isResident, h.unused n s hs]
  cases hp : t.placement? part with
  | none => rfl
  | some p =>
    cases part with
    | segment n =>
      obtain ⟨s, hs, resident, -⟩ := placement?_segment.1 hp
      rw [absent hs] at resident
      cases resident
    | extension =>
      obtain ⟨s, hs, resident, -⟩ := placement?_extension.1 hp
      rw [absent hs] at resident
      cases resident

end SegmentTable

/-! ## Memory before the first load -/

namespace Memory

/-- Nothing is protected, and devices lie below the heap only. -/
structure Clean (m : Memory) : Prop where
  readOnly : ∀ a, (m.cell a).readOnly = false
  unmapped : ∀ a, Heap.start ≤ a → (m.cell a).mapped = false

/-- A clean memory stays clean. -/
def StaysClean (m m' : Memory) : Prop :=
  m.Clean → m'.Clean

instance : IsPreorder Memory StaysClean where
  refl _ := id
  trans _ _ _ h h' := h' ∘ h

instance staysClean_of_guarded {ε α : Type} (x : EStateM ε Memory α) [h : Keeps Guarded x] :
    Keeps StaysClean x :=
  h.mono fun _ _ g clean =>
    ⟨fun a => (g.readOnly a).trans (clean.readOnly a),
      fun a ha => (g.mapped a).trans (clean.unmapped a ha)⟩

theorem Clean.attach {m : Memory} (h : m.Clean) {device : Device}
    (low : device.stop ≤ Heap.start) : (m.attach device).Clean := by
  refine ⟨?_, ?_⟩
  · intro a
    rw [readOnly_attach]
    exact h.readOnly a
  · intro a ha
    rw [cell_attach, if_neg]
    · exact h.unmapped a ha
    · rintro ⟨-, below⟩
      exact absurd (UInt16.le_trans low ha) (UInt16.not_le.2 below)

/-- The fields of a trap are memory of their own: devices lie above them. -/
def Plain (m : Memory) : Prop :=
  ∀ a, Syscom.base ≤ a → a < Syscom.date → (m.cell a).mapped = false

/-- Fields that are memory of their own stay so. -/
def StaysPlain (m m' : Memory) : Prop :=
  m.Plain → m'.Plain

instance : IsPreorder Memory StaysPlain where
  refl _ := id
  trans _ _ _ h h' := h' ∘ h

instance staysPlain_of_guarded {ε α : Type} (x : EStateM ε Memory α) [h : Keeps Guarded x] :
    Keeps StaysPlain x :=
  h.mono fun _ _ g plain a low high => (g.mapped a).trans (plain a low high)

theorem Plain.attach {m : Memory} (h : m.Plain) {device : Device}
    (above : Syscom.date ≤ device.start) : (m.attach device).Plain := by
  intro a low high
  rw [cell_attach, if_neg]
  · exact h a low high
  · rintro ⟨inside, -⟩
    exact absurd (UInt16.le_trans above inside) (UInt16.not_le.2 high)

theorem clean_reserve {m : Memory} (h : m.Clean) (first last : Address) :
    (m.reserve first last).Clean := by
  refine ⟨?_, ?_⟩
  · intro a
    rcases cell_reserve m first last a with eq | eq
    · rw [eq]
      exact h.readOnly a
    · rw [eq]
      exact h.readOnly a
  · intro a ha
    rcases cell_reserve m first last a with eq | eq
    · rw [eq]
      exact h.unmapped a ha
    · rw [eq]
      exact h.unmapped a ha

theorem plain_reserve {m : Memory} (h : m.Plain) (first last : Address) :
    (m.reserve first last).Plain := by
  intro a low high
  rcases cell_reserve m first last a with eq | eq
  · rw [eq]
    exact h a low high
  · rw [eq]
    exact h a low high

theorem plain_empty : Plain empty :=
  fun a _ _ => by simp [empty, cell]

theorem clean_empty : Clean empty :=
  ⟨fun a => by simp [empty, cell], fun a _ => by simp [empty, cell]⟩

/-- All devices of the communication block lie between its date and the heap. -/
theorem device_bounds {host : HostView} {device : Device} (h : device ∈ Syscom.devices host) :
    Syscom.date ≤ device.start ∧ device.stop ≤ Heap.start := by
  simp only [Syscom.devices, List.mem_cons, List.not_mem_nil, or_false] at h
  obtain rfl | rfl | rfl := h
  · exact (by decide : Syscom.date ≤ Syscom.date ∧ Syscom.date + 2 ≤ Heap.start)
  · exact (by decide : Syscom.date ≤ Syscom.screen ∧ Syscom.screen + 4 ≤ Heap.start)
  · exact (by decide : Syscom.date ≤ Syscom.flags ∧ Syscom.flags + 2 ≤ Heap.start)

/-- What attaching one device keeps, attaching several does. -/
theorem attachAll_kept {P : Memory → Prop} {devices : List Device}
    (kept : ∀ m device, device ∈ devices → P m → P (m.attach device)) {m : Memory} (h : P m) :
    P (m.attachAll devices) := by
  unfold attachAll
  induction devices generalizing m with
  | nil => exact h
  | cons device devices ih =>
    have first := kept m device List.mem_cons_self h
    exact ih (fun m device inside => kept m device (List.mem_cons_of_mem _ inside)) first

instance staysClean_install (host : HostView) : Keeps StaysClean (Syscom.install host) := by
  unfold Syscom.install
  have attached : Keeps StaysClean (modify (·.attachAll (Syscom.devices host)) : Run Memory PUnit) :=
    Keeps.modify fun _ clean =>
      attachAll_kept (fun _ _ inside clean => clean.attach (device_bounds inside).2) clean
  infer_instance

instance staysPlain_install (host : HostView) : Keeps StaysPlain (Syscom.install host) := by
  unfold Syscom.install
  have attached : Keeps StaysPlain (modify (·.attachAll (Syscom.devices host)) : Run Memory PUnit) :=
    Keeps.modify fun _ plain =>
      attachAll_kept (fun _ _ inside plain => plain.attach (device_bounds inside).1) plain
  infer_instance

/-- The word that shows the result of a unit transfer is zero. -/
def Unset (m : Memory) : Prop :=
  m.peekByte Syscom.ioResult = 0 ∧ m.peekByte (Syscom.ioResult + 1) = 0

/-- A result that shows as zero still does. -/
def StaysUnset (m m' : Memory) : Prop :=
  m.Unset → m'.Unset

instance : IsPreorder Memory StaysUnset where
  refl _ := id
  trans _ _ _ h h' := h' ∘ h

theorem unset_empty : Unset empty := by
  constructor <;> simp [empty, peekByte, cell]

theorem unset_reserve {m : Memory} (h : m.Unset) (first last : Address) :
    (m.reserve first last).Unset := by
  have value (a : Address) : (m.reserve first last).peekByte a = m.peekByte a := by
    unfold peekByte
    rcases cell_reserve m first last a with eq | eq
    · rw [eq]
    · rw [eq]
  exact ⟨(value _).trans h.1, (value _).trans h.2⟩

theorem Unset.attach {m : Memory} (h : m.Unset) (device : Device) : (m.attach device).Unset := by
  have value (a : Address) : (m.attach device).peekByte a = m.peekByte a := by
    rw [peekByte, cell_attach]
    split <;> rfl
  exact ⟨(value _).trans h.1, (value _).trans h.2⟩

instance staysUnset_clear (a : Address) (n : Nat) :
    Keeps StaysUnset (writeBytes a (List.replicate n 0)) := by
  have byte (a : Address) : Keeps StaysUnset (writeByte a 0) := by
    constructor
    intro m unset
    have cleared {b : Address} (zero : m.peekByte b = 0) :
        (endState (writeByte a 0 m)).peekByte b = 0 := by
      rcases writeByte_cases a 0 m with ⟨delivered, h⟩ | ⟨-, h⟩ | h
      · rw [h]
        exact zero
      · rw [h, endState_ok]
        by_cases here : a = b
        · rw [← here, peekByte_store_self]
        · unfold peekByte
          rw [cell_store_of_ne here]
          exact zero
      · rw [h]
        exact zero
    exact ⟨cleared unset.1, cleared unset.2⟩
  -- one byte after another is cleared, and none of them sets the two words
  induction n generalizing a with
  | zero => exact Keeps.pure ()
  | succ n ih =>
    have rest := ih (a + 1)
    rw [List.replicate_succ, writeBytes]
    infer_instance

instance staysUnset_install (host : HostView) : Keeps StaysUnset (Syscom.install host) := by
  have attached : Keeps StaysUnset (modify (·.attachAll (Syscom.devices host)) : Run Memory PUnit) :=
    Keeps.modify fun _ unset => attachAll_kept (fun _ device _ unset => unset.attach device) unset
  exact Keeps.seq (staysUnset_clear _ _) fun _ => attached

theorem order_install {host : HostView} {u : Unit} {m m' : Memory}
    (h : Syscom.install host m = .ok u m') : m'.order = m.order := by
  unfold Syscom.install at h
  obtain ⟨u, zeroed, written, h⟩ := bind_eq_ok.1 h
  have guarded : Guarded m zeroed := Keeps.of_ok written
  have order : (zeroed.attachAll (Syscom.devices host)).order = zeroed.order :=
    attachAll_kept (P := fun memory => memory.order = zeroed.order) (fun _ _ _ same => same) rfl
  have attached (f : Memory → Memory) (h : (modify f : Run Memory PUnit) zeroed = .ok () m') :
      m' = f zeroed := by
    cases h
    rfl
  rw [attached _ h, order, guarded.order]

/-! ## Writing what is there -/

/-- Values, marks and byte order are as before. -/
structure SameValues (m m' : Memory) : Prop where
  guarded : Guarded m m'
  values : ∀ a, m'.peekByte a = m.peekByte a

instance : IsPreorder Memory SameValues where
  refl _ := ⟨Std.Refl.refl _, fun _ => rfl⟩
  trans _ _ _ h h' := ⟨IsTrans.trans _ _ _ h.guarded h'.guarded,
    fun a => (h'.values a).trans (h.values a)⟩

theorem SameValues.readByte {m m' : Memory} (h : SameValues m m') (a : Address) :
    m'.readByte a = m.readByte a := by
  have device : m'.device? a = m.device? a := by
    unfold device?
    rw [h.guarded.mapped, h.guarded.devices]
  have value : (m'.cell a).value = (m.cell a).value := h.values a
  unfold Memory.readByte
  rw [device, h.guarded.order, value]

theorem sameValues_writeByte {m : Memory} {a : Address} {v : UInt8} (h : m.readByte a = .ok v) :
    SameValues m (endState (writeByte a v m)) := by
  have guarded : Guarded m (endState (writeByte a v m)) := Keeps.related m
  refine ⟨guarded, ?_⟩
  intro b
  unfold Memory.readByte at h
  unfold writeByte
  by_cases zero : a = 0
  · simp only [if_pos zero, endState_error]
  · simp only [if_neg zero] at h ⊢
    cases hd : m.device? a with
    | some device =>
      dsimp only
      split <;> rfl
    | none =>
      simp only [hd] at h
      dsimp only
      split
      · rfl
      · -- the byte that is written is the one that is there
        by_cases here : a = b
        · subst here
          rw [endState_ok, peekByte_store_self]
          exact (Except.ok.inj h).symm
        · rw [endState_ok, peekByte, cell_store_of_ne here]
          rfl

theorem sameValues_writeWord {m : Memory} {a : Address} {w : Word} (h : m.readWord a = .ok w) :
    SameValues m (endState (writeWord a w m)) := by
  obtain ⟨first, h₁, h⟩ := except_bind_eq_ok.1 h
  obtain ⟨second, h₂, h⟩ := except_bind_eq_ok.1 h
  cases h
  unfold writeWord
  rw [get_bind_apply, ByteOrder.split_join]
  dsimp only
  have one := sameValues_writeByte h₁
  cases hw : writeByte a first m with
  | error e m₁ =>
    rw [hw] at one
    rw [bind_of_error hw]
    exact one
  | ok u m₁ =>
    rw [hw] at one
    rw [bind_of_ok hw]
    have h₂' : m₁.readByte (a + 1) = .ok second := (one.readByte (a + 1)).trans h₂
    exact IsTrans.trans _ _ _ one (sameValues_writeByte h₂')

end Memory

/-! ## The extension of segment 0 -/

namespace Machine

variable {m m' : Machine} {s : Segment} {x : Extension} {base : Address}

/-- Only memory was written, with what was there. -/
structure Rewritten (m m' : Machine) : Prop where
  memory : Memory.SameValues m.memory m'.memory
  rest : m' = m.withMemory m'.memory

instance : IsPreorder Machine Rewritten where
  refl _ := ⟨Std.Refl.refl _, rfl⟩
  trans m m' m'' h h' := by
    refine ⟨IsTrans.trans _ _ _ h.memory h'.memory, ?_⟩
    have rest := h'.rest
    rw [h.rest] at rest
    exact rest

/-- Where the extension was linked to lie, its dictionary words need no correction. -/
theorem relocate_zero (resident slot : Address) (n : Nat) (m : Machine) :
    Rewritten m (endState (relocate resident 0 n slot m)) := by
  -- slot after slot, each rewritten with the word that it holds
  induction n generalizing slot m with
  | zero => exact Std.Refl.refl m
  | succ n ih =>
    rcases reading_bind_cases (rfl : relocate resident 0 (n + 1) slot m = _) with
      ⟨e, -, h⟩ | ⟨offset, found, h⟩
    · rw [h]
      exact Std.Refl.refl m
    · rw [← h, UInt16.add_zero]
      split
      · have same := Memory.sameValues_writeWord found
        cases hw : Memory.writeWord slot offset m.memory with
        | error e memory =>
          rw [hw] at same
          rw [bind_of_error (onMemory_of_error hw)]
          exact ⟨same, rfl⟩
        | ok u memory =>
          rw [hw] at same
          rw [bind_of_ok (onMemory_of_ok hw)]
          have first : Rewritten m (m.withMemory memory) := ⟨same, rfl⟩
          exact IsTrans.trans _ _ _ first (ih (slot - 2) _)
      · exact ih (slot - 2) m

/-- The entry of segment 0 with its extension placed. -/
def placeExtension (x : Extension) (base : Address) (s : Segment) : Segment :=
  { s with extension := some { x with base := some base } }

theorem placement?_placeExtension {t : SegmentTable} {s : Segment} (hs : t.get? 0 = some s)
    (resident : s.isResident = true) (x : Extension) (base : Address) (part : Part) :
    (t.modify 0 (placeExtension x base)).placement? part =
      if part = .extension then
        some { base := base, unit := x.unit, block := x.block, size := x.size }
      else t.placement? part := by
  have entry := SegmentTable.get?_modify_self (f := placeExtension x base) hs
  cases part with
  | extension =>
    refine (SegmentTable.placement?_extension.2 ⟨_, entry, resident, rfl⟩).trans ?_
    rw [if_pos rfl]
  | segment n =>
    rw [if_neg (by simp)]
    by_cases zero : n = 0
    · subst zero
      rw [SegmentTable.placement?_segment.2 ⟨_, entry, resident, rfl⟩,
        SegmentTable.placement?_segment.2 ⟨s, hs, resident, rfl⟩]
      rfl
    · exact SegmentTable.placement?_modify_of_ne (by simpa using zero) (by simp)

/-- The memory once the extension is loaded: its dictionary in segment 0 is open for correction only
while the extension is being loaded. -/
def extendedMemory (before : Memory) (base stop first last : Address) : Memory :=
  (before.protect base stop true).protect first last false

theorem sub_of_carved {footprint : Word} (carved : base.toNat + footprint.toNat = m.psp.toNat) :
    m.psp - footprint = base := by
  have fits : footprint ≤ m.psp := UInt16.le_iff_toNat_le.2 (by omega)
  apply UInt16.toNat_inj.1
  rw [UInt16.toNat_sub_of_le _ _ fits]
  omega

theorem add_of_carved {footprint : Word} (carved : base.toNat + footprint.toNat = m.psp.toNat) :
    base + footprint = m.psp := by
  have small := m.psp.toNat_lt
  rw [← UInt16.toNat_inj, UInt16.toNat_add]
  omega

/-- What is left to do once a load of the extension has passed its checks. -/
def extendAt (s : Segment) (x : Extension) (count : UInt8) (first base : Address) (bytes : Bytes) :
    Run Machine Address := do
  onMemory (Memory.writeBytes base bytes)
  protect base (base + evenSize x.size) true
  protect first s.topWord false
  relocate s.codeBase (s.codeBase - evenSize x.size - base) count.toNat (s.topWord - 2)
  protect first s.topWord true
  modifySegment 0 (placeExtension x base)
  modify fun m => { m with psp := base }
  return base

/-- A load of the extension fails before it has changed anything, or passes all checks. -/
theorem loadExtension_cases {r : EStateM.Result Fault Machine Address} (h : loadExtension m = r)
    (hs : m.segments.get? 0 = some s) (hx : s.extension = some x) (unplaced : x.base = none) :
    (∃ e, r = .error e m) ∨ ∃ count first base bytes,
      m.segments.procedureCount m.memory 0 = .ok count ∧ s.dictionarySlot count = .ok first ∧
      m.carve (evenSize x.size) = .ok base ∧ m.fetchCode x.unit x.block x.size = .ok bytes ∧
      extendAt s x count first base bytes m = r := by
  unfold loadExtension at h
  rw [get_bind_apply] at h
  rcases orFault_bind_cases h with ⟨e, -, failed⟩ | ⟨count, counted, h⟩
  · exact .inl ⟨e, failed⟩
  rcases orFault_bind_cases h with ⟨e, -, failed⟩ | ⟨s', required, h⟩
  · exact .inl ⟨e, failed⟩
  have same := SegmentTable.require_eq_ok.1 required
  rw [hs] at same
  cases same
  rcases orFault_bind_cases h with ⟨e, -, failed⟩ | ⟨first, slot, h⟩
  · exact .inl ⟨e, failed⟩
  simp only [hx, unplaced] at h
  rcases orFault_bind_cases h with ⟨e, -, failed⟩ | ⟨base, carved, h⟩
  · exact .inl ⟨e, failed⟩
  rcases orFault_bind_cases h with ⟨e, -, failed⟩ | ⟨bytes, fetched, h⟩
  · exact .inl ⟨e, failed⟩
  exact .inr ⟨count, first, base, bytes, counted, slot, carved, fetched, h⟩

/-- What a load of the extension right below segment 0 does. -/
theorem loadExtension_eq_ok (hs : m.segments.get? 0 = some s) (hx : s.extension = some x)
    (unplaced : x.base = none) (adjacent : m.psp = s.codeBase)
    (h : loadExtension m = .ok base m') :
    ∃ count first bytes memory memory', base.toNat + (evenSize x.size).toNat = m.psp.toNat ∧
      m.heap.np ≤ base ∧ s.dictionarySlot count = .ok first ∧
      m.fetchCode x.unit x.block x.size = .ok bytes ∧
      Memory.writeBytes base bytes m.memory = .ok () memory ∧
      Memory.SameValues
        (extendedMemory memory base (base + evenSize x.size) first s.topWord) memory' ∧
      m' =
        { m.withMemory (memory'.protect first s.topWord true) with
          segments := m.segments.modify 0 (placeExtension x base)
          psp := base } := by
  rcases loadExtension_cases h hs hx unplaced with
    ⟨e, failed⟩ | ⟨count, first, base', bytes, -, slot, hc, hf, h⟩
  · cases failed
  obtain ⟨carved, room⟩ := carve_ok hc
  -- the extension lies right below, so its dictionary words stay as they are
  have delta : s.codeBase - evenSize x.size - base' = 0 := by
    rw [← adjacent, sub_of_carved carved, UInt16.sub_self]
  rw [extendAt, delta] at h
  obtain ⟨u, m₁, hw, h⟩ := bind_eq_ok.1 h
  obtain ⟨memory, written, rfl⟩ := onMemory_eq_ok.1 hw
  obtain ⟨u₁, m₂, hp, h⟩ := bind_eq_ok.1 h
  cases hp
  obtain ⟨u₂, m₃, hp, h⟩ := bind_eq_ok.1 h
  cases hp
  obtain ⟨u₃, m₄, hr, h⟩ := bind_eq_ok.1 h
  have rewritten := relocate_zero s.codeBase (s.topWord - 2) count.toNat
    (m.withMemory (extendedMemory memory base' (base' + evenSize x.size) first s.topWord))
  change relocate _ _ _ _
    (m.withMemory (extendedMemory memory base' (base' + evenSize x.size) first s.topWord)) = _ at hr
  rw [hr] at rewritten
  change Rewritten _ m₄ at rewritten
  cases h
  refine ⟨count, first, bytes, memory, m₄.memory, carved, room, slot, hf, written,
    rewritten.memory, ?_⟩
  rw [rewritten.rest]
  rfl

/-- The dictionary words of segment 0 that a load of the extension opens belong to segment 0. -/
theorem dictionary_inside {count : UInt8} {first : Address}
    (slot : s.dictionarySlot count = .ok first) (above : Heap.start ≤ s.codeBase)
    (below : s.codeBase.toNat + s.footprint.toNat ≤ 0xF000) {a : Address}
    (inside : first ≤ a ∧ a < s.topWord) : s.placement.Covers a := by
  have start : 0x100 ≤ s.codeBase.toNat := UInt16.le_iff_toNat_le.1 above
  have top := Segment.toNat_topWord (by omega) (by omega : s.codeBase.toNat + s.footprint.toNat < 2 ^ 16)
  have bottom := UInt16.le_iff_toNat_le.1 (Segment.dictionarySlot_eq_ok.1 slot).2
  have low := UInt16.le_iff_toNat_le.1 inside.1
  have high := UInt16.lt_iff_toNat_lt.1 inside.2
  constructor
  · change s.codeBase.toNat ≤ _
    omega
  · change _ < s.codeBase.toNat + s.footprint.toNat
    omega

section Closed

variable {before memory : Memory} {stop first last a : Address}
  (same : Memory.SameValues (extendedMemory before base stop first last) memory)

include same

/-- When the dictionary is closed again, it is protected, and so is what was loaded. -/
theorem readOnly_closed : ((memory.protect first last true).cell a).readOnly = true ↔
    (first ≤ a ∧ a < last) ∨ ((before.protect base stop true).cell a).readOnly = true := by
  have opened := same.guarded.readOnly a
  unfold extendedMemory at opened
  rw [Memory.cell_protect] at opened ⊢
  by_cases inside : first ≤ a ∧ a < last
  · simp [inside]
  · simp only [if_neg inside] at opened ⊢
    rw [opened]
    simp [inside]

theorem mapped_closed : ((memory.protect first last true).cell a).mapped = (before.cell a).mapped := by
  have opened := same.guarded.mapped a
  unfold extendedMemory at opened
  rw [Memory.cell_protect, Memory.cell_protect] at opened
  rw [Memory.cell_protect]
  exact opened

theorem peekByte_closed : (memory.protect first last true).peekByte a = before.peekByte a := by
  rw [Memory.peekByte_protect, same.values]
  unfold extendedMemory
  rw [Memory.peekByte_protect, Memory.peekByte_protect]

end Closed

/-- What is written into space that was carved lies below the old program stack pointer. -/
theorem peekByte_written {footprint : Word} {bytes : Bytes} {memory : Memory} {a : Address}
    (carved : base.toNat + footprint.toNat = m.psp.toNat) (fits : bytes.length ≤ footprint.toNat)
    (written : Memory.writeBytes base bytes m.memory = .ok () memory) (above : m.psp ≤ a) :
    memory.peekByte a = m.memory.peekByte a := by
  have off : Keeps (Memory.AgreesOff (· < m.psp)) (Memory.writeBytes base bytes) := by
    apply Memory.keeps_writeBytes_off
    intro i hi
    have hpsp := m.psp.toNat_lt
    rw [UInt16.lt_iff_toNat_lt, toNat_add_ofNat (by omega)]
    omega
  exact (off.of_ok written).peekByte (UInt16.not_lt.2 above)

/-- The layout once the extension of segment 0 is loaded. -/
theorem extended_layout (layout : CodeLayout m.segments m.memory m.psp m.heap)
    (hs : m.segments.get? 0 = some s) (resident : s.isResident = true)
    (hx : s.extension = some x) (unplaced : x.base = none) (adjacent : m.psp = s.codeBase)
    (above : Heap.start ≤ s.codeBase) (h : loadExtension m = .ok base m') :
    Heap.start ≤ base ∧
    ∃ bytes, m.fetchCode x.unit x.block x.size = .ok bytes ∧ m'.memory.Holds base bytes ∧
      CodeLayout m'.segments m'.memory m'.psp m'.heap ∧
      (∀ part, m'.segments.placement? part =
        if part = .extension then
          some { base := base, unit := x.unit, block := x.block, size := x.size }
        else m.segments.placement? part) ∧
      (∀ a, m.psp ≤ a → m'.memory.peekByte a = m.memory.peekByte a) := by
  obtain ⟨count, first, bytes, memory, memory', carved, room, slot, fetched, written, same, rfl⟩ :=
    loadExtension_eq_ok hs hx unplaced adjacent h
  let p : Placement := { base := base, unit := x.unit, block := x.block, size := x.size }
  have place (part : Part) : (m.segments.modify 0 (placeExtension x base)).placement? part =
      if part = .extension then some p else m.segments.placement? part :=
    placement?_placeExtension hs resident x base part
  -- the extension is a new piece, right below the program stack pointer
  have new : m.segments.placement? .extension = none := by
    simp [SegmentTable.placement?, hs, resident, Segment.extensionPlacement?, hx, unplaced]
  have stop : p.base.toNat + p.footprint = (base + evenSize x.size).toNat := by
    have hpsp := m.psp.toNat_lt
    rw [UInt16.toNat_add]
    change base.toNat + (evenSize x.size).toNat = _
    omega
  have guarded : Memory.Guarded m.memory memory := Keeps.of_ok written
  have own : m.segments.placement? (.segment 0) = some s.placement :=
    SegmentTable.placement?_segment.2 ⟨s, hs, resident, rfl⟩
  have below : s.codeBase.toNat + s.footprint.toNat ≤ 0xF000 := layout.below _ _ own
  -- the dictionary is part of segment 0, so only the extension is marked in addition
  have marks (a : Address) : ((memory'.protect first s.topWord true).cell a).readOnly = true ↔
      (m.memory.cell a).readOnly = true ∨ p.Covers a := by
    rw [readOnly_closed same, CodeLayout.readOnly_protect (p := p) stop, guarded.readOnly]
    constructor
    · rintro (inside | marked)
      · have covers := dictionary_inside slot above below inside
        exact .inl ((layout.marked a).2 ⟨_, _, own, covers⟩)
      · exact marked
    · exact .inr
  have mapped (a : Address) : ((memory'.protect first s.topWord true).cell a).mapped =
      (m.memory.cell a).mapped :=
    (mapped_closed same).trans (guarded.mapped a)
  have entries : (m.segments.modify 0 (placeExtension x base)).WellFormed := by
    apply layout.entries.modify
    intro s' hs'
    rw [hs] at hs'
    cases hs'
    refine ⟨rfl, rfl, ?_⟩
    rw [hx]
    rfl
  -- what was read fits into the space that was carved
  have fits : bytes.length ≤ (evenSize x.size).toNat := by
    rw [length_of_fetchCode fetched]
    have even := toNat_evenSize ((layout.entries.sized 0 s hs).2 x hx)
    omega
  obtain ⟨written', hw, holds⟩ := layout.write carved room fits
  rw [written] at hw
  cases hw
  refine ⟨UInt16.le_trans layout.heap room, bytes, fetched, ?_, ?_, place, ?_⟩
  · intro i hi
    exact (peekByte_closed same).trans (holds i hi)
  · exact layout.placed entries new place carved mapped marks
  · intro a ha
    exact (peekByte_closed same).trans (peekByte_written carved fits written ha)

/-! ## Stages of a boot -/

theorem booting_eq_ok {α : Type} {failure : Fault → BootFailure} {y : Run Machine α} {a : α}
    (h : booting failure y m = .ok a m') : y m = .ok a m' := by
  unfold booting at h
  cases hy : y m with
  | ok b m₁ =>
    rw [hy] at h
    cases h
    rfl
  | error e m₁ =>
    rw [hy] at h
    cases h

theorem orBoot_eq_ok {α : Type} {y : Except StorageError α} {a : α}
    (h : orBoot y m = .ok a m') : m' = m := by
  unfold orBoot at h
  cases y with
  | ok b =>
    cases h
    rfl
  | error e => cases h

theorem findSystem_eq_ok {unit : Word} {file : String} {found : Word × Dictionary}
    (h : findSystem unit file m = .ok found m') : m' = m := by
  unfold findSystem at h
  rw [get_bind_apply] at h
  obtain ⟨extent, m₁, h₁, h⟩ := bind_eq_ok.1 h
  obtain ⟨block0, m₂, h₂, h⟩ := bind_eq_ok.1 h
  cases orBoot_eq_ok h₁
  cases orBoot_eq_ok h₂
  cases hd : Dictionary.parse? block0 with
  | none =>
    simp only [hd] at h
    cases h
  | some dictionary =>
    simp only [hd] at h
    cases h
    rfl

/-- The machine before the first load. -/
def prepared (fresh : Machine) (memory : Memory) (table : SegmentTable) : Machine :=
  (fresh.withMemory memory).withTable table

/-- What booting does before it calls the first procedure. -/
def loadSystem (unit : Word) (file : String) : Exec Unit := do
  let (firstBlock, dictionary) ← findSystem unit file
  onMemory (modify (·.withOrder dictionary.order))
  onMemory (Syscom.install (← get).host)
  modify fun m => { m with segments := SegmentTable.ofDictionary dictionary unit firstBlock }
  onMemory (Memory.writeWord Syscom.systemUnit unit)
  match (← get).segments.get? 0 with
  | none => throw (.boot (.noKernel file))
  | some kernel =>
    booting .loading (loadSegment 0)
    if kernel.extension.isSome then
      let _ ← booting .loadingExtension loadExtension

theorem boot_eq (unit : Word) (file : String) : boot unit file = (do
    loadSystem unit file
    let _ ← call 0 1
    modify record) := by
  unfold boot loadSystem
  simp only [bind_assoc]
  refine bind_congr fun found => bind_congr fun _ => bind_congr fun m => bind_congr fun _ =>
    bind_congr fun _ => bind_congr fun _ => bind_congr fun m => ?_
  cases m.segments.get? 0 with
  | none => rfl
  | some kernel =>
    dsimp only
    simp only [bind_assoc]
    refine bind_congr fun _ => ?_
    split
    · simp only [bind_assoc, pure_bind]
    · simp only [pure_bind]

/-- What is written before the first load protects no cell, and leaves plain what is plain and unset
what is unset. -/
theorem memory_prepared {order : ByteOrder} {host : HostView} {unit : Word}
    {memory memory₁ memory₂ memory₃ : Memory}
    (ordered : (modify (·.withOrder order) : EStateM Fault Memory PUnit) memory = .ok () memory₁)
    (installed : Syscom.install host memory₁ = .ok () memory₂)
    (noted : Memory.writeWord Syscom.systemUnit unit memory₂ = .ok () memory₃) :
    memory₃.order = order ∧ Memory.StaysClean memory memory₃ ∧
      Memory.StaysPlain memory memory₃ ∧ Memory.StaysUnset memory memory₃ := by
  cases ordered
  refine ⟨?_, ?_, ?_, ?_⟩
  · have guarded : Memory.Guarded memory₂ memory₃ := Keeps.of_ok noted
    rw [guarded.order, Memory.order_install installed]
    rfl
  · have first : Memory.StaysClean memory (memory.withOrder order) :=
      fun clean => ⟨clean.readOnly, clean.unmapped⟩
    have second : Memory.StaysClean _ memory₂ := Keeps.of_ok installed
    have third : Memory.StaysClean memory₂ memory₃ := Keeps.of_ok noted
    exact third ∘ second ∘ first
  · have second : Memory.StaysPlain _ memory₂ := Keeps.of_ok installed
    have third : Memory.StaysPlain memory₂ memory₃ := Keeps.of_ok noted
    exact third ∘ second
  · have second : Memory.StaysUnset _ memory₂ := Keeps.of_ok installed
    -- the number of the system unit is noted above the words that stay unset
    have unit : Memory.AgreesOff (Syscom.systemUnit ≤ ·) memory₂ memory₃ :=
      (Memory.keeps_writeWord_off (S := (Syscom.systemUnit ≤ ·)) (by decide) (by decide)).of_ok noted
    intro h
    have unset := second h
    exact ⟨(unit.peekByte (by decide)).trans unset.1, (unit.peekByte (by decide)).trans unset.2⟩

/-- The stages of booting, if it gets as far as the first call. -/
theorem loadSystem_stages {unit : Word} {file : String} {fresh : Machine}
    (h : loadSystem unit file fresh = .ok () m) :
    ∃ block dictionary memory kernel m₁,
      findSystem unit file fresh = .ok (block, dictionary) fresh ∧
      memory.order = dictionary.order ∧
      Memory.StaysClean fresh.memory memory ∧ Memory.StaysPlain fresh.memory memory ∧
      Memory.StaysUnset fresh.memory memory ∧
      (SegmentTable.ofDictionary dictionary unit block).get? 0 = some kernel ∧
      loadSegment 0 (prepared fresh memory (SegmentTable.ofDictionary dictionary unit block)) =
        .ok () m₁ ∧
      ((kernel.extension = none ∧ m = m₁) ∨
        ∃ base, kernel.extension ≠ none ∧ loadExtension m₁ = .ok base m) := by
  unfold loadSystem at h
  obtain ⟨⟨block, dictionary⟩, m₀, hf, h⟩ := bind_eq_ok.1 h
  cases findSystem_eq_ok hf
  obtain ⟨u₁, n₁, h₁, h⟩ := bind_eq_ok.1 h
  obtain ⟨memory₁, w₁, rfl⟩ := onMemory_eq_ok.1 (eq_ok_of_liftM h₁)
  rw [get_bind_apply] at h
  obtain ⟨u₂, n₂, h₂, h⟩ := bind_eq_ok.1 h
  obtain ⟨memory₂, w₂, rfl⟩ := onMemory_eq_ok.1 (eq_ok_of_liftM h₂)
  rw [modify_bind_apply] at h
  obtain ⟨u₃, n₃, h₃, h⟩ := bind_eq_ok.1 h
  obtain ⟨memory₃, w₃, rfl⟩ := onMemory_eq_ok.1 (eq_ok_of_liftM h₃)
  rw [get_bind_apply] at h
  obtain ⟨order, clean, plain, unset⟩ := memory_prepared w₁ w₂ w₃
  -- the three updates of the memory and the new table are those of `prepared`
  have start : Machine.withMemory
      { (fresh.withMemory memory₁).withMemory memory₂ with
        segments := SegmentTable.ofDictionary dictionary unit block } memory₃ =
      prepared fresh memory₃ (SegmentTable.ofDictionary dictionary unit block) := rfl
  rw [start] at h
  cases hk : (SegmentTable.ofDictionary dictionary unit block).get? 0 with
  | none =>
    have missing : (prepared fresh memory₃
        (SegmentTable.ofDictionary dictionary unit block)).segments.get? 0 = none := hk
    rw [missing] at h
    cases h
  | some kernel =>
    have found : (prepared fresh memory₃
        (SegmentTable.ofDictionary dictionary unit block)).segments.get? 0 = some kernel := hk
    rw [found] at h
    dsimp only at h
    obtain ⟨u₄, m₁, hl, h⟩ := bind_eq_ok.1 h
    have loaded := booting_eq_ok hl
    refine ⟨block, dictionary, memory₃, kernel, m₁, ?_⟩
    by_cases ext : kernel.extension.isSome = true
    · simp only [if_pos ext] at h
      obtain ⟨base, m₂, he, h⟩ := bind_eq_ok.1 h
      cases h
      refine ⟨hf, order, clean, plain, unset, hk, loaded, .inr ⟨base, ?_, booting_eq_ok he⟩⟩
      intro none
      rw [none] at ext
      cases ext
    · simp only [if_neg ext] at h
      cases h
      refine ⟨hf, order, clean, plain, unset, hk, loaded, .inl ⟨?_, rfl⟩⟩
      simpa using ext

/-! ## What a boot loads -/

/-- No segment of the system file is so long that rounding its length up loses it. -/
def SystemFits (fresh : Machine) (unit : Word) (file : String) : Prop :=
  ∀ block dictionary, findSystem unit file fresh = .ok (block, dictionary) fresh →
    ∀ e ∈ dictionary.entries, e.length.toNat ≤ 65534

/-- A machine with segment 0 in memory, before its first procedure is called. -/
structure Loaded (fresh m : Machine) : Prop where
  secure : m.Secure
  rest : m = { fresh with
    store := { fresh.store with memory := m.memory }, segments := m.segments, psp := m.psp }
  read : ∀ part p, m.segments.placement? part = some p → Heap.start ≤ p.base ∧
    ∃ bytes, fresh.fetchCode p.unit p.block p.size = .ok bytes ∧ m.memory.Holds p.base bytes
  counts : ∀ n s, m.segments.get? n = some s → s.useCount = if n = 0 then 1 else 0
  lowest : ∃ part p, m.segments.placement? part = some p ∧ p.base = m.psp

/-- A machine on which nothing was started. -/
structure Fresh (m : Machine) : Prop where
  clean : m.memory.Clean
  sp : m.store.sp = Store.top
  heap : m.heap = Heap.empty
  segments : m.segments = SegmentTable.empty
  psp : m.psp = programTop
  outermost : m.mp = 0 ∧ m.base = 0 ∧ m.seg = 0 ∧ m.jtab = 0 ∧ m.ipc = 0 ∧ m.ipcBase = 0 ∧
    m.depth = 0
  hosted : m.Hosted

theorem fresh_create (storage : Storage) (console : Console) (config : Config) (host : HostView)
    (limit : Option Nat) : Fresh (create storage console config host limit) where
  clean := Memory.clean_reserve (Memory.clean_reserve Memory.clean_empty _ _) _ _
  sp := rfl
  heap := rfl
  segments := rfl
  psp := rfl
  outermost := ⟨rfl, rfl, rfl, rfl, rfl, rfl, rfl⟩
  hosted := by
    intro b hb
    have only : b = { segment := "DECOPS", procedure := 1, run := Decimal.execute } := by
      simpa [create] using hb
    rw [only]
    exact ⟨rfl, inferInstance⟩

/-- Before the first load, the layout of code is that of no code at all. -/
theorem layout_prepared {memory : Memory} {table : SegmentTable} (clean : memory.Clean)
    (unloaded : table.Unloaded) : CodeLayout table memory programTop Heap.empty where
  entries := unloaded.entries
  heap := UInt16.le_refl _
  unmapped := clean.unmapped
  top := UInt16.le_refl _
  above := fun part p hp => by rw [unloaded.placement?_eq_none] at hp; cases hp
  below := fun part p hp => by rw [unloaded.placement?_eq_none] at hp; cases hp
  apart := fun part part' p p' _ hp => by rw [unloaded.placement?_eq_none] at hp; cases hp
  marked := by
    intro a
    rw [clean.readOnly a]
    simp [unloaded.placement?_eq_none]

/-- What the first load of segment 0 does. -/
theorem loaded_kernel {memory : Memory} {table : SegmentTable} {kernel : Segment}
    {fresh : Machine} (hfresh : fresh.Fresh) (clean : memory.Clean) (unloaded : table.Unloaded)
    (hk : table.get? 0 = some kernel)
    (h : loadSegment 0 (prepared fresh memory table) = .ok () m) :
    Loaded fresh m ∧ ∃ s, m.segments.get? 0 = some s ∧ s.isResident = true ∧
      s.extension = kernel.extension ∧ m.psp = s.codeBase ∧ Heap.start ≤ s.codeBase := by
  have layout : CodeLayout table memory fresh.psp fresh.heap := by
    rw [hfresh.psp, hfresh.heap]
    exact layout_prepared clean unloaded
  have absent : kernel.isResident = false := by
    simp [Segment.isResident, unloaded.unused 0 kernel hk]
  -- a dictionary entry has neither uses nor an extension that is loaded
  have unplaced : kernel.extensionPlacement? = none := by
    unfold Segment.extensionPlacement?
    cases hx : kernel.extension with
    | none => rfl
    | some x => simp [unloaded.unplaced 0 kernel hk x hx]
  rcases loadSegment_outcome (m := prepared fresh memory table) layout h with
    ⟨e, eq⟩ | ⟨s, hs, ⟨resident, -⟩ | ⟨-, base, bytes, memory', brought, eq⟩⟩
  · cases eq
  · change table.get? 0 = some s at hs
    rw [hk] at hs
    cases hs
    rw [absent] at resident
    cases resident
  change table.get? 0 = some s at hs
  rw [hk] at hs
  cases hs
  cases eq
  have number := unloaded.entries.numbered 0 kernel hk
  have guarded : Memory.Guarded memory memory' := Keeps.of_ok brought.written
  have place := CodeLayout.placement?_putAt base hk (fun _ => unplaced) absent
  have entry := SegmentTable.get?_modify_self (f := Segment.putAt base) hk
  have table' : ((prepared fresh memory table).afterLoad kernel base memory').segments =
      table.modify 0 (Segment.putAt base) := by
    unfold afterLoad
    rw [number]
    rfl
  refine ⟨⟨⟨?_, ?_, .inl hfresh.outermost.2.1, hfresh.hosted⟩, rfl, ?_, ?_, ?_⟩, ?_⟩
  · rw [table']
    exact CodeLayout.loaded layout hk absent (fun _ => unplaced) brought.carved guarded
  · rw [table']
    exact ⟨_, entry, rfl⟩
  · intro part p placed
    rw [table', place] at placed
    split at placed
    · cases placed
      refine ⟨UInt16.le_trans layout.heap brought.room, bytes, brought.fetched, ?_⟩
      intro i hi
      exact Memory.peekByte_protect.trans (brought.holds i hi)
    · rw [unloaded.placement?_eq_none] at placed
      cases placed
  · intro n s hs
    rw [table'] at hs
    rcases SegmentTable.get?_modify_cases hs with ⟨other, old⟩ | ⟨s₀, rfl, -, rfl⟩
    · rw [if_neg other]
      exact unloaded.unused n s old
    · rfl
  · rw [table']
    exact ⟨.segment 0, _, (place _).trans (if_pos rfl), rfl⟩
  · have start := UInt16.le_trans layout.heap brought.room
    refine ⟨Segment.putAt base kernel, ?_, rfl, rfl, rfl, start⟩
    rw [table']
    exact entry

/-- The extension is loaded right below segment 0. -/
theorem Loaded.extended {fresh : Machine} (loaded : Loaded fresh m)
    (hs : m.segments.get? 0 = some s) (resident : s.isResident = true) (hx : s.extension = some x)
    (unplaced : x.base = none) (adjacent : m.psp = s.codeBase) (above : Heap.start ≤ s.codeBase)
    (h : loadExtension m = .ok base m') : Loaded fresh m' := by
  obtain ⟨start, bytes, fetched, holds, layout, place, values⟩ :=
    extended_layout loaded.secure.layout hs resident hx unplaced adjacent above h
  obtain ⟨_, _, _, _, _, _, _, _, _, _, _, shape⟩ := loadExtension_eq_ok hs hx unplaced adjacent h
  -- the extension is read from the disk that segment 0 came from
  have disk : m.storage = fresh.storage := by rw [loaded.rest]
  have fetch (u b n : Word) : m.fetchCode u b n = fresh.fetchCode u b n := by
    unfold fetchCode
    rw [disk]
  have table : m'.segments = m.segments.modify 0 (placeExtension x base) := by rw [shape]
  refine ⟨⟨layout, ?_, ?_, ?_⟩, ?_, ?_, ?_, ?_⟩
  · rw [table]
    exact ⟨_, SegmentTable.get?_modify_self hs, resident⟩
  · rw [shape]
    exact loaded.secure.based
  · rw [shape]
    exact loaded.secure.hosted
  · rw [shape]
    have rest := loaded.rest
    rw [rest]
    rfl
  · intro part p placed
    rw [place] at placed
    split at placed
    · cases placed
      exact ⟨start, bytes, fetch _ _ _ ▸ fetched, holds⟩
    · obtain ⟨start', bytes', fetched', holds'⟩ := loaded.read part p placed
      refine ⟨start', bytes', fetched', ?_⟩
      intro i hi
      -- older pieces lie above the old program stack pointer, where nothing was written
      have atop := loaded.secure.layout.above part p placed
      have inside := loaded.secure.layout.covers placed (length_of_fetchCode fetched' ▸ hi)
      have beyond : m.psp ≤ p.base + UInt16.ofNat i :=
        UInt16.le_trans atop (UInt16.le_iff_toNat_le.2 inside.1)
      exact (values _ beyond).trans (holds' i hi)
  · intro n s' hs'
    rw [table] at hs'
    rcases SegmentTable.get?_modify_cases hs' with ⟨-, old⟩ | ⟨s₀, rfl, old, rfl⟩
    · exact loaded.counts n s' old
    · exact loaded.counts 0 s₀ old
  · refine ⟨.extension, _, (place _).trans (if_pos rfl), ?_⟩
    rw [shape]

/-- Segment 0 is in memory before its first procedure is called. -/
theorem loaded_of_loadSystem {unit : Word} {file : String} {fresh : Machine}
    (hfresh : fresh.Fresh) (fits : SystemFits fresh unit file)
    (h : loadSystem unit file fresh = .ok () m) : Loaded fresh m := by
  obtain ⟨block, dictionary, memory, kernel, m₁, found, -, clean, -, -, hk, hl, ext⟩ :=
    loadSystem_stages h
  have unloaded := SegmentTable.unloaded_ofDictionary (fits block dictionary found) unit block
  obtain ⟨loaded, s, hs, resident, same, adjacent, above⟩ :=
    loaded_kernel hfresh (clean hfresh.clean) unloaded hk hl
  rcases ext with ⟨-, rfl⟩ | ⟨base, some_, he⟩
  · exact loaded
  cases hx : kernel.extension with
  | none => exact absurd hx some_
  | some x =>
    have unplaced := unloaded.unplaced 0 kernel hk x hx
    exact loaded.extended hs resident (same.trans hx) unplaced adjacent above he

/-- A boot that succeeds calls the first procedure of segment 0 when everything is loaded. -/
theorem boot_stages {unit : Word} {file : String} {fresh : Machine}
    (h : boot unit file fresh = .ok () m) :
    ∃ m₁ kind m₂, loadSystem unit file fresh = .ok () m₁ ∧ call 0 1 m₁ = .ok kind m₂ ∧
      m = m₂.record := by
  rw [boot_eq] at h
  obtain ⟨u, m₁, loaded, h⟩ := bind_eq_ok.1 h
  obtain ⟨kind, m₂, called, h⟩ := bind_eq_ok.1 h
  cases h
  exact ⟨m₁, kind, m₂, loaded, eq_ok_of_liftM called, rfl⟩

theorem loaded_of_boot {unit : Word} {file : String} {fresh : Machine} (hfresh : fresh.Fresh)
    (fits : SystemFits fresh unit file) (h : boot unit file fresh = .ok () m) :
    ∃ m₁ kind m₂, loadSystem unit file fresh = .ok () m₁ ∧ Loaded fresh m₁ ∧
      call 0 1 m₁ = .ok kind m₂ ∧ m = m₂.record := by
  obtain ⟨m₁, kind, m₂, loading, called, rfl⟩ := boot_stages h
  exact ⟨m₁, kind, m₂, loading, loaded_of_loadSystem hfresh fits loading, called, rfl⟩

/-! ## A small system -/

/-- A machine with a volume on unit 4 whose only file has the given segments. -/
def holding (segments : List SegmentSpec) : Machine :=
  let volume := (CodeFile.image? .little (segments.map (CodePart.ofSpec .little))).bind fun file =>
    Volume.image? "VOLUME" [("SYSTEM", file)]
  create (Storage.empty.setDisk 4 (some (Disk.ofBytes (volume.getD []) true false)))
    default default default none

/-- The machine after the boot of its only file. -/
def started (segments : List SegmentSpec) : Machine :=
  endState (boot 4 "SYSTEM" (holding segments))

/-- Whether a machine with the given segments can be started. -/
def starts (segments : List SegmentSpec) : Bool :=
  succeeded (boot 4 "SYSTEM" (holding segments)) &&
    match findSystem 4 "SYSTEM" (holding segments) with
    | .ok (_, dictionary) _ => dictionary.entries.all fun e => e.length.toNat ≤ 65534
    | .error _ _ => true

/-- Whether a machine can be started from its file on unit 4. -/
def boots (fresh : Machine) : Bool :=
  succeeded (boot 4 "SYSTEM" fresh) &&
    match findSystem 4 "SYSTEM" fresh with
    | .ok (_, dictionary) _ => dictionary.entries.all fun e => e.length.toNat ≤ 65534
    | .error _ _ => true

theorem boot_of_boots {fresh : Machine} (h : boots fresh = true) :
    SystemFits fresh 4 "SYSTEM" ∧
      boot 4 "SYSTEM" fresh = .ok () (endState (boot 4 "SYSTEM" fresh)) := by
  unfold boots at h
  rw [Bool.and_eq_true] at h
  refine ⟨?_, eq_ok_of_succeeded h.1⟩
  intro block dictionary found
  have small := h.2
  rw [found] at small
  simpa using small

theorem boot_of_starts {segments : List SegmentSpec} (h : starts segments = true) :
    SystemFits (holding segments) 4 "SYSTEM" ∧
      boot 4 "SYSTEM" (holding segments) = .ok () (started segments) :=
  boot_of_boots h

/-- A main program and a procedure of level 1, and a base procedure that returns like an ordinary
one. -/
def rebasing : List SegmentSpec :=
  [{ number := 0
     name := "KERNEL"
     procedures :=
       [{ level := 1, body := some { code := [Opcode.clp.code, 2, Opcode.xit.code] } },
         { level := 1, body := some { code := [Opcode.cbp.code, 3, Opcode.rnp.code, 0] } },
         { level := 0, body := some { code := [Opcode.rnp.code, 0] } }] }]

end Machine
end PSystem
