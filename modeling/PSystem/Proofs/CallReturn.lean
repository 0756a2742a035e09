import PSystem.Proofs.Returns

/-!
# A call and the return from it

`Calls` says that a call of a procedure with code succeeded, `Again` that its frame is current again
and still has its header.  A return from there finds in the header what the call put there, so it
gets back to the caller (`Back`): the registers come from the header, and the use counts and the
program stack pointer follow from the overlay table.
-/

namespace PSystem
namespace Machine

variable {m m₀ m₁ m₂ m₃ loaded : Machine} {segment procedure : UInt8} {p : Attributes}

/-! ## Calls that make a frame -/

/-- A call succeeds on a procedure with code whose attribute table says `p`.  The segment is brought
in first, unless it is the current one or segment 0. -/
structure Calls (segment procedure : UInt8) (p : Attributes) (m loaded m' : Machine) : Prop where
  brought : (m.BringsIn segment ∧ loadSegment segment m = .ok () loaded) ∨
    (¬ m.BringsIn segment ∧ loaded = m)
  entered : call segment procedure loaded = .ok .entered m'
  attributes : p.At loaded.memory m'.jtab

theorem Attributes.At.unique {p p' : Attributes} {memory : Memory} {jtab : Address}
    (h : p.At memory jtab) (h' : p'.At memory jtab) : p = p' := by
  have level := h.level.symm.trans h'.level
  have parameterBytes := h.parameterBytes.symm.trans h'.parameterBytes
  have dataBytes := h.dataBytes.symm.trans h'.dataBytes
  have entry := h.entry.symm.trans h'.entry
  cases p
  cases p'
  simp_all

/-- What a load changes: the entry of the segment, and memory below the program stack pointer. -/
structure LoadedFrom (segment : UInt8) (m loaded : Machine) : Prop where
  rest : loaded = { m with
    store := loaded.store, segments := loaded.segments, psp := loaded.psp }
  sp : loaded.store.sp = m.store.sp
  order : loaded.memory.order = m.memory.order
  mapped : ∀ a, (loaded.memory.cell a).mapped = (m.memory.cell a).mapped
  locked : ∀ a, (m.memory.cell a).readOnly = true →
    (loaded.memory.cell a).readOnly = true ∧ loaded.memory.peekByte a = m.memory.peekByte a
  psp : loaded.psp ≤ m.psp
  table : ∃ s g, m.segments.get? segment = some s ∧
    loaded.segments = m.segments.modify segment g ∧ (g s).useCount = s.useCount + 1 ∧
    (s.isResident = true → SegmentTable.codeAddresses (g s) = SegmentTable.codeAddresses s)

theorem loadedFrom_loadSegment (numbered : ∀ n s, m.segments.get? n = some s → s.number = n)
    (h : loadSegment segment m = .ok () loaded) : LoadedFrom segment m loaded := by
  rcases loadSegment_cases h with ⟨e, eq⟩ | ⟨s, hs, ⟨resident, eq⟩ | ⟨absent, brought⟩⟩
  · cases eq
  · cases eq
    refine ⟨rfl, rfl, rfl, fun _ => rfl, fun _ locked => ⟨locked, rfl⟩, UInt16.le_refl _, s,
      Segment.countUp, hs, rfl, rfl, ?_⟩
    intro _
    have still : (Segment.countUp s).isResident = true := by
      simp [Segment.isResident, Segment.countUp]
    simp only [SegmentTable.codeAddresses, resident, still]
    rfl
  · rcases bringIn_cases brought with ⟨e, eq⟩ | ⟨base, bytes, carved, -, written⟩
    · cases eq
    have number := numbered segment s hs
    cases hw : Memory.writeBytes base bytes m.memory with
    | error e memory =>
      rw [hw] at written
      cases written
    | ok u memory =>
      rw [hw] at written
      cases written
      have guarded : Memory.Guarded m.memory memory := Keeps.of_ok hw
      have below : base ≤ m.psp := by
        obtain ⟨sum, -⟩ := carve_ok carved
        rw [UInt16.le_iff_toNat_le]
        omega
      -- one use is counted, which is one more than none
      have unused : s.useCount = 0 := by
        simpa [Segment.isResident] using absent
      refine ⟨rfl, rfl, guarded.order, ?_, ?_, below, s, Segment.putAt base, hs, ?_, ?_, ?_⟩
      · intro a
        show ((memory.protect _ _ true).cell a).mapped = _
        rw [Memory.cell_protect]
        exact guarded.mapped a
      · intro a locked
        refine ⟨?_, Memory.peekByte_protect.trans (guarded.locked a locked)⟩
        show ((memory.protect _ _ true).cell a).readOnly = true
        rw [Memory.cell_protect]
        -- the cells of the new code are protected, and those that were stay so
        split
        · rfl
        · exact (guarded.readOnly a).trans locked
      · rw [← number]
        rfl
      · rw [unused]
        rfl
      · intro resident
        rw [absent] at resident
        cases resident

theorem LoadedFrom.regular (h : LoadedFrom segment m loaded) (regular : m.Regular) :
    loaded.Regular where
  heap := by
    rw [h.rest]
    exact regular.heap
  unmapped := fun a ha => (h.mapped a).trans (regular.unmapped a ha)
  top := UInt16.le_trans h.psp regular.top

/-- What a call leaves for the return. -/
structure Activated (segment : UInt8) (p : Attributes) (m m' : Machine) : Prop where
  low : Heap.start ≤ m'.mp
  below : m'.mp ≤ m.psp
  high : m'.mp.toNat + 14 ≤ 0xF000
  seg : m'.seg = segment
  depth : m'.depth = m.depth + 1
  base : m'.base = if p.level ≤ 0 then m'.mp else m.base
  header : ∃ psp link,
    Header m'.memory m'.mp psp link m.mp m.jtab m.seg.toUInt16 m.ipc m'.store.sp
  sp : m'.store.sp =
    if p.level ≤ 0 then m.store.sp + p.parameterBytes - 2 else m.store.sp + p.parameterBytes
  enough : p.parameterBytes.toNat ≤ m.store.depth * 2
  savedBase : p.level ≤ 0 → Store.limit ≤ m'.store.sp ∧ Store.limit ≤ m'.store.sp + 1 ∧
    m'.memory.peekWord m'.store.sp = m.base
  own : m.BringsIn segment → ∃ s, m.segments.get? segment = some s
  order : m'.memory.order = m.memory.order
  /-- Code is left alone. -/
  locked : ∀ a, (m.memory.cell a).readOnly = true →
    (m'.memory.cell a).readOnly = true ∧ m'.memory.peekByte a = m.memory.peekByte a
  /-- The entry of the segment counts one use more if the call brought it in. -/
  table : ∃ g, (∀ k, m'.segments.get? k =
      if segment = k then (m.segments.get? k).map g else m.segments.get? k) ∧
    ∀ s, m.segments.get? segment = some s →
      (g s).useCount = (if m.BringsIn segment then s.useCount + 1 else s.useCount) ∧
      (s.isResident = true ∨ ¬ m.BringsIn segment →
        SegmentTable.codeAddresses (g s) = SegmentTable.codeAddresses s)

theorem codeAddresses_withDataBase (frame : Address) (s : Segment) :
    SegmentTable.codeAddresses (Segment.withDataBase frame s) = SegmentTable.codeAddresses s :=
  rfl

/-- What a caller sees of the machine that a call starts on, be the segment brought in or there. -/
structure Staged (segment : UInt8) (m loaded : Machine) : Prop where
  regular : loaded.Regular
  sp : loaded.store.sp = m.store.sp
  psp : loaded.psp ≤ m.psp
  rest : loaded = { m with
    store := loaded.store, segments := loaded.segments, psp := loaded.psp }
  order : loaded.memory.order = m.memory.order
  locked : ∀ a, (m.memory.cell a).readOnly = true →
    (loaded.memory.cell a).readOnly = true ∧ loaded.memory.peekByte a = m.memory.peekByte a
  own : m.BringsIn segment → ∃ s, m.segments.get? segment = some s
  table : ∃ g, (∀ k, loaded.segments.get? k =
      if segment = k then (m.segments.get? k).map g else m.segments.get? k) ∧
    ∀ s, m.segments.get? segment = some s →
      (g s).useCount = (if m.BringsIn segment then s.useCount + 1 else s.useCount) ∧
      (s.isResident = true ∨ ¬ m.BringsIn segment →
        SegmentTable.codeAddresses (g s) = SegmentTable.codeAddresses s)

theorem Calls.staged (h : Calls segment procedure p m loaded m₁) (regular : m.Regular)
    (numbered : ∀ n s, m.segments.get? n = some s → s.number = n) :
    Staged segment m loaded := by
  rcases h.brought with ⟨away, load⟩ | ⟨here, rfl⟩
  · have from_ := loadedFrom_loadSegment numbered load
    obtain ⟨s, g, hs, table, count, code⟩ := from_.table
    refine
      { regular := from_.regular regular, sp := from_.sp, psp := from_.psp, rest := from_.rest
        order := from_.order, locked := from_.locked, own := fun _ => ⟨s, hs⟩, table := ⟨g, ?_, ?_⟩ }
    · intro k
      rw [table, SegmentTable.get?_modify]
    · intro s' hs'
      rw [hs] at hs'
      cases hs'
      rw [if_pos away]
      exact ⟨count, fun why => code (why.resolve_right fun not => not away)⟩
  · -- nothing is brought in, so the call starts on the machine as it is
    refine
      { regular := regular, sp := rfl, psp := UInt16.le_refl _, rest := rfl, order := rfl
        locked := fun _ locked => ⟨locked, rfl⟩, own := fun away => absurd away here
        table := ⟨id, ?_, ?_⟩ }
    · intro k
      simp
    · intro s _
      rw [if_neg here]
      exact ⟨rfl, fun _ => rfl⟩

theorem Calls.activated (h : Calls segment procedure p m loaded m₁) (regular : m.Regular)
    (numbered : ∀ n s, m.segments.get? n = some s → s.number = n) :
    Activated segment p m m₁ := by
  have staged := h.staged regular numbered
  obtain ⟨g, entries, own⟩ := staged.table
  have rest := staged.rest
  obtain ⟨jtab, entered⟩ : ∃ jtab, Entered p segment jtab loaded m₁ := by
    obtain ⟨jtab, p', -, entered⟩ := entered_of_call staged.regular h.entered
    have there : m₁.jtab = jtab := by rw [entered.registers]
    -- the attributes that the call read are the ones that were given
    have same := Attributes.At.unique (there ▸ h.attributes) entered.attributes
    exact ⟨jtab, same ▸ entered⟩
  obtain ⟨link, -, header⟩ := entered.header
  have registers := entered.registers
  have size := entered.size
  have lower := UInt16.le_iff_toNat_le.1 staged.psp
  have top := UInt16.le_iff_toNat_le.1 staged.regular.top
  change _ ≤ 0xF000 at top
  have guarded := entered.store.memory
  refine
    { low := UInt16.le_trans staged.regular.heap entered.room, below := ?_, high := by omega
      seg := by rw [registers], depth := by rw [registers, rest]
      base := by rw [registers, rest], header := ⟨loaded.psp, link, ?_⟩, sp := ?_, enough := ?_
      savedBase := ?_, own := staged.own, order := guarded.order.trans staged.order, locked := ?_
      table := ?_ }
  · rw [UInt16.le_iff_toNat_le]
    omega
  · rw [rest] at header
    exact header
  · rw [entered.sp, staged.sp]
  · have enough := entered.enough
    unfold Store.depth at enough ⊢
    rw [staged.sp] at enough
    exact enough
  · have saved := entered.savedBase
    rw [rest] at saved
    exact saved
  · intro a code
    obtain ⟨still, same⟩ := staged.locked a code
    exact ⟨(guarded.readOnly a).trans still, (guarded.locked a still).trans same⟩
  · have table : m₁.segments =
        if p.level ≤ 0 then loaded.segments.modify segment (Segment.withDataBase m₁.mp)
        else loaded.segments := by
      rw [registers]
    -- a base procedure also notes its frame in the entry of its segment
    by_cases level : p.level ≤ 0
    · rw [if_pos level] at table
      refine ⟨Segment.withDataBase m₁.mp ∘ g, ?_, ?_⟩
      · intro k
        rw [table, SegmentTable.get?_modify, entries k]
        split
        · rw [Option.map_map]
        · rfl
      · intro s hs
        obtain ⟨count, code⟩ := own s hs
        exact ⟨count, fun why => (codeAddresses_withDataBase _ _).trans (code why)⟩
    · rw [if_neg level] at table
      rw [table]
      exact ⟨g, entries, own⟩

/-! ## Calls as instructions make them -/

theorem Calls.callExternal (h : Calls segment procedure p m loaded m₁) :
    callExternal segment procedure m = .ok () m₁ := by
  rw [callExternal_of_brings h.brought, h.entered]

theorem calls_of_call (regular : loaded.Regular) (brought : m.Brings segment loaded)
    (h : call segment procedure loaded = .ok .entered m₁) :
    ∃ p, Calls segment procedure p m loaded m₁ := by
  obtain ⟨jtab, p, -, entered⟩ := entered_of_call regular h
  have there : m₁.jtab = jtab := by rw [entered.registers]
  exact ⟨p, brought, h, there ▸ entered.attributes⟩

/-! ## The frame again -/

/-- The frame of the call from `m₀` to `m₁` is current again in `m₂`: its header is as then, and so
are use counts and places of code in the overlay table. -/
structure Again (m₁ m₂ : Machine) : Prop where
  frame : m₂.mp = m₁.mp
  seg : m₂.seg = m₁.seg
  depth : m₂.depth = m₁.depth
  header : ∀ i < 14, m₂.memory.peekByte (m₁.mp + UInt16.ofNat i) =
    m₁.memory.peekByte (m₁.mp + UInt16.ofNat i)
  uses : ∀ k, (m₂.segments.get? k).map Segment.useCount = (m₁.segments.get? k).map Segment.useCount
  code : ∀ k, (m₂.segments.get? k).map SegmentTable.codeAddresses =
    (m₁.segments.get? k).map SegmentTable.codeAddresses
  order : m₂.memory.order = m₁.memory.order
  unmapped : ∀ a, Heap.start ≤ a → (m₂.memory.cell a).mapped = false
  stack : Store.Open m₂.memory

/-- The current procedure has its entry point in code, or there is no current procedure. -/
def EntersCode (m : Machine) : Prop :=
  m.jtab = 0 ∨ (m.memory.cell (m.jtab - 2)).readOnly = true ∧
    (m.memory.cell (m.jtab - 2 + 1)).readOnly = true

/-- The entry point of the caller is where it was: the call left code alone, and so did what came
after it. -/
theorem Again.entryOf_caller (again : Again m₁ m₂) (called : Activated segment p m₀ m₁)
    (regular : m₀.Regular) (unlocked : ∀ a, a < m₀.psp → (m₀.memory.cell a).readOnly = false)
    (enters : m₀.EntersCode)
    (code : ∀ a, (m₁.memory.cell a).readOnly = true → m₂.memory.peekByte a = m₁.memory.peekByte a) :
    entryOf m₂.memory m₀.jtab = entryOf m₀.memory m₀.jtab := by
  have byte {a : Address} (locked : (m₀.memory.cell a).readOnly = true) :
      m₂.memory.readByte a = m₀.memory.readByte a := by
    -- code lies above the program stack pointer, so above all devices
    have above : m₀.psp ≤ a := by
      refine UInt16.not_lt.1 fun below => ?_
      rw [unlocked a below] at locked
      cases locked
    have start : Heap.start ≤ a := UInt16.le_trans (UInt16.le_trans called.low called.below) above
    obtain ⟨locked₁, same₁⟩ := called.locked a locked
    rw [Memory.readByte_unmapped (ne_zero_of_start start) (again.unmapped a start),
      Memory.readByte_unmapped (ne_zero_of_start start) (regular.unmapped a start),
      code a locked₁, same₁]
  have order : m₂.memory.order = m₀.memory.order := again.order.trans called.order
  unfold entryOf
  rcases enters with outermost | ⟨first, second⟩
  · rw [if_pos outermost, if_pos outermost]
  · unfold AttributeTable.entry AttributeTable.follow Memory.readWord
    rw [byte first, byte second, order]

/-- What the header of the call from `m₀` to `m₁` says about the caller. -/
def callerOf (m₀ m₁ : Machine) : Caller where
  mp := m₀.mp
  jtab := m₀.jtab
  seg := m₀.seg
  ipc := m₀.ipc
  sp := m₁.store.sp

theorem Again.readWord (again : Again m₁ m₂) (low : Heap.start ≤ m₁.mp)
    (high : m₁.mp.toNat + 14 ≤ 0xF000) {i : Nat} (hi : i + 1 < 14) :
    m₂.memory.readWord (m₁.mp + UInt16.ofNat i) =
      .ok (m₁.memory.peekWord (m₁.mp + UInt16.ofNat i)) := by
  rw [readWord_above again.unmapped low (by omega)]
  have second := again.header (i + 1) hi
  rw [UInt16.ofNat_add, ← UInt16.add_assoc] at second
  rw [Memory.peekWord_congr again.order (again.header i (by omega)) second]

theorem Again.readCaller (again : Again m₁ m₂) (called : Activated segment p m₀ m₁) :
    readCaller m₂.memory m₂.mp = .ok (callerOf m₀ m₁) := by
  obtain ⟨psp, link, header⟩ := called.header
  have word {i : Nat} (hi : i + 1 < 14) := again.readWord called.low called.high hi
  have mp := (word (i := 4) (by decide)).trans (congrArg _ header.dynamicLink)
  have jtab := (word (i := 6) (by decide)).trans (congrArg _ header.savedJtab)
  have seg := (word (i := 8) (by decide)).trans (congrArg _ header.savedSeg)
  have ipc := (word (i := 10) (by decide)).trans (congrArg _ header.savedIpc)
  have sp := (word (i := 12) (by decide)).trans (congrArg _ header.savedSp)
  have narrow : m₀.seg.toUInt16.toUInt8 = m₀.seg := UInt8.toUInt8_toUInt16 _
  -- the header is read word by word, and each word is the one that the call wrote
  rw [again.frame]
  show (do
    let mp ← m₂.memory.readWord (m₁.mp + UInt16.ofNat 4)
    let jtab ← m₂.memory.readWord (m₁.mp + UInt16.ofNat 6)
    let seg ← m₂.memory.readWord (m₁.mp + UInt16.ofNat 8)
    let ipc ← m₂.memory.readWord (m₁.mp + UInt16.ofNat 10)
    let sp ← m₂.memory.readWord (m₁.mp + UInt16.ofNat 12)
    return ({ mp, jtab, seg := seg.toUInt8, ipc, sp } : Caller) : Except Fault Caller) = _
  rw [mp, jtab, seg, ipc, sp]
  show Except.ok ({ mp := _, jtab := _, seg := _, ipc := _, sp := _ } : Caller) = _
  rw [narrow]
  rfl

/-- The words of a frame that a return pushes. -/
def resultsOf (m : Memory) (frame : Address) (n : Nat) : List Word :=
  (List.range n).map fun i => m.peekWord (Frame.word frame (UInt16.ofNat (i + 1)))

theorem word_succ (frame : Address) (i : Nat) :
    Frame.word frame (UInt16.ofNat (i + 1)) = frame + UInt16.ofNat (14 + 2 * i) := by
  have step : UInt16.ofNat (i + 1) - 1 = UInt16.ofNat i := by
    rw [UInt16.ofNat_add]
    exact UInt16.add_sub_cancel _ _
  rw [Frame.word, step, UInt16.ofNat_add, UInt16.ofNat_mul, UInt16.mul_comm, UInt16.add_assoc]
  rfl

theorem Again.frameWords (again : Again m₁ m₂) (called : Activated segment p m₀ m₁)
    (results : UInt8) : frameWords m₂.memory m₂.mp results.toNat =
      .ok (resultsOf m₂.memory m₁.mp results.toNat) := by
  have few : results.toNat < 2 ^ 8 := results.toNat_lt
  have high := called.high
  rw [again.frame]
  apply Memory.mapM_eq_ok
  intro i hi
  have hi := List.mem_range.1 hi
  rw [word_succ]
  exact readWord_above again.unmapped called.low (by omega)

/-! ## Back in the caller -/

/-- The machine is back in the caller of the call from `m₀` to `m₁`; its code starts at `entry`. -/
structure Back (m₀ m₁ m₂ : Machine) (entry : Address) (m : Machine) : Prop where
  mp : m.mp = m₀.mp
  base : m.base = m₂.base
  seg : m.seg = m₀.seg
  jtab : m.jtab = m₀.jtab
  ipcBase : m.ipcBase = entry
  ipc : m.ipc = m₀.ipc
  depth : m.depth = m₀.depth
  psp : m.psp = m₀.reclaimed.psp
  uses : ∀ k, (m.segments.get? k).map Segment.useCount =
    (m₀.segments.get? k).map Segment.useCount
  sp : m.store.sp = m₁.store.sp
  bytes : ∀ a, m.memory.peekByte a = m₂.memory.peekByte a
  order : m.memory.order = m₂.memory.order
  stack : Store.Open m.memory

theorem codeAddresses_countDown {s : Segment} (more : 1 < s.useCount) :
    SegmentTable.codeAddresses (Segment.countDown s) = SegmentTable.codeAddresses s := by
  have before : s.isResident = true := decide_eq_true (by omega)
  have after : (Segment.countDown s).isResident = true :=
    decide_eq_true (Nat.sub_pos_of_lt more)
  simp only [SegmentTable.codeAddresses, before, after]
  rfl

theorem codeAddresses_of_unused {s : Segment} (unused : s.useCount = 0) :
    SegmentTable.codeAddresses s = [] := by
  simp [SegmentTable.codeAddresses, Segment.isResident, unused]

/-- The called segment has the use count that the call left it with. -/
theorem Again.counted (again : Again m₁ m₂) (called : Activated segment p m₀ m₁) {s₀ : Segment}
    (h₀ : m₀.segments.get? segment = some s₀) :
    ∃ s₂, m₂.segments.get? segment = some s₂ ∧
      s₂.useCount = (if m₀.BringsIn segment then s₀.useCount + 1 else s₀.useCount) ∧
      (s₀.isResident = true ∨ ¬ m₀.BringsIn segment →
        SegmentTable.codeAddresses s₂ = SegmentTable.codeAddresses s₀) := by
  obtain ⟨g, entries, own⟩ := called.table
  have uses := again.uses segment
  have code := again.code segment
  rw [entries segment, if_pos rfl, h₀] at uses code
  obtain ⟨s₂, h₂, count₂⟩ := Option.map_eq_some_iff.1 uses
  rw [h₂] at code
  have code₂ : SegmentTable.codeAddresses s₂ = SegmentTable.codeAddresses (g s₀) := by
    simpa using code
  obtain ⟨count, same⟩ := own s₀ h₀
  exact ⟨s₂, h₂, count₂.trans count, fun why => code₂.trans (same why)⟩

/-- The entry of a segment other than the called one is as before the call. -/
theorem Again.entry_other (again : Again m₁ m₂) (called : Activated segment p m₀ m₁) {k : UInt8}
    (other : segment ≠ k) :
    (m₂.segments.get? k).map Segment.useCount = (m₀.segments.get? k).map Segment.useCount ∧
      (m₂.segments.get? k).toList.flatMap SegmentTable.codeAddresses =
        (m₀.segments.get? k).toList.flatMap SegmentTable.codeAddresses := by
  obtain ⟨g, entries, -⟩ := called.table
  have uses := again.uses k
  have code := again.code k
  rw [entries k, if_neg other] at uses code
  refine ⟨uses, ?_⟩
  cases h₀ : m₀.segments.get? k with
  | none =>
    rw [h₀] at uses
    have none₂ : m₂.segments.get? k = none := by simpa using uses
    rw [none₂]
  | some s₀ =>
    rw [h₀] at code
    obtain ⟨s₂, h₂, code₂⟩ := Option.map_eq_some_iff.1 code
    simp [h₂, code₂]

/-- A use count and the places of code go back to what they were before the call. -/
theorem Again.entry_back (again : Again m₁ m₂) (called : Activated segment p m₀ m₁) (k : UInt8) :
    let s₃ := if m₀.BringsIn segment ∧ segment = k then (m₂.segments.get? k).map Segment.countDown
      else m₂.segments.get? k
    s₃.map Segment.useCount = (m₀.segments.get? k).map Segment.useCount ∧
      s₃.toList.flatMap SegmentTable.codeAddresses =
        (m₀.segments.get? k).toList.flatMap SegmentTable.codeAddresses := by
  dsimp only
  by_cases here : segment = k
  rotate_left
  · rw [if_neg (fun both => here both.2)]
    exact again.entry_other called here
  subst here
  cases h₀ : m₀.segments.get? segment with
  | none =>
    obtain ⟨g, entries, -⟩ := called.table
    have uses := again.uses segment
    rw [entries segment, if_pos rfl, h₀] at uses
    have none₂ : m₂.segments.get? segment = none := by simpa using uses
    simp [none₂]
  | some s₀ =>
    obtain ⟨s₂, h₂, count, same⟩ := again.counted called h₀
    rw [h₂]
    -- the use that the call counted is the one that the return gives up
    by_cases away : m₀.BringsIn segment
    · rw [if_pos ⟨away, rfl⟩]
      rw [if_pos away] at count
      have down : (Segment.countDown s₂).useCount = s₀.useCount := by
        simp [Segment.countDown, count]
      refine ⟨by simp [down], ?_⟩
      simp only [Option.map_some, Option.toList_some, List.flatMap_cons, List.flatMap_nil,
        List.append_nil]
      -- a segment that was absent before the call is absent again
      by_cases unused : s₀.useCount = 0
      · rw [codeAddresses_of_unused unused, codeAddresses_of_unused (down.trans unused)]
      · have resident : s₀.isResident = true := by
          simp only [Segment.isResident, decide_eq_true_eq]
          omega
        rw [codeAddresses_countDown (by omega), same (.inl resident)]
    · rw [if_neg (fun both => away both.1)]
      rw [if_neg away] at count
      refine ⟨by simp [count], ?_⟩
      simp [same (.inr away)]

/-- Giving up a use only takes protection away. -/
theorem open_memoryAfterRelease {memory : Memory} (h : Store.Open memory) (s : Segment) :
    Store.Open (memoryAfterRelease memory s) := by
  unfold memoryAfterRelease
  split
  · intro a ha
    have free := h a ha
    refine ⟨free.valid, ?_, ?_⟩
    · rw [Memory.cell_protect]
      exact free.unmapped
    · rw [Memory.cell_protect]
      dsimp only
      split
      · rfl
      · exact free.unlocked
  · exact h

theorem leaves_callerOf (again : Again m₁ m₂) (called : Activated segment p m₀ m₁) :
    m₂.Leaves (callerOf m₀ m₁) ↔ m₀.BringsIn segment := by
  unfold Leaves BringsIn
  rw [again.seg, called.seg]
  rfl

/-- Going back to the caller finds the caller as it was, but for the base register. -/
theorem Again.resume (again : Again m₁ m₂) (called : Activated segment p m₀ m₁) {entry : Address}
    (found : entryOf m₂.memory m₀.jtab = .ok entry) :
    ∃ m, resume (callerOf m₀ m₁) m₂ = .ok () m ∧ Back m₀ m₁ m₂ entry m := by
  have depth : m₂.depth - 1 = m₀.depth := by
    rw [again.depth, called.depth]
    rfl
  have table := again.entry_back called
  rcases resume_cases (rfl : Machine.resume (callerOf m₀ m₁) m₂ = _) with
    ⟨e, fault, -⟩ | ⟨entry', found', outcome⟩
  · cases found.symm.trans fault
  cases found.symm.trans found'
  -- the return leaves a segment exactly if the call brought it in
  rcases outcome with ⟨stays, eq⟩ | ⟨leaves, outcome⟩
  · have here : ¬ m₀.BringsIn segment := fun away => stays ((leaves_callerOf again called).2 away)
    have entries (k : UInt8) := table k
    simp only [here, false_and, if_false] at entries
    refine ⟨_, eq,
      { mp := rfl, base := rfl, seg := rfl, jtab := rfl, ipcBase := rfl, ipc := rfl, depth := depth
        psp := ?_, uses := fun k => (entries k).1, sp := rfl, bytes := fun _ => rfl, order := rfl
        stack := again.stack }⟩
    show min _ (m₂.segments.residentFloor programTop) = min _ (m₀.segments.residentFloor programTop)
    rw [SegmentTable.residentFloor_congr fun k => (entries k).2]
    rfl
  · have away := (leaves_callerOf again called).1 leaves
    have seg : m₂.seg = segment := again.seg.trans called.seg
    rw [seg] at outcome
    rcases outcome with ⟨-, absent⟩ | ⟨s, hs, resident, eq⟩
    · -- the call counted a use of the segment, which is still counted
      exfalso
      obtain ⟨s₀, h₀⟩ := called.own away
      obtain ⟨s₂, h₂, count, -⟩ := again.counted called h₀
      have unused : s₂.useCount = 0 := by
        simpa [Segment.isResident] using absent s₂ h₂
      rw [if_pos away] at count
      omega
    · have entries (k : UInt8) : ((m₂.segments.modify segment Segment.countDown).get? k).map
            Segment.useCount = (m₀.segments.get? k).map Segment.useCount ∧
          ((m₂.segments.modify segment Segment.countDown).get? k).toList.flatMap
            SegmentTable.codeAddresses =
          (m₀.segments.get? k).toList.flatMap SegmentTable.codeAddresses := by
        have entry := table k
        simp only [away, true_and] at entry
        rw [SegmentTable.get?_modify]
        exact entry
      refine ⟨_, eq,
        { mp := rfl, base := rfl, seg := rfl, jtab := rfl, ipcBase := rfl, ipc := rfl
          depth := depth, psp := ?_, uses := fun k => (entries k).1, sp := rfl
          bytes := peekByte_memoryAfterRelease _ _, order := order_memoryAfterRelease _ _
          stack := open_memoryAfterRelease again.stack s }⟩
      show min _ ((m₂.segments.modify segment Segment.countDown).residentFloor programTop) =
        min _ (m₀.segments.residentFloor programTop)
      rw [SegmentTable.residentFloor_congr fun k => (entries k).2]
      rfl

/-! ## Results -/

theorem pushResults_open (values : List Word) (stack : Store.Open m.memory)
    (room : Store.limit.toNat + 2 * values.length ≤ m.store.sp.toNat) :
    ∃ m₃, handOver values false m = .ok () m₃ ∧
      m₃ = { m with store := m₃.store, halted := m₃.halted } ∧
      m₃.store.sp = m.store.sp - UInt16.ofNat (2 * values.length) ∧
      ∀ i (hi : i < values.length),
        m₃.memory.peekWord (m₃.store.sp + UInt16.ofNat (2 * i)) = values[i] := by
  obtain ⟨s, pushed, sp, words⟩ := Store.pushBlock_open (s := m.store) values stack room
  have lifted : onStore (Store.pushBlock values) m = .ok () { m with store := s } := by
    unfold onStore
    rw [pushed]
  have done : handOver values false m = .ok ()
      (if m.depth = 0 then { m with store := s, halted := true } else { m with store := s }) := by
    rw [handOver_plain]
    exact liftM_bind_of_ok lifted
  refine ⟨_, done, ?_⟩
  by_cases outermost : m.depth = 0
  · rw [if_pos outermost]
    exact ⟨rfl, sp, words⟩
  · rw [if_neg outermost]
    exact ⟨rfl, sp, words⟩

/-- The registers and use counts of a caller are as before its call. -/
structure Restored (m₀ m : Machine) : Prop where
  mp : m.mp = m₀.mp
  base : m.base = m₀.base
  seg : m.seg = m₀.seg
  jtab : m.jtab = m₀.jtab
  ipcBase : m.ipcBase = m₀.ipcBase
  ipc : m.ipc = m₀.ipc
  psp : m.psp = m₀.psp
  depth : m.depth = m₀.depth
  uses : ∀ k, (m.segments.get? k).map Segment.useCount =
    (m₀.segments.get? k).map Segment.useCount

theorem length_resultsOf (memory : Memory) (frame : Address) (n : Nat) :
    (resultsOf memory frame n).length = n := by
  simp [resultsOf]

/-- A return from the frame that is current again: it gets to the caller and hands over. -/
theorem Again.returnFrom (again : Again m₁ m₂) (called : Activated segment p m₀ m₁)
    (results : UInt8) (baseProcedure : Bool) :
    (∃ e m', entryOf m₂.memory m₀.jtab = .error e ∧
      returnFrom results baseProcedure m₂ = .error (.trap e) m') ∨
    ∃ entry m, entryOf m₂.memory m₀.jtab = .ok entry ∧ Back m₀ m₁ m₂ entry m ∧
      returnFrom results baseProcedure m₂ =
        handOver (resultsOf m₂.memory m₁.mp results.toNat) baseProcedure m := by
  have caller := again.readCaller called
  have words := again.frameWords called results
  rcases returnFrom_cases (rfl : Machine.returnFrom results baseProcedure m₂ = _) with
    ⟨e, -, failed | failed⟩ | ⟨caller', values, hc, hv, outcome⟩
  · cases caller.symm.trans failed
  · cases words.symm.trans failed
  cases caller.symm.trans hc
  cases words.symm.trans hv
  -- going back fails exactly if the entry point of the caller cannot be read
  cases found : entryOf m₂.memory m₀.jtab with
  | error e =>
    rcases outcome with ⟨e', m', stuck, hr⟩ | ⟨m', back, -⟩
    · rcases resume_cases stuck with ⟨e'', fault, eq⟩ | ⟨entry, found', -⟩
      · cases eq
        cases found.symm.trans fault
        exact .inl ⟨_, _, rfl, hr⟩
      · cases found.symm.trans found'
    · rcases resume_cases back with ⟨e'', fault, eq⟩ | ⟨entry, found', -⟩
      · cases eq
      · cases found.symm.trans found'
  | ok entry =>
    obtain ⟨m, resumed, back⟩ := again.resume called found
    rcases outcome with ⟨e', m', stuck, -⟩ | ⟨m', resumed', hr⟩
    · cases resumed.symm.trans stuck
    · cases resumed.symm.trans resumed'
      exact .inr ⟨entry, m, rfl, back, hr.symm⟩

end Machine
end PSystem
