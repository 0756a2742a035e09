import PSystem.Proofs.Returns

/-!
# What no program can break

`Secure` holds of a started machine whatever its program does, also when the program overwrites the
headers of its own frames.  `Settles` is the step relation behind it: a secure machine stays secure,
and no piece of code appears, moves or changes.  Everything but the load of a segment settles.
-/

namespace PSystem
namespace Machine

variable {m m' : Machine} {n segment procedure : UInt8} {s : Segment} {jtab : Address}
  {p : Attributes}

/-- What holds of a started machine. -/
structure Secure (m : Machine) : Prop where
  layout : CodeLayout m.segments m.memory m.psp m.heap
  kernel : ∃ s, m.segments.get? 0 = some s ∧ s.isResident = true
  based : m.base = 0 ∨ Heap.start ≤ m.base ∧ m.base < programTop
  hosted : m.Hosted

theorem Secure.regular (h : m.Secure) : m.Regular :=
  ⟨h.layout.heap, h.layout.unmapped, h.layout.top⟩

/-- Segment 0 is always in memory, so it is not what is brought in. -/
theorem Secure.other_of_absent (h : m.Secure) (hs : m.segments.get? n = some s)
    (absent : s.isResident = false) : n ≠ 0 := by
  rintro rfl
  obtain ⟨s₀, hs₀, resident⟩ := h.kernel
  rw [hs] at hs₀
  cases hs₀
  rw [absent] at resident
  cases resident

/-- A secure machine stays secure, and code that is there then was there before. -/
def Settles (m m' : Machine) : Prop :=
  m.Secure → m'.Secure ∧
    ∀ part p, m'.segments.placement? part = some p → m.segments.placement? part = some p ∧
      ∀ a, p.Covers a → m'.memory.peekByte a = m.memory.peekByte a

instance : IsPreorder Machine Settles where
  refl m secure := ⟨secure, fun _ _ placed => ⟨placed, fun _ _ => rfl⟩⟩
  trans m m' m'' h h' secure := by
    obtain ⟨secure', before⟩ := h secure
    obtain ⟨secure'', before'⟩ := h' secure'
    refine ⟨secure'', ?_⟩
    intro part p placed
    obtain ⟨placed', same'⟩ := before' part p placed
    obtain ⟨placed'', same⟩ := before part p placed'
    exact ⟨placed'', fun a ha => (same' a ha).trans (same a ha)⟩

/-! ## Writes and registers -/

theorem Settles.of_quiet (h : Quiet m m') : Settles m m' := by
  intro secure
  have low := h.heap secure.layout.heap
  have layout := secure.layout.guarded h.memory low
  -- The layout reads the table, the stack pointer, the heap and the locks, none of which a quiet
  -- change moves.
  have secure' : m'.Secure := by
    refine ⟨?_, ?_, ?_, ?_⟩
    · rw [h.segments, h.psp]
      exact layout
    · rw [h.segments]
      exact secure.kernel
    · rw [h.base]
      exact secure.based
    · unfold Hosted
      rw [h.bound]
      exact secure.hosted
  refine ⟨secure', ?_⟩
  intro part p placed
  rw [h.segments] at placed
  refine ⟨placed, ?_⟩
  intro a covers
  exact h.memory.locked a ((secure.layout.marked a).2 ⟨part, p, placed, covers⟩)

/-- What the host shows is not in the cells that code lies in. -/
theorem Settles.observe (m : Machine) (host : HostView) : Settles m (m.observe host) := by
  intro secure
  have layout := secure.layout
  have layout' : CodeLayout m.segments (m.observe host).memory m.psp m.heap :=
    ⟨layout.entries, layout.heap, layout.unmapped, layout.top, layout.above, layout.below, layout.apart,
      layout.marked⟩
  exact ⟨⟨layout', secure.kernel, secure.based, secure.hosted⟩, fun _ _ placed => ⟨placed, fun _ _ => rfl⟩⟩

/-- Changes of registers that neither memory nor code depend on. -/
theorem Settles.of_same (memory : m'.memory = m.memory) (segments : m'.segments = m.segments)
    (psp : m'.psp = m.psp) (heap : m'.heap = m.heap) (base : m'.base = m.base)
    (bound : m'.bound = m.bound) : Settles m m' := by
  intro secure
  have secure' : m'.Secure := by
    refine ⟨?_, ?_, ?_, ?_⟩
    · rw [memory, segments, psp, heap]
      exact secure.layout
    · rw [segments]
      exact secure.kernel
    · rw [base]
      exact secure.based
    · unfold Hosted
      rw [bound]
      exact secure.hosted
  refine ⟨secure', ?_⟩
  intro part p placed
  rw [segments] at placed
  exact ⟨placed, fun a _ => by rw [memory]⟩

instance settles_of_quiet {α ε : Type} (x : EStateM ε Machine α) [quiet : Keeps Quiet x] :
    Keeps Settles x :=
  quiet.mono fun _ _ => Settles.of_quiet

/-! ## The overlay table -/

theorem settles_reclaimed : Settles m m.reclaimed := by
  intro secure
  -- space is taken back up to the lowest piece of code at most
  have floor : m.reclaimed.psp ≤ m.residentFloor := SegmentTable.min_le_right _ _
  have top : m.reclaimed.psp ≤ programTop :=
    UInt16.le_trans floor secure.layout.floor_le_top
  refine ⟨⟨secure.layout.moved floor top, secure.kernel, secure.based, secure.hosted⟩, ?_⟩
  intro part p placed
  exact ⟨placed, fun _ _ => rfl⟩

/-- A change of an entry that leaves its code where it is. -/
theorem settles_modifySegment {f : Segment → Segment}
    (plan : ∀ s, (f s).number = s.number ∧ (f s).size = s.size ∧
      (f s).extension.map Extension.size = s.extension.map Extension.size)
    (same : ∀ s, m.segments.get? n = some s → (f s).isResident = s.isResident ∧
      (f s).placement = s.placement ∧ (f s).extensionPlacement? = s.extensionPlacement?) :
    Settles m (m.withTable (m.segments.modify n f)) := by
  intro secure
  have placement := SegmentTable.placement?_modify same
  have layout := secure.layout.retabled (secure.layout.entries.modify fun s _ => plan s) placement
  have kernel : ∃ s, (m.segments.modify n f).get? 0 = some s ∧ s.isResident = true := by
    obtain ⟨s, hs, resident⟩ := secure.kernel
    by_cases zero : n = 0
    · subst zero
      exact ⟨f s, SegmentTable.get?_modify_self hs, (same s hs).1.trans resident⟩
    · exact ⟨s, (SegmentTable.get?_modify_of_ne zero).trans hs, resident⟩
  refine ⟨⟨layout, kernel, secure.based, secure.hosted⟩, ?_⟩
  intro part p placed
  exact ⟨placement part ▸ placed, fun _ _ => rfl⟩

theorem settles_countUp (hs : m.segments.get? n = some s) (resident : s.isResident = true) :
    Settles m (m.withTable (m.segments.modify n Segment.countUp)) := by
  apply settles_modifySegment
  · intro s
    exact ⟨rfl, rfl, rfl⟩
  · intro s' hs'
    rw [hs] at hs'
    cases hs'
    refine ⟨?_, rfl, rfl⟩
    rw [resident]
    simp [Segment.isResident, Segment.countUp]

theorem settles_afterRelease (hs : m.segments.get? n = some s) (resident : s.isResident = true)
    (other : n ≠ 0) : Settles m (m.afterRelease n s) := by
  by_cases last : s.useCount = 1
  · intro secure
    have memory : (m.afterRelease n s).memory =
        m.memory.protect s.codeBase (s.codeBase + s.footprint) false := if_pos last
    have layout := secure.layout.released hs last other
    have kernel : ∃ s, (m.segments.modify n Segment.countDown).get? 0 = some s ∧
        s.isResident = true := by
      obtain ⟨s₀, hs₀, resident₀⟩ := secure.kernel
      exact ⟨s₀, (SegmentTable.get?_modify_of_ne other).trans hs₀, resident₀⟩
    have secure' : (m.afterRelease n s).Secure := by
      refine ⟨?_, kernel, secure.based, secure.hosted⟩
      rw [memory]
      exact layout
    refine ⟨secure', ?_⟩
    intro part p placed
    have place := CodeLayout.placement?_countDown hs last other part
    rw [show (m.afterRelease n s).segments = m.segments.modify n Segment.countDown from rfl,
      place] at placed
    split at placed
    · cases placed
    · refine ⟨placed, fun a _ => ?_⟩
      rw [memory, Memory.peekByte_protect]
  · have memory : memoryAfterRelease m.memory s = m.memory := if_neg last
    have same : m.afterRelease n s = m.withTable (m.segments.modify n Segment.countDown) := by
      unfold afterRelease
      rw [memory]
      rfl
    rw [same]
    apply settles_modifySegment
    · intro s
      exact ⟨rfl, rfl, rfl⟩
    · intro s' hs'
      rw [hs] at hs'
      cases hs'
      -- another use remains, so the segment stays where it is
      have used : 0 < s.useCount := of_decide_eq_true resident
      have remain : 0 < s.useCount - 1 := by omega
      have still : (Segment.countDown s).isResident = true := decide_eq_true remain
      exact ⟨still.trans resident.symm, rfl, rfl⟩

/-! ## Calls and returns -/

/-- The program stack pointer moves down to a frame, which may become the base. -/
theorem settles_lowered {frame base : Address} (below : frame < m.psp) (above : m.heap.np ≤ frame)
    (choice : base = m.base ∨ base = frame) :
    Settles m { m with psp := frame, base := base } := by
  intro secure
  have lowered := secure.layout.lowered (UInt16.le_of_lt below)
  have start := UInt16.le_trans secure.layout.heap above
  have top := UInt16.lt_of_lt_of_le below secure.layout.top
  have based : base = 0 ∨ Heap.start ≤ base ∧ base < programTop := by
    rcases choice with rfl | rfl
    · exact secure.based
    · exact .inr ⟨start, top⟩
  exact ⟨⟨lowered, secure.kernel, based, secure.hosted⟩,
    fun _ _ placed => ⟨placed, fun _ _ => rfl⟩⟩

theorem settles_withDataBase (frame : Address) :
    Settles m (m.withTable (m.segments.modify n (Segment.withDataBase frame))) :=
  settles_modifySegment (fun _ => ⟨rfl, rfl, rfl⟩) fun _ _ => ⟨rfl, rfl, rfl⟩

theorem settles_entered (entered : Entered p segment jtab m m') : Settles m m' := by
  have below : m'.mp < m.psp := by
    have size := entered.size
    rw [UInt16.lt_iff_toNat_lt]
    omega
  let written : Machine := { m with store := m'.store }
  have first : Settles m written := Settles.of_quiet ⟨entered.store, id, rfl⟩
  have registers := entered.registers
  -- the call in steps: writes, the frame, the entry of a base procedure, and the registers
  by_cases base : p.level ≤ 0
  · simp only [if_pos base] at registers
    have second := settles_lowered (m := written) below entered.room (.inr rfl)
    have third := settles_withDataBase (m := { written with psp := m'.mp, base := m'.mp })
      (n := segment) m'.mp
    have last : Settles (withTable { written with psp := m'.mp, base := m'.mp }
        (m.segments.modify segment (Segment.withDataBase m'.mp))) m' := by
      rw [registers]
      exact Settles.of_same rfl rfl rfl rfl rfl rfl
    exact IsTrans.trans _ _ _ first (IsTrans.trans _ _ _ second (IsTrans.trans _ _ _ third last))
  · simp only [if_neg base] at registers
    have second := settles_lowered (m := written) below entered.room (.inl rfl)
    have last : Settles { written with psp := m'.mp, base := m.base } m' := by
      rw [registers]
      exact Settles.of_same rfl rfl rfl rfl rfl rfl
    exact IsTrans.trans _ _ _ first (IsTrans.trans _ _ _ second last)

/-- Settling may be shown for secure machines only. -/
theorem Settles.of_secure (h : m.Secure → Settles m m') : Settles m m' :=
  fun secure => h secure secure

instance settles_call (segment procedure : UInt8) : Keeps Settles (call segment procedure) := by
  constructor
  intro m
  apply Settles.of_secure
  intro secure
  rcases call_cases secure.regular secure.hosted.quietly (rfl : call segment procedure m = _) with
    ⟨e, m', h, kept⟩ | ⟨-, kept, -⟩ | ⟨jtab, p, m', -, -, h, entered⟩
  · rw [h]
    exact Settles.of_quiet kept.quiet
  · exact Settles.of_quiet kept.quiet
  · rw [h]
    exact settles_entered entered

theorem settles_leaveSegment (other : n ≠ 0) : Keeps Settles (leaveSegment n) :=
  keeps_leaveSegment (fun _ _ hs resident => settles_afterRelease hs resident other)
    fun _ => settles_reclaimed

instance settles_resume (caller : Caller) : Keeps Settles (resume caller) :=
  keeps_resume (fun _ => Settles.of_same rfl rfl rfl rfl rfl rfl)
    (fun _ _ => Settles.of_same rfl rfl rfl rfl rfl rfl)
    (fun _ _ _ other hs resident => settles_afterRelease hs resident other)
    fun _ => settles_reclaimed

instance settles_restoreBase : Keeps Settles restoreBase := by
  constructor
  intro m
  have moved : Settles m (m.withPointer (m.store.sp + 2)) := Settles.of_same rfl rfl rfl rfl rfl rfl
  rcases restoreBase_cases (rfl : restoreBase m = _) with
    ⟨e, h, -⟩ | ⟨base, -, -, ⟨valid, h⟩ | ⟨-, h⟩⟩
  · rw [h]
    exact Std.Refl.refl m
  · rw [h]
    refine IsTrans.trans _ _ _ moved ?_
    intro secure
    -- A base is only taken over when it is valid, which is what the layout asks of it.
    have based : base = 0 ∨ Heap.start ≤ base ∧ base < programTop := by
      unfold ValidBase at valid
      split at valid
      · rename_i zero
        exact .inl zero
      · exact .inr valid
    exact ⟨⟨secure.layout, secure.kernel, based, secure.hosted⟩,
      fun _ _ placed => ⟨placed, fun _ _ => rfl⟩⟩
  · rw [h]
    exact moved

instance settles_handOver (values : List Word) (baseProcedure : Bool) :
    Keeps Settles (handOver values baseProcedure) :=
  keeps_handOver (R := Settles) (fun _ => Settles.of_same rfl rfl rfl rfl rfl rfl) values baseProcedure

instance settles_returnFrom (results : UInt8) (baseProcedure : Bool) :
    Keeps Settles (returnFrom results baseProcedure) :=
  keeps_returnFrom results

/-! ## Loads -/

/-- A secure machine stays secure, and code that is there then was there before, or was read from
its disk. -/
def Grows (m m' : Machine) : Prop :=
  m.Secure → m'.Secure ∧
    ∀ part p, m'.segments.placement? part = some p →
      (m.segments.placement? part = some p ∧
        ∀ a, p.Covers a → m'.memory.peekByte a = m.memory.peekByte a) ∨
      (m.segments.placement? part = none ∧ Heap.start ≤ p.base ∧
        ∃ bytes, m.fetchCode p.unit p.block p.size = .ok bytes ∧ m'.memory.Holds p.base bytes)

theorem Settles.grows (h : Settles m m') : Grows m m' := by
  intro secure
  obtain ⟨secure', before⟩ := h secure
  exact ⟨secure', fun part p placed => .inl (before part p placed)⟩

theorem Grows.trans_settles {m'' : Machine} (h : Grows m m') (h' : Settles m' m'') :
    Grows m m'' := by
  intro secure
  obtain ⟨secure', before⟩ := h secure
  obtain ⟨secure'', before'⟩ := h' secure'
  refine ⟨secure'', ?_⟩
  intro part p placed
  obtain ⟨placed', same'⟩ := before' part p placed
  rcases before part p placed' with ⟨placed'', same⟩ | ⟨new, above, bytes, read, holds⟩
  · exact .inl ⟨placed'', fun a ha => (same' a ha).trans (same a ha)⟩
  · refine .inr ⟨new, above, bytes, read, ?_⟩
    intro i hi
    -- the bytes that were read lie in the cells of the piece
    have inside := secure'.layout.covers placed' (length_of_fetchCode read ▸ hi)
    exact (same' _ inside).trans (holds i hi)

/-- What comes before a load leaves table and disks alone. -/
theorem Settles.trans_grows {m'' : Machine} (h : Settles m m') (table : m'.segments = m.segments)
    (disk : m'.storage = m.storage) (h' : Grows m' m'') : Grows m m'' := by
  intro secure
  obtain ⟨secure', before⟩ := h secure
  obtain ⟨secure'', before'⟩ := h' secure'
  refine ⟨secure'', ?_⟩
  intro part p placed
  rcases before' part p placed with ⟨placed', same'⟩ | ⟨new, above, bytes, read, holds⟩
  · obtain ⟨placed'', same⟩ := before part p placed'
    exact .inl ⟨placed'', fun a ha => (same' a ha).trans (same a ha)⟩
  · rw [table] at new
    have fetched : m.fetchCode p.unit p.block p.size = .ok bytes := by
      unfold fetchCode at read ⊢
      rw [disk] at read
      exact read
    exact .inr ⟨new, above, bytes, fetched, holds⟩

theorem grows_loadSegment : Grows m (endState (loadSegment n m)) := by
  intro secure
  rcases loadSegment_outcome secure.layout (rfl : loadSegment n m = _) with
    ⟨e, h⟩ | ⟨s, hs, ⟨resident, h⟩ | ⟨absent, base, bytes, memory, brought, h⟩⟩
  · rw [h]
    exact (Std.Refl.refl m : Settles m m).grows secure
  · rw [h]
    exact (settles_countUp hs resident).grows secure
  · rw [h]
    have number := secure.layout.entries.numbered n s hs
    have other := secure.other_of_absent hs absent
    have guarded : Memory.Guarded m.memory memory := Keeps.of_ok brought.written
    have layout := secure.layout.loaded hs absent (fun zero => absurd zero other) brought.carved
      guarded
    have kernel : ∃ s, (m.segments.modify n (Segment.putAt base)).get? 0 = some s ∧
        s.isResident = true := by
      obtain ⟨s₀, hs₀, resident⟩ := secure.kernel
      exact ⟨s₀, (SegmentTable.get?_modify_of_ne other).trans hs₀, resident⟩
    have secure' : (m.afterLoad s base memory).Secure := by
      refine ⟨?_, ?_, secure.based, secure.hosted⟩
      · unfold afterLoad
        rw [number]
        exact layout
      · unfold afterLoad
        rw [number]
        exact kernel
    refine ⟨secure', ?_⟩
    intro part p placed
    have place := CodeLayout.placement?_putAt base hs (fun zero => absurd zero other) absent part
    unfold afterLoad at placed
    rw [number] at placed
    change (m.segments.modify n (Segment.putAt base)).placement? part = _ at placed
    rw [place] at placed
    split at placed
    · rename_i here
      cases placed
      have new : m.segments.placement? part = none := by
        rw [here]
        simp [SegmentTable.placement?, hs, absent]
      have above := UInt16.le_trans secure.layout.heap brought.room
      refine .inr ⟨new, above, bytes, brought.fetched, ?_⟩
      intro i hi
      exact Memory.peekByte_protect.trans (brought.holds i hi)
    · refine .inl ⟨placed, fun a covers => ?_⟩
      -- older code is protected from the write
      have locked := guarded.locked a ((secure.layout.marked a).2 ⟨part, p, placed, covers⟩)
      exact Memory.peekByte_protect.trans locked

end Machine
end PSystem
