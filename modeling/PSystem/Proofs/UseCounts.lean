import PSystem.Proofs.Activations

/-!
# Use counts of segments

What calls, loads, releases and returns do to the use counts of a standing machine.  A call that
enters a segment counts a use of it and one that makes no frame gives the use up again
(`balances_callExternal`); a return gives up the use that its activation made
(`Standing.resume`), so it never finds the segment that it leaves absent.
-/

namespace PSystem
namespace Machine

open Activation (entries segmentOf)

variable {m m' : Machine} {n segment procedure : UInt8} {jtab : Address} {p : Attributes}

/-! ## Calls -/

theorem readByte_zero (memory : Memory) : memory.readByte 0 = .error (.invalidReference 0) := by
  simp [Memory.readByte]

/-- A procedure that can be called has its attribute table above the lowest addresses. -/
theorem two_lt_jtab {memory : Memory} {number : UInt8} {entry : Address}
    (hn : AttributeTable.number memory jtab = .ok number)
    (he : AttributeTable.entry memory jtab = .ok entry) : 2 < jtab.toNat := by
  -- the number or the entry word of a lower table would lie at address 0
  have zero : jtab ≠ 0 := by
    rintro rfl
    cases (readByte_zero memory).symm.trans hn
  obtain ⟨back, hw, -⟩ := except_bind_eq_ok.1 he
  obtain ⟨first, hf, rest⟩ := except_bind_eq_ok.1 hw
  obtain ⟨second, hs, -⟩ := except_bind_eq_ok.1 rest
  have one : jtab ≠ 1 := by
    rintro rfl
    cases (readByte_zero memory).symm.trans hs
  have two : jtab ≠ 2 := by
    rintro rfl
    cases (readByte_zero memory).symm.trans hf
  by_contra small
  have cases : jtab.toNat = 0 ∨ jtab.toNat = 1 ∨ jtab.toNat = 2 := by omega
  rcases cases with h | h | h
  · exact zero (UInt16.toNat_inj.1 h)
  · exact one (UInt16.toNat_inj.1 h)
  · exact two (UInt16.toNat_inj.1 h)

theorem useCount_withDataBase (t : SegmentTable) (frame : Address) (s : UInt8) :
    ((t.modify segment (Segment.withDataBase frame)).get? s).map Segment.useCount =
      (t.get? s).map Segment.useCount := by
  rw [SegmentTable.get?_modify]
  split
  · rw [Option.map_map]
    rfl
  · rfl

theorem Entered.useCount (entered : Entered p segment jtab m m') (s : UInt8) :
    m'.useCount s = m.useCount s := by
  have table : m'.segments =
      if p.level ≤ 0 then m.segments.modify segment (Segment.withDataBase m'.mp)
      else m.segments := by
    rw [entered.registers]
  unfold Machine.useCount
  rw [table]
  split
  · rw [useCount_withDataBase]
  · rfl

/-- Cells of frames are not touched by a call. -/
theorem not_callRegion {x : Address} (low : m.psp.toNat ≤ x.toNat) (high : x.toNat < 0xF000) :
    ¬ CallRegion m x := by
  rintro (⟨-, below⟩ | above)
  · rw [UInt16.lt_iff_toNat_lt] at below
    omega
  · have := UInt16.le_iff_toNat_le.1 above
    change 0xF000 ≤ _ at this
    omega

/-- Entering a procedure puts an activation in front of the others, whose links stay in order. -/
theorem Upright.chain_entered (upright : m.Upright) (entered : Entered p segment jtab m m') :
    m'.activations = ⟨m'.mp, segment, jtab⟩ :: m.activations ∧
      (⟨m'.mp, segment, jtab⟩ : Activation).caller m'.memory = m.current ∧
      Activation.Rooted m'.memory m.depth m.psp.toNat m.current := by
  have current : m'.current = ⟨m'.mp, segment, jtab⟩ := by
    unfold Machine.current
    rw [entered.registers]
  have depth : m'.depth = m.depth + 1 := by rw [entered.registers]
  obtain ⟨link, -, header⟩ := entered.header
  have narrow : m.seg.toUInt16.toUInt8 = m.seg := UInt8.toUInt8_toUInt16 _
  -- the header of the new frame names the old activation
  have caller : (⟨m'.mp, segment, jtab⟩ : Activation).caller m'.memory = m.current := by
    unfold Activation.caller Machine.current
    rw [header.dynamicLink, header.savedSeg, header.savedJtab, narrow]
  -- the call wrote below all frames and on the evaluation stack only
  obtain ⟨rooted, chain⟩ : Activation.Rooted m'.memory m.depth m.psp.toNat m.current ∧
      Activation.chain m'.memory m.depth m.current = m.activations :=
    upright.rooted.beside entered.store.memory.order
      (fun x low _ high => entered.off.peekByte (not_callRegion low high))
  refine ⟨?_, caller, rooted⟩
  show Activation.chain m'.memory m'.depth m'.current = _
  rw [depth, current]
  show _ :: Activation.chain m'.memory m.depth
    ((⟨m'.mp, segment, jtab⟩ : Activation).caller m'.memory) = _
  rw [caller, chain]

theorem Upright.entered (upright : m.Upright) (entered : Entered p segment jtab m m')
    (table : 2 < jtab.toNat) :
    m'.Upright ∧ m'.activations = ⟨m'.mp, segment, jtab⟩ :: m.activations := by
  have secure := (settles_entered entered upright.secure).1
  obtain ⟨same, caller, rooted⟩ := upright.chain_entered entered
  have current : m'.current = ⟨m'.mp, segment, jtab⟩ := by
    unfold Machine.current
    rw [entered.registers]
  have depth : m'.depth = m.depth + 1 := by rw [entered.registers]
  have psp : m'.psp = m'.mp := by rw [entered.registers]
  obtain ⟨link, -, header⟩ := entered.header
  have size := entered.size
  -- The new frame lies between the heap and the old stack pointer, below every frame of the chain.
  have start := UInt16.le_iff_toNat_le.1 (UInt16.le_trans upright.secure.layout.heap entered.room)
  have top := UInt16.le_iff_toNat_le.1 upright.secure.layout.top
  change 0x100 ≤ _ at start
  change _ ≤ 0xF000 at top
  refine ⟨⟨secure, ?_, ?_⟩, same⟩
  · rw [depth, current]
    refine ⟨?_, start, ?_, table, ?_, ?_⟩
    · exact Nat.le_of_eq (congrArg UInt16.toNat psp)
    · dsimp only
      omega
    · intro outermost
      exact header.savedIpc.trans (upright.idle outermost).1
    · rw [caller]
      refine rooted.weaken fun active => ?_
      have := upright.psp_le active
      change m'.mp.toNat + 14 ≤ m.mp.toNat
      omega
  · intro outermost
    omega

theorem Standing.entered (standing : m.Standing) (entered : Entered p segment jtab m m')
    (table : 2 < jtab.toNat)
    (covered : ∀ s, s ≠ 0 →
      entries s (⟨m'.mp, segment, jtab⟩ :: m.activations) ≤ m.useCount s) :
    m'.Standing ∧ m'.activations = ⟨m'.mp, segment, jtab⟩ :: m.activations := by
  obtain ⟨upright, same⟩ := standing.upright.entered entered table
  refine ⟨⟨upright.secure, upright.rooted, upright.idle, ?_⟩, same⟩
  intro s other
  rw [same, entered.useCount s]
  exact covered s other

/-- Calls that make no frame leave the activations alone, if the host does. -/
theorem Upright.confined {S : Address → Prop} (upright : m.Upright) (h : Confined S m m')
    (settles : Settles m m') (kept : m.HeadersIn m'.memory) :
    m'.Upright ∧ m'.activations = m.activations := by
  have psp : m'.psp = m.psp := by rw [h.rest]
  exact upright.carried (settles upright.secure).1 (by rw [h.rest]) (by rw [h.rest]; rfl)
    (fun active => psp ▸ upright.psp_le active) (fun _ => ⟨by rw [h.rest], by rw [h.rest]⟩)
    (upright.links h.store.memory.order kept)

theorem Upright.headers_beside (upright : m.Upright) {memory : Memory}
    (bytes : ∀ x : Address, m.psp.toNat ≤ x.toNat → 0x100 ≤ x.toNat → x.toNat < 0xF000 →
      memory.peekByte x = m.memory.peekByte x) : m.HeadersIn memory := by
  intro a ha i hi
  obtain ⟨above, start, top⟩ := upright.rooted.of_mem ha
  have place : (a.frame + UInt16.ofNat i).toNat = a.frame.toNat + i := toNat_add_ofNat (by omega)
  exact bytes _ (by omega) (by omega) (by omega)

theorem Upright.headers_confined (upright : m.Upright) (h : Confined (CallRegion m) m m') :
    m.HeadersIn m'.memory :=
  upright.headers_beside fun _ low _ high => h.off.peekByte (not_callRegion low high)

theorem call_of_callsHost (calls : m.CallsHost segment procedure) :
    call segment procedure m = (do
      callBound segment procedure
      return .finished : Run Machine CallKind) m := by
  obtain ⟨jtab, hj, hn⟩ := calls
  unfold call
  rw [get_bind_apply, hj]
  exact bind_of_ok (reading_of_ok (f := (AttributeTable.number · jtab)) hn)

theorem not_entered_of_callsHost (calls : m.CallsHost segment procedure) (m' : Machine) :
    call segment procedure m ≠ .ok .entered m' := by
  intro h
  rw [call_of_callsHost calls] at h
  obtain ⟨u, m₁, -, eq⟩ := bind_eq_ok.1 h
  cases eq

/-- How a call ends on an upright machine.  The host may have written to memory, and nobody else. -/
theorem Upright.call_cases (upright : m.Upright)
    (host : m.CallsHost segment procedure →
      m.HeadersIn (endState (call segment procedure m)).memory)
    {r : EStateM.Result Fault Machine CallKind} (h : call segment procedure m = r) :
    (∀ m', r ≠ .ok .entered m') ∧ (endState r).Upright ∧ (endState r).activations = m.activations ∧
      (∃ S, Confined S m (endState r)) ∨
    ∃ jtab p m', r = .ok .entered m' ∧ Entered p segment jtab m m' ∧ 2 < jtab.toNat := by
  have settles : Settles m (endState r) := h ▸ (settles_call segment procedure).related m
  rcases Machine.call_cases upright.secure.regular upright.secure.hosted.quietly h with
    ⟨e, m', rfl, confined⟩ | ⟨calls, confined, -⟩ |
      ⟨jtab, p, m', -, ⟨number, hn, -⟩, rfl, entered⟩
  · obtain ⟨upright', same⟩ := upright.confined confined settles (upright.headers_confined confined)
    refine .inl ⟨?_, upright', same, _, confined⟩
    intro m' entered
    cases entered
  · obtain ⟨upright', same⟩ := upright.confined confined settles (h ▸ host calls)
    exact .inl ⟨fun m' entered => not_entered_of_callsHost calls m' (h.trans entered), upright',
      same, _, confined⟩
  · exact .inr ⟨jtab, p, m', rfl, entered, two_lt_jtab hn entered.attributes.entry⟩

theorem Standing.call_cases (standing : m.Standing)
    (host : m.CallsHost segment procedure →
      m.HeadersIn (endState (call segment procedure m)).memory)
    {r : EStateM.Result Fault Machine CallKind} (h : call segment procedure m = r) :
    (∀ m', r ≠ .ok .entered m') ∧ (endState r).Standing ∧ (endState r).activations = m.activations ∧
      (endState r).seg = m.seg ∧ (∀ s, (endState r).useCount s = m.useCount s) ∨
    ∃ jtab p m', r = .ok .entered m' ∧ Entered p segment jtab m m' ∧ 2 < jtab.toNat := by
  rcases standing.upright.call_cases host h with ⟨unmade, upright, same, S, confined⟩ | entered
  · have segments : (endState r).segments = m.segments := by rw [confined.rest]
    have uses (s : UInt8) := useCount_congr segments s
    refine .inl ⟨unmade, ⟨upright.secure, upright.rooted, upright.idle, ?_⟩, same, by rw [confined.rest], uses⟩
    intro s other
    rw [same, uses]
    exact standing.covered s other
  · exact .inr entered

theorem Upright.segmentOf_activations (upright : m.Upright) : segmentOf m.activations = m.seg :=
  upright.rooted.segmentOf_chain

/-- A call within the current segment, or into segment 0, enters no segment that is counted. -/
theorem balances_call (within : segment = m.seg ∨ segment = 0)
    (host : m.CallsHost segment procedure →
      m.HeadersIn (endState (call segment procedure m)).memory) :
    Balances m (endState (call segment procedure m)) := by
  intro standing
  rcases standing.call_cases host rfl with
    ⟨-, standing', same, -, uses⟩ | ⟨jtab, p, m', eq, entered, table⟩
  · refine ⟨standing', ?_⟩
    intro s _
    rw [uses, same]
  · -- A call within the segment does not enter it anew, and the kernel is not counted.
    have unchanged (s : UInt8) (other : s ≠ 0) :
        entries s (⟨m'.mp, segment, jtab⟩ :: m.activations) = entries s m.activations := by
      have no : ¬ (segment = s ∧ segmentOf m.activations ≠ s) := by
        rintro ⟨rfl, outside⟩
        rcases within with here | kernel
        · exact outside ((standing.upright.segmentOf_activations).trans here.symm)
        · exact other kernel
      simp [entries, no]
    obtain ⟨standing', same⟩ := standing.entered entered table fun s other => by
      rw [unchanged s other]
      exact standing.covered s other
    rw [eq]
    refine ⟨standing', ?_⟩
    intro s other
    show m'.useCount s + _ = _ + entries s m'.activations
    rw [same, unchanged s other, entered.useCount s]

/-! ## Loads and releases -/

theorem useCount_modify {f : Segment → Segment} (t : SegmentTable) {s : Segment}
    (hs : t.get? n = some s) (k : UInt8) :
    (((t.modify n f).get? k).map Segment.useCount).getD 0 =
      if k = n then (f s).useCount else ((t.get? k).map Segment.useCount).getD 0 := by
  by_cases here : k = n
  · subst here
    rw [SegmentTable.get?_modify_self hs, if_pos rfl]
    rfl
  · rw [SegmentTable.get?_modify_of_ne (Ne.symm here), if_neg here]

theorem useCount_of_get? {s : Segment} (hs : m.segments.get? n = some s) :
    m.useCount n = s.useCount := by
  unfold Machine.useCount
  rw [hs]
  rfl

theorem resident_of_useCount (used : 0 < m.useCount n) :
    ∃ s, m.segments.get? n = some s ∧ s.isResident = true := by
  cases hs : m.segments.get? n with
  | none =>
    unfold Machine.useCount at used
    rw [hs] at used
    exact absurd used (Nat.lt_irrefl 0)
  | some s =>
    rw [useCount_of_get? hs] at used
    exact ⟨s, rfl, by simpa [Segment.isResident] using used⟩

/-- How a load ends on an upright machine: nothing was done, or the frames are as before. -/
theorem Upright.loadSegment_cases (upright : m.Upright)
    {r : EStateM.Result Fault Machine Unit} (h : loadSegment n m = r) :
    (∃ e, r = .error e m) ∨
    ∃ m', r = .ok () m' ∧ m'.Upright ∧ m'.activations = m.activations ∧ m.HeadersIn m'.memory := by
  have grown : Grows m (endState r) := h ▸ grows_loadSegment
  rcases loadSegment_outcome upright.secure.layout h with
    ⟨e, eq⟩ | ⟨s, hs, ⟨resident, eq⟩ | ⟨absent, base, bytes, memory, brought, eq⟩⟩
  · exact .inl ⟨e, eq⟩
  · subst eq
    obtain ⟨upright', same⟩ := upright.carried (grown upright.secure).1 rfl rfl
      (fun active => upright.psp_le active) (fun _ => ⟨rfl, rfl⟩) ⟨upright.rooted, rfl⟩
    exact .inr ⟨_, rfl, upright', same, fun _ _ _ _ => rfl⟩
  · subst eq
    have guarded : Memory.Guarded m.memory memory := Keeps.of_ok brought.written
    have carved := brought.carved
    have length := length_of_fetchCode brought.fetched
    have fits := (upright.secure.layout.entries.sized n s hs).1
    have rounded : s.size.toNat ≤ s.footprint.toNat := by
      rw [show s.footprint.toNat = _ from toNat_evenSize fits]
      omega
    have below : Keeps (Memory.AgreesOff (· < m.psp)) (Memory.writeBytes base bytes) := by
      apply Memory.keeps_writeBytes_off
      intro i hi
      have hp := m.psp.toNat_lt
      rw [UInt16.lt_iff_toNat_lt, toNat_add_ofNat (by omega)]
      omega
    -- the code is read to the space below all frames
    have kept : m.HeadersIn (m.afterLoad s base memory).memory := by
      apply upright.headers_beside
      intro x low _ _
      refine Memory.peekByte_protect.trans ((below.of_ok brought.written).peekByte ?_)
      rw [UInt16.lt_iff_toNat_lt]
      omega
    obtain ⟨upright', same⟩ := upright.carried (grown upright.secure).1 rfl rfl
      (fun active => by
        have := upright.psp_le active
        show base.toNat ≤ m.mp.toNat
        omega) (fun _ => ⟨rfl, rfl⟩) (upright.links guarded.order kept)
    exact .inr ⟨_, rfl, upright', same, kept⟩

/-- What a load leaves alone, and the use that it counts. -/
theorem loadSegment_counts (secure : m.Secure) (h : loadSegment n m = .ok () m') :
    m'.seg = m.seg ∧ m'.depth = m.depth ∧
      ∀ s, m'.useCount s = if s = n then m.useCount s + 1 else m.useCount s := by
  rcases loadSegment_outcome secure.layout h with
    ⟨e, eq⟩ | ⟨s, hs, ⟨resident, eq⟩ | ⟨absent, base, bytes, memory, brought, eq⟩⟩
  · cases eq
  · cases eq
    refine ⟨rfl, rfl, fun k => (useCount_modify m.segments hs k).trans ?_⟩
    split
    · rename_i here
      rw [here, useCount_of_get? hs]
      rfl
    · rfl
  · cases eq
    have number := secure.layout.entries.numbered n s hs
    -- A segment that was not in memory had no use, so one is what it has now.
    have unused : s.useCount = 0 := by
      simpa [Segment.isResident] using absent
    refine ⟨rfl, rfl, fun k => ?_⟩
    show (((m.segments.modify s.number (Segment.putAt base)).get? k).map _).getD 0 = _
    rw [number, useCount_modify m.segments hs k]
    split
    · rename_i here
      rw [here, useCount_of_get? hs, unused]
      rfl
    · rfl

/-- How a load ends on a standing machine: nothing was done, or a use was counted. -/
theorem Standing.loadSegment_cases (standing : m.Standing)
    {r : EStateM.Result Fault Machine Unit} (h : loadSegment n m = r) :
    (∃ e, r = .error e m) ∨
    ∃ m', r = .ok () m' ∧ m'.Standing ∧ m'.activations = m.activations ∧ m'.seg = m.seg ∧
      m'.depth = m.depth ∧ m.HeadersIn m'.memory ∧
      ∀ s, m'.useCount s = if s = n then m.useCount s + 1 else m.useCount s := by
  rcases standing.upright.loadSegment_cases h with failed | ⟨m', eq, upright, same, kept⟩
  · exact .inl failed
  · obtain ⟨seg, depth, uses⟩ := loadSegment_counts standing.secure (h.trans eq)
    refine .inr ⟨m', eq, ⟨upright.secure, upright.rooted, upright.idle, ?_⟩, same, seg, depth, kept, uses⟩
    intro s other
    rw [same, uses]
    have := standing.covered s other
    split <;> omega

theorem Upright.mp_ne_zero (upright : m.Upright) (active : 0 < m.depth) : m.mp ≠ 0 := by
  have rooted := upright.rooted
  have start : 0x100 ≤ m.mp.toNat := by
    cases hd : m.depth with
    | zero => omega
    | succ n =>
      rw [hd] at rooted
      exact rooted.2.1
  intro zero
  rw [zero, UInt16.toNat_zero] at start
  omega

theorem reclaimed_le (some_ : m.mp ≠ 0) : m.reclaimed.psp.toNat ≤ m.mp.toNat := by
  have low : m.reclaimed.psp ≤ m.mp := by
    unfold reclaimed
    rw [if_neg some_]
    exact SegmentTable.min_le_left _ _
  exact UInt16.le_iff_toNat_le.1 low

/-- Frames stay as they are when a use of a segment is given up. -/
theorem Upright.afterRelease {s : Segment} (upright : m.Upright) (hs : m.segments.get? n = some s)
    (resident : s.isResident = true) (other : n ≠ 0) :
    (m.afterRelease n s).Upright ∧ (m.afterRelease n s).activations = m.activations :=
  upright.carried (settles_afterRelease hs resident other upright.secure).1 rfl rfl
    (fun active => upright.psp_le active) (fun _ => ⟨rfl, rfl⟩)
    (upright.rooted.beside (order_memoryAfterRelease _ _)
      fun x _ _ _ => peekByte_memoryAfterRelease _ _ x)

theorem Upright.reclaimed (upright : m.Upright) :
    m.reclaimed.Upright ∧ m.reclaimed.activations = m.activations :=
  upright.carried (settles_reclaimed upright.secure).1 rfl rfl
    (fun active => reclaimed_le (upright.mp_ne_zero active)) (fun _ => ⟨rfl, rfl⟩)
    ⟨upright.rooted, rfl⟩

/-- A use that no activation needs can be given up. -/
theorem Standing.leaveSegment (standing : m.Standing) (other : n ≠ 0)
    (spare : entries n m.activations < m.useCount n) :
    ∃ m', leaveSegment n m = .ok () m' ∧ m'.Standing ∧ m'.activations = m.activations ∧
      ∀ s, m'.useCount s = if s = n then m.useCount s - 1 else m.useCount s := by
  rcases leaveSegment_cases (rfl : Machine.leaveSegment n m = _) with
    ⟨-, absent⟩ | ⟨s, hs, resident, eq⟩
  · -- a segment with a use is resident
    obtain ⟨s, hs, resident⟩ := resident_of_useCount (Nat.zero_lt_of_lt spare)
    rw [absent s hs] at resident
    cases resident
  · have uses (k : UInt8) : (m.afterRelease n s).reclaimed.useCount k =
        if k = n then m.useCount k - 1 else m.useCount k := by
      refine (useCount_modify m.segments hs k).trans ?_
      split
      · rename_i here
        rw [here, useCount_of_get? hs]
        rfl
      · rfl
    obtain ⟨released, same⟩ := standing.upright.afterRelease hs resident other
    obtain ⟨upright, same'⟩ := released.reclaimed
    have activations := same'.trans same
    refine ⟨_, eq, ⟨upright.secure, upright.rooted, upright.idle, ?_⟩, activations, uses⟩
    intro k other'
    rw [activations, uses]
    have := standing.covered k other'
    split
    · rename_i here
      subst here
      omega
    · exact this

/-! ## External calls -/

/-- An external call comes to a procedure that is bound to the host. -/
def ReachesHost (m : Machine) (segment procedure : UInt8) : Prop :=
  ∃ loaded, ((m.BringsIn segment ∧ loadSegment segment m = .ok () loaded) ∨
    (¬ m.BringsIn segment ∧ loaded = m)) ∧ loaded.CallsHost segment procedure

theorem peekByte_leaveSegment (n : UInt8) (m : Machine) (x : Address) :
    (endState (leaveSegment n m)).memory.peekByte x = m.memory.peekByte x := by
  rcases leaveSegment_cases (rfl : leaveSegment n m = _) with ⟨⟨e, eq⟩, -⟩ | ⟨s, -, -, eq⟩
  · rw [eq]
    rfl
  · rw [eq]
    exact peekByte_memoryAfterRelease _ _ x

theorem peekByte_letGo (n : UInt8) (m₀ m : Machine) (x : Address) :
    (endState (m₀.letGo n m)).memory.peekByte x = m.memory.peekByte x := by
  unfold letGo
  split
  · exact peekByte_leaveSegment n m x
  · rfl

/-- The host touches no headers in an external call that as a whole touches none. -/
theorem Upright.headersIn_brought (upright : m.Upright) {loaded : Machine}
    (brought : m.Brings segment loaded)
    (ended : endState (callExternal segment procedure m) =
      endState (m.letGo segment (endState (call segment procedure loaded))))
    (host : m.ReachesHost segment procedure →
      m.HeadersIn (endState (callExternal segment procedure m)).memory)
    (calls : loaded.CallsHost segment procedure) :
    loaded.HeadersIn (endState (call segment procedure loaded)).memory := by
  have whole := host ⟨loaded, brought, calls⟩
  rw [ended] at whole
  obtain ⟨same, headers⟩ : loaded.activations = m.activations ∧ m.HeadersIn loaded.memory := by
    rcases brought with ⟨-, load⟩ | ⟨-, rfl⟩
    · rcases upright.loadSegment_cases load with ⟨e, eq⟩ | ⟨_, eq, -, kept⟩
      · cases eq
      · cases eq
        exact kept
    · exact ⟨rfl, fun _ _ _ _ => rfl⟩
  intro a ha i hi
  rw [same] at ha
  rw [← peekByte_letGo segment m, whole a ha i hi, headers a ha i hi]

/-- A segment that was brought in for a call that makes no frame is as often used as before. -/
theorem balances_let_go {loaded : Machine} (away : m.BringsIn segment)
    (load : loadSegment segment m = .ok () loaded)
    (unmade : ∀ m', call segment procedure loaded ≠ .ok .entered m')
    (host : loaded.CallsHost segment procedure →
      loaded.HeadersIn (endState (call segment procedure loaded)).memory) :
    Balances m (endState (leaveSegment segment (endState (call segment procedure loaded)))) := by
  intro standing
  rcases standing.loadSegment_cases load with
    ⟨e, eq⟩ | ⟨_, eq, standing₁, same₁, -, -, -, uses₁⟩
  · cases eq
  cases eq
  rcases standing₁.call_cases host rfl with
    ⟨-, standing₂, same₂, -, uses₂⟩ | ⟨jtab, p, m₂, entered, -⟩
  rotate_left
  · exact absurd entered (unmade m₂)
  -- Loading has added a use that no frame accounts for, which is the one given back.
  have spare : entries segment (endState (call segment procedure loaded)).activations <
      (endState (call segment procedure loaded)).useCount segment := by
    have := standing.covered segment away.2
    rw [same₂, same₁, uses₂, uses₁, if_pos rfl]
    omega
  obtain ⟨m₃, left, standing₃, same₃, uses₃⟩ := standing₂.leaveSegment away.2 spare
  rw [left]
  refine ⟨standing₃, ?_⟩
  intro s _
  rw [endState_ok, same₃, same₂, same₁, uses₃, uses₂, uses₁]
  split <;> omega

/-- The frame of a procedure whose segment was brought in: its activation is the one that uses the
segment. -/
theorem balances_entered {loaded : Machine} (away : m.BringsIn segment)
    (load : loadSegment segment m = .ok () loaded)
    (called : call segment procedure loaded = .ok .entered m') : Balances m m' := by
  intro standing
  rcases standing.loadSegment_cases load with
    ⟨e, eq⟩ | ⟨_, eq, standing₁, same₁, seg, -, -, uses₁⟩
  · cases eq
  cases eq
  rcases standing₁.call_cases (fun calls => absurd called (not_entered_of_callsHost calls m')) called
    with ⟨unmade, -⟩ | ⟨jtab, p, _, eq, frame, table⟩
  · exact absurd rfl (unmade m')
  cases eq
  -- The call comes from another segment, so its frame is a new entry; loading has counted it.
  have outside : segmentOf loaded.activations ≠ segment := by
    rw [standing₁.upright.segmentOf_activations, seg]
    exact Ne.symm away.1
  have count (s : UInt8) : entries s (⟨m'.mp, segment, jtab⟩ :: loaded.activations) =
      if s = segment then entries s m.activations + 1 else entries s m.activations := by
    rw [same₁] at outside ⊢
    rw [Activation.entries_cons]
    by_cases here : s = segment
    · subst here
      rw [if_pos ⟨rfl, outside⟩, if_pos rfl]
      omega
    · rw [if_neg (fun both => here both.1.symm), if_neg here]
      omega
  obtain ⟨standing₂, same₂⟩ := standing₁.entered frame table fun s other => by
    have := standing.covered s other
    rw [count, uses₁]
    split <;> omega
  refine ⟨standing₂, ?_⟩
  intro s _
  rw [same₂, count, frame.useCount, uses₁]
  split <;> omega

theorem balances_callExternal
    (host : m.ReachesHost segment procedure →
      m.HeadersIn (endState (callExternal segment procedure m)).memory) :
    Balances m (endState (callExternal segment procedure m)) := by
  intro standing
  by_cases away : m.BringsIn segment
  · rcases callExternal_ends (rfl : callExternal segment procedure m = _) with
      ⟨e, m', -, load, failed⟩ | ⟨loaded, brought, ends⟩
    · rw [failed]
      rcases standing.loadSegment_cases load with ⟨e', eq⟩ | ⟨_, eq, -⟩
      · cases eq
        exact ⟨standing, fun _ _ => rfl⟩
      · cases eq
    have load := brought.load away
    rcases ends with ⟨m', called, entered⟩ | ⟨unmade, ended⟩
    · rw [entered]
      exact balances_entered away load called standing
    · have kept := standing.upright.headersIn_brought brought ended host
      rw [ended, letGo_of_bringsIn away]
      exact balances_let_go away load unmade kept standing
  · -- A segment that is not brought in is the running one or the kernel.
    have within : segment = m.seg ∨ segment = 0 := by
      by_contra both
      rw [not_or] at both
      exact away both
    have ended : endState (callExternal segment procedure m) =
        endState (call segment procedure m) := by
      rw [callExternal_of_here away]
      cases call segment procedure m <;> rfl
    rw [ended] at host ⊢
    exact balances_call within (fun calls => host ⟨m, .inr ⟨away, rfl⟩, calls⟩) standing

/-! ## Returns -/

/-- The frame of an active procedure lies in the program stack. -/
theorem Upright.frame_bounds (upright : m.Upright) (active : 0 < m.depth) :
    Heap.start ≤ m.mp ∧ m.mp.toNat + 14 ≤ 0xF000 := by
  have rooted := upright.rooted
  cases hd : m.depth with
  | zero => omega
  | succ n =>
    rw [hd] at rooted
    exact ⟨UInt16.le_iff_toNat_le.2 rooted.2.1, rooted.2.2.1⟩

/-- What the header of the current frame says about the caller. -/
def callerFrom (m : Machine) : Caller where
  mp := (m.current.caller m.memory).frame
  jtab := (m.current.caller m.memory).jtab
  seg := (m.current.caller m.memory).segment
  ipc := m.memory.peekWord (m.mp + Frame.savedIpc)
  sp := m.memory.peekWord (m.mp + Frame.savedSp)

theorem Upright.readCaller (upright : m.Upright) (active : 0 < m.depth) :
    readCaller m.memory m.mp = .ok m.callerFrom := by
  obtain ⟨start, top⟩ := upright.frame_bounds active
  have word {i : Nat} (hi : i + 1 < 14) : m.memory.readWord (m.mp + UInt16.ofNat i) = _ :=
    readWord_above upright.secure.layout.unmapped start (by omega)
  show (do
    let mp ← m.memory.readWord (m.mp + UInt16.ofNat 4)
    let jtab ← m.memory.readWord (m.mp + UInt16.ofNat 6)
    let seg ← m.memory.readWord (m.mp + UInt16.ofNat 8)
    let ipc ← m.memory.readWord (m.mp + UInt16.ofNat 10)
    let sp ← m.memory.readWord (m.mp + UInt16.ofNat 12)
    return ({ mp, jtab, seg := seg.toUInt8, ipc, sp } : Caller) : Except Fault Caller) = _
  rw [word (i := 4) (by decide), word (i := 6) (by decide), word (i := 8) (by decide),
    word (i := 10) (by decide), word (i := 12) (by decide)]
  rfl

theorem exists_entryOf (memory : Memory) (h : jtab = 0 ∨ 2 < jtab.toNat) :
    ∃ entry, entryOf memory jtab = .ok entry ∧ (jtab = 0 → entry = 0) := by
  rcases h with rfl | large
  · exact ⟨0, rfl, fun _ => rfl⟩
  have some_ : jtab ≠ 0 := by
    rintro rfl
    exact absurd large (by decide)
  -- only address 0 cannot be read
  have read (a : Address) (valid : a ≠ 0) : ∃ v, memory.readByte a = .ok v := by
    unfold Memory.readByte
    rw [if_neg valid]
    split
    · exact ⟨_, rfl⟩
    · exact ⟨_, rfl⟩
  have hj := jtab.toNat_lt
  obtain ⟨first, hf⟩ := read (jtab - 2) (by
    intro zero
    have := congrArg UInt16.toNat zero
    rw [UInt16.toNat_sub, UInt16.toNat_zero] at this
    simp only [UInt16.reduceToNat] at this
    omega)
  obtain ⟨second, hs⟩ := read (jtab - 2 + 1) (by
    intro zero
    have := congrArg UInt16.toNat zero
    rw [UInt16.toNat_add, UInt16.toNat_sub, UInt16.toNat_zero] at this
    simp only [UInt16.reduceToNat] at this
    omega)
  refine ⟨jtab - 2 - memory.order.join first second, ?_, fun zero => absurd zero some_⟩
  unfold entryOf
  rw [if_neg some_]
  show (do
    let back ← (do
      let first ← memory.readByte (jtab - 2)
      let second ← memory.readByte (jtab - 2 + 1)
      return memory.order.join first second : Except Fault Word)
    return jtab - 2 - back : Except Fault Address) = _
  rw [hf, hs]
  rfl

/-- The machine is back in the caller: the first activation is gone. -/
theorem Upright.chain_back {n : Nat} (upright : m.Upright) (depth : m.depth = n + 1)
    (depth' : m'.depth = n) (current : m'.current = m.current.caller m.memory)
    (order : m'.memory.order = m.memory.order)
    (bytes : ∀ x, m'.memory.peekByte x = m.memory.peekByte x) :
    m.activations = m.current :: m'.activations ∧
      Activation.Rooted m'.memory n (m.mp.toNat + 14) (m.current.caller m.memory) := by
  have rooted := upright.rooted
  rw [depth] at rooted
  obtain ⟨-, -, -, -, -, rest⟩ := rooted
  -- the callers are read from the same bytes as before
  obtain ⟨rest', chain⟩ := rest.beside order fun x _ _ _ => bytes x
  refine ⟨?_, rest'⟩
  show Activation.chain m.memory m.depth m.current =
    m.current :: Activation.chain m'.memory m'.depth m'.current
  rw [depth, depth', current, chain]
  rfl

theorem Upright.back {n : Nat} (upright : m.Upright) (depth : m.depth = n + 1)
    (secure : m'.Secure) (depth' : m'.depth = n)
    (current : m'.current = m.current.caller m.memory)
    (order : m'.memory.order = m.memory.order)
    (bytes : ∀ x, m'.memory.peekByte x = m.memory.peekByte x)
    (psp : m'.mp ≠ 0 → m'.psp.toNat ≤ m'.mp.toNat)
    (resumes : n = 0 → m'.ipc = m.memory.peekWord (m.mp + Frame.savedIpc) ∧ m'.ipcBase = 0) :
    m'.Upright := by
  have rooted := upright.rooted
  rw [depth] at rooted
  obtain ⟨-, start, top, -, outermost, rest⟩ := rooted
  obtain ⟨-, rest'⟩ := upright.chain_back depth depth' current order bytes
  refine ⟨secure, ?_, ?_⟩
  · rw [depth', current]
    refine rest'.weaken fun active => ?_
    -- A caller that is a frame lies above the first page, so the pointer is not zero.
    have live : 0x100 ≤ (m.current.caller m.memory).frame.toNat := by
      cases n with
      | zero => omega
      | succ n => exact rest.2.1
    have frame : m'.mp = (m.current.caller m.memory).frame := by
      rw [← current]
      rfl
    rw [← frame] at live ⊢
    apply psp
    intro zero
    rw [zero, UInt16.toNat_zero] at live
    omega
  · intro idle
    rw [depth'] at idle
    rw [(resumes idle).1, (resumes idle).2]
    exact ⟨outermost idle, rfl⟩

theorem Standing.back {n : Nat} (standing : m.Standing) (depth : m.depth = n + 1)
    (secure : m'.Secure) (depth' : m'.depth = n)
    (current : m'.current = m.current.caller m.memory)
    (order : m'.memory.order = m.memory.order)
    (bytes : ∀ x, m'.memory.peekByte x = m.memory.peekByte x)
    (psp : m'.mp ≠ 0 → m'.psp.toNat ≤ m'.mp.toNat)
    (resumes : n = 0 → m'.ipc = m.memory.peekWord (m.mp + Frame.savedIpc) ∧ m'.ipcBase = 0)
    (uses : ∀ s, s ≠ 0 → m.useCount s = m'.useCount s +
      if m.seg = s ∧ m'.seg ≠ s then 1 else 0) :
    m'.Standing ∧ ∀ s, s ≠ 0 →
      m'.useCount s + entries s m.activations = m.useCount s + entries s m'.activations := by
  have upright := standing.upright.back depth secure depth' current order bytes psp resumes
  obtain ⟨split_, -⟩ := standing.upright.chain_back depth depth' current order bytes
  have first : segmentOf m'.activations = m'.seg := upright.segmentOf_activations
  -- leaving the activation takes away an entry if the caller is in another segment
  have count (s : UInt8) : entries s m.activations =
      (if m.seg = s ∧ m'.seg ≠ s then 1 else 0) + entries s m'.activations := by
    rw [split_, Activation.entries_cons, first]
    rfl
  refine ⟨⟨upright.secure, upright.rooted, upright.idle, ?_⟩, ?_⟩
  · intro s other
    have := standing.covered s other
    have := uses s other
    have := count s
    omega
  · intro s other
    have := uses s other
    have := count s
    omega

/-- A segment with an activation is in memory. -/
theorem Standing.resident (standing : m.Standing) {a : Activation} (ha : a ∈ m.activations) :
    ∃ s, m.segments.get? a.segment = some s ∧ s.isResident = true := by
  by_cases kernel : a.segment = 0
  · rw [kernel]
    exact standing.secure.kernel
  · have entered := Activation.entries_pos kernel ⟨a, ha, rfl⟩
    exact resident_of_useCount (Nat.lt_of_lt_of_le entered (standing.covered a.segment kernel))

/-- The caller has an attribute table that can be read, and the outermost activation goes back to nothing. -/
theorem Upright.exists_entry (upright : m.Upright) (active : 0 < m.depth) :
    ∃ entry, entryOf m.memory m.callerFrom.jtab = .ok entry ∧ (m.depth = 1 → entry = 0) := by
  obtain ⟨n, depth⟩ : ∃ n, m.depth = n + 1 := ⟨m.depth - 1, by omega⟩
  have rooted := upright.rooted
  rw [depth] at rooted
  obtain ⟨-, -, -, -, -, rest⟩ := rooted
  have idle : n = 0 → m.callerFrom.jtab = 0 := by
    rintro rfl
    show (m.current.caller m.memory).jtab = 0
    rw [show m.current.caller m.memory = Activation.nothing from rest]
    rfl
  have table : m.callerFrom.jtab = 0 ∨ 2 < m.callerFrom.jtab.toNat := by
    cases n with
    | zero => exact .inl (idle rfl)
    | succ n => exact .inr rest.2.2.2.1
  obtain ⟨entry, found, zero⟩ := exists_entryOf m.memory table
  exact ⟨entry, found, fun outermost => zero (idle (by omega))⟩

/-- Going back to the caller always succeeds, and gives up a segment exactly if its activation
entered it. -/
theorem Standing.resume (standing : m.Standing) (active : 0 < m.depth) :
    ∃ m', resume m.callerFrom m = .ok () m' ∧ m'.Standing ∧ ∀ s, s ≠ 0 →
      m'.useCount s + entries s m.activations = m.useCount s + entries s m'.activations := by
  obtain ⟨n, depth⟩ : ∃ n, m.depth = n + 1 := ⟨m.depth - 1, by omega⟩
  have settles : Settles m (endState (Machine.resume m.callerFrom m)) :=
    (settles_resume m.callerFrom).related m
  obtain ⟨entry, found, zero⟩ := standing.upright.exists_entry active
  have less : m.depth - 1 = n := by omega
  -- the caller has an attribute table that can be read, so the way back is open
  rcases resume_cases (rfl : Machine.resume m.callerFrom m = _) with
    ⟨e, fault, -⟩ | ⟨entry', found', outcome⟩
  · cases found.symm.trans fault
  cases found.symm.trans found'
  rcases outcome with ⟨stays, eq⟩ | ⟨leaves, outcome⟩
  · rw [eq] at settles
    refine ⟨_, eq, standing.back depth (settles standing.secure).1 less rfl rfl (fun _ => rfl)
      (fun some_ => reclaimed_le (m := m.backAt m.callerFrom entry) some_)
      (fun out => ⟨rfl, zero (by omega)⟩) ?_⟩
    intro s other
    have none : ¬ (m.seg = s ∧ m.callerFrom.seg ≠ s) := by
      rintro ⟨rfl, different⟩
      exact stays ⟨Ne.symm different, other⟩
    show m.useCount s = m.useCount s + if m.seg = s ∧ m.callerFrom.seg ≠ s then 1 else 0
    rw [if_neg none]
    rfl
  · rcases outcome with ⟨-, absent⟩ | ⟨s, hs, resident, eq⟩
    · -- the segment that is left has an activation, so it is not absent
      have innermost : m.current ∈ m.activations := by
        show m.current ∈ Activation.chain m.memory m.depth m.current
        rw [depth]
        exact List.mem_cons_self
      obtain ⟨s, hs, resident⟩ := standing.resident innermost
      rw [absent s hs] at resident
      cases resident
    · rw [eq] at settles
      have counted : 0 < s.useCount := by simpa [Segment.isResident] using resident
      refine ⟨_, eq, standing.back depth (settles standing.secure).1 less rfl
        (order_memoryAfterRelease _ _) (fun x => peekByte_memoryAfterRelease _ _ x)
        (fun some_ => reclaimed_le (m := (m.backAt m.callerFrom entry).afterRelease m.seg s) some_)
        (fun out => ⟨rfl, zero (by omega)⟩) ?_⟩
      -- the use that is given up is the one of the activation
      intro k _
      have uses := useCount_modify (f := Segment.countDown) m.segments hs k
      show m.useCount k = (((m.segments.modify m.seg Segment.countDown).get? k).map _).getD 0 +
        if m.seg = k ∧ m.callerFrom.seg ≠ k then 1 else 0
      rw [uses]
      by_cases here : k = m.seg
      · subst here
        rw [if_pos rfl, if_pos ⟨rfl, Ne.symm leaves.1⟩, useCount_of_get? hs]
        show s.useCount = s.useCount - 1 + 1
        omega
      · rw [if_neg here, if_neg (fun both => here both.1.symm)]
        rfl

/-! ## Work on the evaluation stack -/

theorem beside_onStore {α : Type} (x : Run Store α) [quiet : Keeps Store.Quiet x]
    [upper : Keeps Store.Upper x] : Keeps Beside (onStore x) := by
  constructor
  intro m
  have q := quiet.related m.store
  have u := upper.related m.store
  have beside {store : Store} (hq : Store.Quiet m.store store) (hu : Store.Upper m.store store) :
      Beside m { m with store := store } := by
    refine ⟨hq.memory.order, ?_, rfl, rfl, rfl, rfl, rfl, rfl, rfl, rfl⟩
    -- the evaluation stack lies above all frames
    intro x _ _ high
    refine hu.peekByte ?_
    intro above
    have := UInt16.le_iff_toNat_le.1 above
    change 0xF000 ≤ _ at this
    omega
  unfold onStore
  cases h : x m.store with
  | ok a store =>
    rw [h] at q u
    exact beside q u
  | error e store =>
    rw [h] at q u
    exact beside q u

instance beside_restoreBase : Keeps Beside restoreBase :=
  keeps_restoreBase fun _ _ _ =>
    ⟨rfl, fun _ _ _ _ => rfl, rfl, rfl, rfl, rfl, rfl, rfl, rfl, rfl⟩

instance balances_pushBlock (values : List Word) :
    Keeps Balances (onStore (Store.pushBlock values)) := by
  have beside := beside_onStore (Store.pushBlock values)
  infer_instance

theorem Beside.of_same (store : m'.store = m.store) (segments : m'.segments = m.segments)
    (psp : m'.psp = m.psp) (mp : m'.mp = m.mp) (seg : m'.seg = m.seg) (jtab : m'.jtab = m.jtab)
    (depth : m'.depth = m.depth) (ipc : m'.ipc = m.ipc) (ipcBase : m'.ipcBase = m.ipcBase) :
    Beside m m' := by
  have memory : m'.memory = m.memory := congrArg Store.memory store
  exact ⟨by rw [memory], fun _ _ _ _ => by rw [memory], segments, psp, mp, seg, jtab, depth, ipc,
    ipcBase⟩

instance balances_handOver (values : List Word) (baseProcedure : Bool) :
    Keeps Balances (handOver values baseProcedure) :=
  keeps_handOver (R := Balances)
    (fun _ => Balances.of_beside (Beside.of_same rfl rfl rfl rfl rfl rfl rfl rfl rfl)
      (Settles.of_same rfl rfl rfl rfl rfl rfl)) values baseProcedure

theorem balances_returnFrom (active : 0 < m.depth) (results : UInt8) (baseProcedure : Bool) :
    Balances m (endState (returnFrom results baseProcedure m)) := by
  intro standing
  rcases returnFrom_cases (rfl : returnFrom results baseProcedure m = _) with
    ⟨e, eq, -⟩ | ⟨caller, values, hc, -, outcome⟩
  · rw [eq]
    exact ⟨standing, fun _ _ => rfl⟩
  cases (standing.upright.readCaller active).symm.trans hc
  obtain ⟨m₁, resumed, standing₁, moved₁⟩ := standing.resume active
  rcases outcome with ⟨e, m', stuck, -⟩ | ⟨m₁', resumed', eq⟩
  · cases resumed.symm.trans stuck
  cases resumed.symm.trans resumed'
  rw [← eq]
  obtain ⟨standing₂, moved₂⟩ :=
    (balances_handOver values baseProcedure).related m₁ standing₁
  refine ⟨standing₂, ?_⟩
  intro s other
  have first := moved₁ s other
  have second := moved₂ s other
  omega

/-! ## Faults of returns -/

/-- The faults of the evaluation stack. -/
def StackFault (e : Fault) : Prop :=
  e = .stackOverflow ∨ e = .system .stackUnderflow ∨ ∃ a, e = .invalidReference a

theorem invalid_of_readByte {memory : Memory} {a : Address} {e : Fault}
    (h : memory.readByte a = .error e) : ∃ b, e = .invalidReference b := by
  unfold Memory.readByte at h
  split at h
  · cases h
    exact ⟨a, rfl⟩
  · split at h <;> cases h

theorem invalid_of_readWord {memory : Memory} {a : Address} {e : Fault}
    (h : memory.readWord a = .error e) : ∃ b, e = .invalidReference b := by
  unfold Memory.readWord at h
  cases hf : memory.readByte a with
  | error e' =>
    rw [hf] at h
    cases h
    exact invalid_of_readByte hf
  | ok first =>
    cases hs : memory.readByte (a + 1) with
    | error e' =>
      rw [hf, hs] at h
      cases h
      exact invalid_of_readByte hs
    | ok second =>
      rw [hf, hs] at h
      cases h

theorem invalid_of_writeWord {memory memory' : Memory} {a : Address} {w : Word} {e : Fault}
    (h : Memory.writeWord a w memory = .error e memory') : ∃ b, e = .invalidReference b := by
  have byte {a : Address} {v : UInt8} {m m' : Memory} (h : Memory.writeByte a v m = .error e m') :
      ∃ b, e = .invalidReference b := by
    rcases Memory.writeByte_cases a v m with ⟨d, hw⟩ | ⟨-, hw⟩ | hw
    · rw [hw] at h
      cases h
    · rw [hw] at h
      cases h
    · rw [hw] at h
      cases h
      exact ⟨a, rfl⟩
  unfold Memory.writeWord at h
  rw [get_bind_apply] at h
  rcases bind_cases h with ⟨e', m₁, hf, hr⟩ | ⟨u, m₁, -, hs⟩
  · cases hr
    exact byte hf
  · exact byte hs

theorem stackFault_of_pushAll {ws : List Word} {s s' : Store} {e : Fault}
    (h : Store.pushAll ws s = .error e s') : StackFault e := by
  induction ws generalizing s with
  | nil => cases h
  | cons w ws ih =>
    rcases bind_cases h with ⟨e', s₁, hp, hr⟩ | ⟨u, s₁, -, rest⟩
    · cases hr
      unfold Store.push at hp
      split at hp
      · cases hp
        exact .inl rfl
      · unfold Store.onMemory at hp
        dsimp only at hp
        split at hp
        · cases hp
        · rename_i written
          cases hp
          exact .inr (.inr (invalid_of_writeWord written))
    · exact ih rest

theorem error_of_mapM {α β : Type} {f : α → Except Fault β} {xs : List α} {e : Fault}
    (h : xs.mapM f = .error e) : ∃ x ∈ xs, f x = .error e := by
  -- The first element that fails decides, so the induction stops there.
  induction xs with
  | nil => cases h
  | cons x xs ih =>
    rw [List.mapM_cons] at h
    cases hx : f x with
    | error e' =>
      rw [hx] at h
      cases h
      exact ⟨x, List.mem_cons_self, hx⟩
    | ok y =>
      rw [hx] at h
      cases hr : xs.mapM f with
      | error e' =>
        rw [hr] at h
        cases h
        obtain ⟨z, hz, fault⟩ := ih hr
        exact ⟨z, List.mem_cons_of_mem x hz, fault⟩
      | ok ys =>
        rw [hr] at h
        cases h

theorem stackFault_of_handOver {values : List Word} {baseProcedure : Bool} {e : Fault}
    (h : handOver values baseProcedure m = .error (.trap e) m') : StackFault e := by
  -- Handing over pushes the results; a base procedure restores the base before.
  have plain {m₁ : Machine} (h : handOver values false m₁ = .error (.trap e) m') :
      StackFault e := by
    rw [handOver_plain] at h
    rcases bind_cases h with ⟨stop, m₂, pushed, hr⟩ | ⟨u, m₂, -, rest⟩
    · cases hr
      cases hs : Store.pushBlock values m₁.store with
      | ok u s =>
        rw [raising_of_ok (show onStore (Store.pushBlock values) m₁ = _ by
          unfold onStore; rw [hs])] at pushed
        cases pushed
      | error e' s =>
        rw [raising_of_error (show onStore (Store.pushBlock values) m₁ = _ by
          unfold onStore; rw [hs])] at pushed
        cases pushed
        exact stackFault_of_pushAll hs
    · cases rest
  cases baseProcedure with
  | false => exact plain h
  | true =>
    rw [handOver_base] at h
    rcases bind_cases h with ⟨stop, m₁, failed, hr⟩ | ⟨u, m₁, -, rest⟩
    · cases hr
      rcases restoreBase_cases failed with
        ⟨e', eq, ⟨-, rfl⟩ | unread⟩ | ⟨base, -, -, ⟨-, eq⟩ | ⟨-, eq⟩⟩
      · cases eq
        exact .inr (.inl rfl)
      · cases eq
        exact .inr (.inr (invalid_of_readWord unread))
      · cases eq
      · cases eq
    · exact plain rest

/-- Going back succeeds, so a return can only fail for the evaluation stack. -/
theorem Standing.returnFrom_fault {results : UInt8} {baseProcedure : Bool} {e : Fault}
    (standing : m.Standing) (active : 0 < m.depth)
    (h : returnFrom results baseProcedure m = .error (.trap e) m') : StackFault e := by
  rcases returnFrom_cases h with ⟨e', eq, failed | failed⟩ | ⟨caller, values, hc, -, outcome⟩
  · cases (standing.upright.readCaller active).symm.trans failed
  · cases eq
    obtain ⟨i, -, fault⟩ := error_of_mapM failed
    exact .inr (.inr (invalid_of_readWord fault))
  cases (standing.upright.readCaller active).symm.trans hc
  obtain ⟨m₁, resumed, -⟩ := standing.resume active
  rcases outcome with ⟨e, m', stuck, -⟩ | ⟨m₁', resumed', handed⟩
  · cases resumed.symm.trans stuck
  · exact stackFault_of_handOver handed

end Machine
end PSystem
