import PSystem.Proofs.CodeImmutability

/-!
# What instructions leave alone

`Grounded` is what the delivery of a fault relies on.  It holds of any started machine, also if its
code file has segments that cannot be loaded.  No instruction changes what the host chose or what is
noted of a delivered trap (`Unmoved`).  The depth rises by calls only, and a call that fails has made
no frame: what is no call `Sinks`, and calls, and what ends in one, `Retreats`.
-/

namespace PSystem

/-! ## Segment 0 -/

/-- The addresses that a table entry gives, whether the segment is in memory or not. -/
def Segment.addresses (s : Segment) : List Address :=
  s.codeBase :: (s.extension.bind (·.base)).toList

namespace SegmentTable

open Machine (programTop)

variable {t : SegmentTable} {n : UInt8} {f : Segment → Segment}

/-- Entries stand under their numbers, none gives an address above the program stack, and segment 0
is in memory. -/
structure Rooted (t : SegmentTable) : Prop where
  numbered : ∀ n s, t.get? n = some s → s.number = n
  below : ∀ n s, t.get? n = some s → ∀ a ∈ s.addresses, a ≤ programTop
  kernel : ∃ s, t.get? 0 = some s ∧ s.isResident = true ∧ Heap.start ≤ s.codeBase ∧
    s.codeBase.toNat + s.footprint.toNat ≤ 0xF000

theorem Rooted.modify (h : t.Rooted) (number : ∀ s, (f s).number = s.number)
    (below : ∀ s, t.get? n = some s → ∀ a ∈ (f s).addresses, a ≤ programTop)
    (kernel : n = 0 → ∀ s, t.get? 0 = some s → s.isResident = true →
      (f s).isResident = true ∧ (f s).codeBase = s.codeBase ∧ (f s).size = s.size) :
    (t.modify n f).Rooted where
  numbered := by
    intro k s hs
    rcases get?_modify_cases hs with ⟨-, old⟩ | ⟨s₀, -, old, rfl⟩
    · exact h.numbered k s old
    · exact (number s₀).trans (h.numbered k s₀ old)
  below := by
    intro k s hs
    rcases get?_modify_cases hs with ⟨-, old⟩ | ⟨s₀, rfl, old, rfl⟩
    · exact h.below k s old
    · exact below s₀ old
  kernel := by
    obtain ⟨s, hs, resident, start, top⟩ := h.kernel
    -- Segment 0 stays where it is, whatever else is changed in its entry.
    by_cases zero : n = 0
    · obtain ⟨resident', same, size⟩ := kernel zero s hs resident
      subst zero
      refine ⟨f s, get?_modify_self hs, resident', same ▸ start, ?_⟩
      unfold Segment.footprint
      rw [same, size]
      exact top
    · exact ⟨s, (get?_modify_of_ne zero).trans hs, resident, start, top⟩

/-- Changes of an entry that leave its code where it is. -/
theorem Rooted.modify_same (h : t.Rooted) (number : ∀ s, (f s).number = s.number)
    (same : ∀ s, (f s).addresses = s.addresses ∧ (f s).size = s.size)
    (kernel : n = 0 → ∀ s, s.isResident = true → (f s).isResident = true) :
    (t.modify n f).Rooted := by
  refine h.modify number (fun s hs => (same s).1 ▸ h.below n s hs) fun zero s _ resident => ?_
  exact ⟨kernel zero s resident, (List.cons.inj (same s).1).1, (same s).2⟩

theorem Rooted.floor_le (h : t.Rooted) : t.residentFloor programTop ≤ programTop := by
  rcases residentFloor_mem (t := t) programTop with eq | mem
  · rw [eq]
    exact UInt16.le_refl _
  · obtain ⟨s, mem', inside⟩ := List.mem_flatMap.1 mem
    obtain ⟨n, hs⟩ := mem_toList.1 mem'
    refine h.below n s hs _ ?_
    unfold codeAddresses at inside
    split at inside
    · exact inside
    · cases inside

/-- Only a segment other than 0 can be out of memory. -/
theorem Rooted.other_of_absent (h : t.Rooted) {s : Segment} (hs : t.get? n = some s)
    (absent : s.isResident = false) : n ≠ 0 := by
  rintro rfl
  obtain ⟨s₀, hs₀, resident, -⟩ := h.kernel
  rw [hs] at hs₀
  cases hs₀
  rw [absent] at resident
  cases resident

end SegmentTable

namespace Memory

variable {m m' : Memory}

/-- The fields of a trap can be written. -/
def Recordable (m : Memory) : Prop :=
  ∀ a, Syscom.base ≤ a → a < Syscom.date → m.Free a

theorem Recordable.guarded (h : m.Recordable) (g : Guarded m m') : m'.Recordable := by
  intro a low high
  have free := h a low high
  exact ⟨free.valid, (g.mapped a).trans free.unmapped, (g.readOnly a).trans free.unlocked⟩

/-- What lies above the heap may be protected, and anything may lose protection. -/
theorem Recordable.protect (h : m.Recordable) {start stop : Address} {on : Bool}
    (above : on = true → ∀ a, start ≤ a → a < stop → Heap.start ≤ a) :
    (m.protect start stop on).Recordable := by
  intro a low high
  have free := h a low high
  refine ⟨free.valid, ?_, ?_⟩
  · rw [cell_protect]
    exact free.unmapped
  · rw [cell_protect]
    dsimp only
    split
    · rename_i inside
      cases on with
      | false => rfl
      | true =>
        have start := above rfl a inside.1 inside.2
        exact absurd (UInt16.lt_trans high (by decide)) (UInt16.not_lt.2 start)
    · exact free.unlocked

end Memory

namespace Machine

variable {ε α β : Type} {m m' : Machine} {n segment procedure : UInt8} {s : Segment}

/-- What the delivery of a fault relies on, whatever the program does.  Nothing from the evaluation
stack on is protected. -/
structure Grounded (m : Machine) : Prop where
  regular : m.Regular
  hosted : m.HostsQuietly
  table : m.segments.Rooted
  fields : m.memory.Recordable
  stack : ∀ a, Store.limit ≤ a → (m.memory.cell a).readOnly = false

/-- Cells that were carved out lie in the program stack. -/
theorem lt_programTop_of_carved {base size a : Address}
    (carved : base.toNat + size.toNat = m.psp.toNat) (top : m.psp ≤ programTop)
    (high : a < base + size) : a < programTop := by
  have hpsp := m.psp.toNat_lt
  have stop : base + size = m.psp := by
    rw [← UInt16.toNat_inj, UInt16.toNat_add]
    omega
  exact UInt16.lt_of_lt_of_le (stop ▸ high) top

namespace Grounded

theorem observe (h : Grounded m) (host : HostView) : Grounded (m.observe host) where
  regular := ⟨h.regular.heap, h.regular.unmapped, h.regular.top⟩
  hosted := h.hosted
  table := h.table
  fields := fun a low high =>
    ⟨(h.fields a low high).valid, (h.fields a low high).unmapped, (h.fields a low high).unlocked⟩
  stack := h.stack

theorem of_quiet (h : Grounded m) (q : Quiet m m') : Grounded m' where
  regular :=
    { heap := q.heap h.regular.heap
      unmapped := fun a ha => (q.memory.mapped a).trans (h.regular.unmapped a ha)
      top := q.psp.symm ▸ h.regular.top }
  hosted := by
    unfold HostsQuietly
    rw [q.bound]
    exact h.hosted
  table := q.segments.symm ▸ h.table
  fields := h.fields.guarded q.memory
  stack := fun a ha => (q.memory.readOnly a).trans (h.stack a ha)

/-- Changes of registers that neither memory nor code depend on. -/
theorem of_same (h : Grounded m) (memory : m'.memory = m.memory)
    (segments : m'.segments = m.segments) (psp : m'.psp = m.psp) (heap : m'.heap = m.heap)
    (bound : m'.bound = m.bound) : Grounded m' where
  regular :=
    { heap := heap.symm ▸ h.regular.heap
      unmapped := memory.symm ▸ h.regular.unmapped
      top := psp.symm ▸ h.regular.top }
  hosted := by
    unfold HostsQuietly
    rw [bound]
    exact h.hosted
  table := segments.symm ▸ h.table
  fields := memory.symm ▸ h.fields
  stack := memory.symm ▸ h.stack

theorem withTable (h : Grounded m) {table : SegmentTable} (rooted : table.Rooted) :
    Grounded (m.withTable table) where
  regular := ⟨h.regular.heap, h.regular.unmapped, h.regular.top⟩
  hosted := h.hosted
  table := rooted
  fields := h.fields
  stack := h.stack

/-- The program stack pointer may be anywhere up to the top of the program stack. -/
theorem withPsp (h : Grounded m) {psp : Address} (top : psp ≤ programTop) :
    Grounded { m with psp := psp } where
  regular := ⟨h.regular.heap, h.regular.unmapped, top⟩
  hosted := h.hosted
  table := h.table
  fields := h.fields
  stack := h.stack

theorem withMemory (h : Grounded m) {memory : Memory} (g : Memory.Guarded m.memory memory) :
    Grounded (m.withMemory memory) :=
  h.of_quiet ⟨⟨g, id⟩, id, rfl⟩

/-- What lies between the start of the heap and the top of the program stack may be protected, and
anything may lose protection. -/
theorem protect (h : Grounded m) (start stop : Address) (on : Bool)
    (within : on = true → ∀ a, start ≤ a → a < stop → Heap.start ≤ a ∧ a < programTop) :
    Grounded (m.withMemory (m.memory.protect start stop on)) where
  regular :=
    { heap := h.regular.heap
      unmapped := fun a ha => by
        show ((m.memory.protect start stop on).cell a).mapped = false
        rw [Memory.cell_protect]
        exact h.regular.unmapped a ha
      top := h.regular.top }
  hosted := h.hosted
  table := h.table
  fields := h.fields.protect fun locked a low high => (within locked a low high).1
  stack := fun a ha => by
    show ((m.memory.protect start stop on).cell a).readOnly = false
    rw [Memory.cell_protect]
    dsimp only
    split
    · rename_i inside
      -- Only unlocking reaches the stack; what is locked lies below it.
      cases on with
      | false => rfl
      | true => exact absurd (within rfl a inside.1 inside.2).2 (UInt16.not_lt.2 ha)
    · exact h.stack a ha

theorem reclaimed (h : Grounded m) : Grounded m.reclaimed :=
  h.withPsp (UInt16.le_trans (SegmentTable.min_le_right _ _) h.table.floor_le)

theorem afterRelease (h : Grounded m) (n : UInt8) (s : Segment) (other : n ≠ 0) :
    Grounded (m.afterRelease n s) := by
  have memory : Grounded (m.withMemory (memoryAfterRelease m.memory s)) := by
    unfold memoryAfterRelease
    split
    · exact h.protect _ _ false nofun
    · exact h.withMemory (Std.Refl.refl _)
  exact memory.withTable (h.table.modify_same (fun _ => rfl) (fun _ => ⟨rfl, rfl⟩)
    fun zero => absurd zero other)

/-- However a load ends. -/
theorem loadSegment (h : Grounded m) (n : UInt8) : Grounded (endState (loadSegment n m)) := by
  rcases loadSegment_cases (rfl : Machine.loadSegment n m = _) with
    ⟨e, hr⟩ | ⟨s, hs, ⟨-, hr⟩ | ⟨absent, brought⟩⟩
  · rw [hr]
    exact h
  · rw [hr]
    refine h.withTable (h.table.modify_same (fun _ => rfl) (fun _ => ⟨rfl, rfl⟩) fun _ s _ => ?_)
    exact decide_eq_true (Nat.succ_pos s.useCount)
  have number := h.table.numbered n s hs
  have other := h.table.other_of_absent hs absent
  rcases bringIn_cases brought with ⟨e, hr⟩ | ⟨base, bytes, carved, -, written⟩
  · rw [hr]
    exact h
  cases hw : Memory.writeBytes base bytes m.memory with
  | error e memory =>
    rw [hw] at written
    rw [written]
    have guarded : Memory.Guarded m.memory memory := Keeps.of_error hw
    refine (h.withMemory guarded).withTable ?_
    rw [number]
    exact h.table.modify_same (fun _ => rfl) (fun _ => ⟨rfl, rfl⟩) fun zero => absurd zero other
  | ok u memory =>
    rw [hw] at written
    rw [written]
    have guarded : Memory.Guarded m.memory memory := Keeps.of_ok hw
    obtain ⟨sum, room⟩ := carve_ok carved
    -- the code lies right below the program stack pointer
    have top : base ≤ programTop := by
      have below := UInt16.le_iff_toNat_le.1 h.regular.top
      rw [UInt16.le_iff_toNat_le]
      omega
    have rooted : (m.segments.modify s.number (Segment.putAt base)).Rooted := by
      rw [number]
      refine h.table.modify (fun _ => rfl) (fun s' hs' a ha => ?_) fun zero => absurd zero other
      rcases List.mem_cons.1 ha with rfl | ext
      · exact top
      · exact h.table.below n s' hs' a (List.mem_cons_of_mem _ ext)
    have within (a : Address) (low : base ≤ a) (high : a < base + s.footprint) :
        Heap.start ≤ a ∧ a < programTop :=
      ⟨UInt16.le_trans (UInt16.le_trans h.regular.heap room) low,
        lt_programTop_of_carved sum h.regular.top high⟩
    exact (((h.withMemory guarded).protect _ _ true fun _ => within).withTable rooted).withPsp top

theorem entered {p : Attributes} {jtab : Address} (h : Grounded m)
    (entered : Entered p segment jtab m m') : Grounded m' := by
  have top : m'.mp ≤ programTop := by
    have size := entered.size
    have below := UInt16.le_iff_toNat_le.1 h.regular.top
    rw [UInt16.le_iff_toNat_le]
    omega
  have rooted : (if p.level ≤ 0 then m.segments.modify segment (Segment.withDataBase m'.mp)
      else m.segments).Rooted := by
    split
    · exact h.table.modify_same (fun _ => rfl) (fun _ => ⟨rfl, rfl⟩) fun _ _ => id
    · exact h.table
  have written : Grounded { m with store := m'.store } := h.of_quiet ⟨entered.store, id, rfl⟩
  have placed := (written.withTable rooted).withPsp top
  refine placed.of_same rfl ?_ ?_ ?_ ?_
  all_goals rw [entered.registers]
  all_goals rfl

end Grounded

/-! ## Without a call -/

/-- What the host chose, and what is noted of a delivered trap. -/
structure Unmoved (m m' : Machine) : Prop where
  config : m'.config = m.config
  trapDepth : m'.trapDepth = m.trapDepth
  currentAddress : m'.currentAddress = m.currentAddress

instance : IsPreorder Machine Unmoved where
  refl _ := ⟨rfl, rfl, rfl⟩
  trans _ _ _ h h' :=
    ⟨h'.config.trans h.config, h'.trapDepth.trans h.trapDepth,
      h'.currentAddress.trans h.currentAddress⟩

theorem Quiet.unmoved (h : Quiet m m') : Unmoved m m' where
  config := by rw [h.rest]
  trapDepth := by rw [h.rest]
  currentAddress := by rw [h.rest]

/-- A grounded machine stays so, and no frame is made. -/
def Sinks (m m' : Machine) : Prop :=
  m.Grounded → m'.Grounded ∧ Unmoved m m' ∧ m'.depth ≤ m.depth

instance : IsPreorder Machine Sinks where
  refl m grounded := ⟨grounded, Std.Refl.refl m, Nat.le_refl _⟩
  trans m m' m'' h h' grounded := by
    obtain ⟨grounded', unmoved, low⟩ := h grounded
    obtain ⟨grounded'', unmoved', low'⟩ := h' grounded'
    exact ⟨grounded'', IsTrans.trans _ _ _ unmoved unmoved', Nat.le_trans low' low⟩

theorem Quiet.sinks (h : Quiet m m') : Sinks m m' :=
  fun grounded => ⟨grounded.of_quiet h, h.unmoved, Nat.le_of_eq h.depth⟩

instance (priority := low) sinks_of_quiet (x : EStateM ε Machine α) [quiet : Keeps Quiet x] :
    Keeps Sinks x :=
  quiet.mono fun _ _ => Quiet.sinks

instance sinks_loadSegment (n : UInt8) : Keeps Sinks (loadSegment n) := by
  constructor
  intro m grounded
  have kept : Unmoved m (endState (loadSegment n m)) ∧
      (endState (loadSegment n m)).depth ≤ m.depth := by
    rcases loadSegment_cases (rfl : loadSegment n m = _) with ⟨e, h⟩ | ⟨s, -, ⟨-, h⟩ | ⟨-, brought⟩⟩
    · rw [h]
      exact ⟨Std.Refl.refl m, Nat.le_refl _⟩
    · rw [h]
      exact ⟨⟨rfl, rfl, rfl⟩, Nat.le_refl _⟩
    rcases bringIn_cases brought with ⟨e, h⟩ | ⟨base, bytes, -, -, written⟩
    · rw [h]
      exact ⟨Std.Refl.refl m, Nat.le_refl _⟩
    · split at written
      all_goals
        rw [written]
        exact ⟨⟨rfl, rfl, rfl⟩, Nat.le_refl _⟩
  exact ⟨grounded.loadSegment n, kept⟩

theorem sinks_afterRelease (m : Machine) (other : n ≠ 0) (s : Segment) :
    Sinks m (m.afterRelease n s) :=
  fun grounded => ⟨grounded.afterRelease n s other, ⟨rfl, rfl, rfl⟩, Nat.le_refl _⟩

theorem sinks_reclaimed (m : Machine) : Sinks m m.reclaimed :=
  fun grounded => ⟨grounded.reclaimed, ⟨rfl, rfl, rfl⟩, Nat.le_refl _⟩

theorem sinks_leaveSegment (other : n ≠ 0) : Keeps Sinks (leaveSegment n) :=
  keeps_leaveSegment (fun m s _ _ => sinks_afterRelease m other s) sinks_reclaimed

instance sinks_releaseSegment : Keeps Sinks releaseSegment := by
  have left (w : Word) : Keeps Sinks (if w.toUInt8 ≠ 0 then leaveSegment w.toUInt8 else pure ()) := by
    by_cases kernel : w.toUInt8 = 0
    · simp only [kernel, ne_eq, not_true_eq_false, if_false]
      exact Keeps.pure ()
    · simp only [kernel, ne_eq, not_false_eq_true, if_true]
      exact sinks_leaveSegment kernel
  exact Keeps.bind pop fun w => if w.toUInt8 ≠ 0 then leaveSegment w.toUInt8 else pure ()

instance sinks_resume (caller : Caller) : Keeps Sinks (resume caller) :=
  keeps_resume
    (fun _ grounded => ⟨grounded.of_same rfl rfl rfl rfl rfl, ⟨rfl, rfl, rfl⟩, Nat.le_refl _⟩)
    (fun _ _ grounded => ⟨grounded.of_same rfl rfl rfl rfl rfl, ⟨rfl, rfl, rfl⟩, Nat.sub_le _ 1⟩)
    (fun m _ s other _ _ => sinks_afterRelease m other s) sinks_reclaimed

instance sinks_restoreBase : Keeps Sinks restoreBase :=
  keeps_restoreBase fun _ _ _ grounded =>
    ⟨grounded.of_same rfl rfl rfl rfl rfl, ⟨rfl, rfl, rfl⟩, Nat.le_refl _⟩

instance sinks_handOver (values : List Word) (baseProcedure : Bool) :
    Keeps Sinks (handOver values baseProcedure) :=
  keeps_handOver (fun _ grounded =>
    ⟨grounded.of_same rfl rfl rfl rfl rfl, ⟨rfl, rfl, rfl⟩, Nat.le_refl _⟩) values baseProcedure

instance sinks_returnFrom (results : UInt8) (baseProcedure : Bool) :
    Keeps Sinks (returnFrom results baseProcedure) :=
  keeps_returnFrom results

/-! ## With a call at the end -/

/-- A grounded machine stays so, and a computation that fails has made no frame. -/
class Retreats (x : EStateM ε Machine α) : Prop where
  ends : ∀ m : Machine, m.Grounded → (endState (x m)).Grounded ∧ Unmoved m (endState (x m)) ∧
    (succeeded (x m) = false → (endState (x m)).depth ≤ m.depth)

namespace Retreats

instance (priority := low) of_sinks (x : EStateM ε Machine α) [h : Keeps Sinks x] : Retreats x := by
  constructor
  intro m grounded
  obtain ⟨grounded', unmoved, low⟩ := h.related m grounded
  exact ⟨grounded', unmoved, fun _ => low⟩

instance bind (x : EStateM ε Machine α) (f : α → EStateM ε Machine β) [hx : Keeps Sinks x]
    [hf : ∀ a, Retreats (f a)] : Retreats (x >>= f) := by
  constructor
  intro m grounded
  have first := hx.related m grounded
  rcases bind_cases (rfl : (x >>= f) m = _) with ⟨e, m', h, hr⟩ | ⟨a, m', h, hr⟩
  · rw [h] at first
    rw [hr]
    exact ⟨first.1, first.2.1, fun _ => first.2.2⟩
  · rw [h] at first
    rw [← hr]
    obtain ⟨grounded', unmoved, low⟩ := first
    obtain ⟨grounded'', unmoved', low'⟩ := (hf a).ends m' grounded'
    exact ⟨grounded'', IsTrans.trans _ _ _ unmoved unmoved',
      fun failed => Nat.le_trans (low' failed) low⟩

/-- What a result is turned into makes no difference. -/
instance bind_pure (x : EStateM ε Machine α) (b : β) [h : Retreats x] :
    Retreats (x >>= fun _ => pure b) := by
  constructor
  intro m grounded
  have ends := h.ends m grounded
  rcases bind_cases (rfl : (x >>= fun _ => pure b) m = _) with ⟨e, m', hx, hr⟩ | ⟨a, m', hx, hr⟩
  · rw [hx] at ends
    rw [hr]
    exact ends
  · rw [hx] at ends
    rw [← hr]
    exact ⟨ends.1, ends.2.1, nofun⟩

instance raising (x : Run Machine α) [h : Retreats x] : Retreats (liftM x : Exec α) := by
  constructor
  intro m grounded
  have ends := h.ends m grounded
  rw [endState_liftM, succeeded_liftM]
  exact ends

end Retreats

/-- A call makes a frame only if it enters a procedure. -/
theorem unmoved_call (grounded : m.Grounded) {r : EStateM.Result Fault Machine CallKind}
    (h : call segment procedure m = r) : (endState r).Grounded ∧ Unmoved m (endState r) ∧
      ((∀ m', r ≠ .ok .entered m') → (endState r).depth ≤ m.depth) := by
  rcases call_cases grounded.regular grounded.hosted h with
    ⟨e, m', hr, kept⟩ | ⟨-, kept, -⟩ | ⟨jtab, p, m', -, -, hr, entered⟩
  · rw [hr]
    obtain ⟨grounded', unmoved, low⟩ := kept.quiet.sinks grounded
    exact ⟨grounded', unmoved, fun _ => low⟩
  · obtain ⟨grounded', unmoved, low⟩ := kept.quiet.sinks grounded
    exact ⟨grounded', unmoved, fun _ => low⟩
  · rw [hr]
    have registers := entered.registers
    refine ⟨grounded.entered entered, ⟨?_, ?_, ?_⟩,
      fun other => absurd rfl (other m')⟩
    all_goals rw [endState_ok, registers]

instance retreats_call (segment procedure : UInt8) : Retreats (call segment procedure) := by
  constructor
  intro m grounded
  obtain ⟨grounded', unmoved, low⟩ := unmoved_call grounded (rfl : call segment procedure m = _)
  refine ⟨grounded', unmoved, fun failed => low ?_⟩
  rintro m' h
  rw [h] at failed
  cases failed

instance retreats_callHere : Retreats callHere := by
  unfold callHere
  infer_instance

instance retreats_callExternal (segment procedure : UInt8) :
    Retreats (callExternal segment procedure) := by
  constructor
  intro m grounded
  rcases callExternal_ends (rfl : callExternal segment procedure m = _) with
    ⟨e, m', -, load, failed⟩ | ⟨loaded, brought, ends⟩
  · obtain ⟨grounded', unmoved, low⟩ := (sinks_loadSegment segment).of_error load grounded
    rw [failed]
    exact ⟨grounded', unmoved, fun _ => low⟩
  obtain ⟨grounded₁, unmoved₁, low₁⟩ := (brought.related : Sinks m loaded) grounded
  rcases ends with ⟨m', called, entered⟩ | ⟨unmade, ended⟩
  · obtain ⟨grounded₂, unmoved₂, -⟩ := unmoved_call grounded₁ called
    rw [entered]
    exact ⟨grounded₂, IsTrans.trans _ _ _ unmoved₁ unmoved₂, nofun⟩
  · -- the segment is let go only after a call that made no frame
    obtain ⟨grounded₂, unmoved₂, low₂⟩ := unmoved_call grounded₁ rfl
    have leaving : Keeps Sinks (m.letGo segment) := keeps_letGo sinks_leaveSegment
    obtain ⟨grounded₃, unmoved₃, low₃⟩ := leaving.related _ grounded₂
    rw [ended]
    exact ⟨grounded₃, IsTrans.trans _ _ _ unmoved₁ (IsTrans.trans _ _ _ unmoved₂ unmoved₃),
      fun _ => Nat.le_trans low₃ (Nat.le_trans (low₂ unmade) low₁)⟩

theorem retreats_perform (procedure : StandardProcedure) : Retreats (perform procedure) := by
  by_cases plain : procedure.manages = false
  · have kept := works_perform procedure plain
    infer_instance
  · cases procedure with
    | exit =>
      unfold perform exitNamed
      infer_instance
    | getseg | relseg =>
      unfold perform
      infer_instance
    | _ => exact absurd rfl plain

instance retreats_callStandard : Retreats callStandard := by
  have each (procedure : Option StandardProcedure) (code : UInt8) : Retreats
      (match procedure with
        | some procedure => perform procedure
        | none => throw (.trap (.unimplemented (.numberedProcedure code)))) := by
    cases procedure with
    | some procedure => exact retreats_perform procedure
    | none => infer_instance
  exact Retreats.bind (liftM fetchByte : Exec UInt8) fun code =>
    match StandardProcedure.ofCode? code with
    | some procedure => perform procedure
    | none => throw (.trap (.unimplemented (.numberedProcedure code)))

theorem retreats_executeTable (op : Opcode) : Retreats (executeTable op) := by
  by_cases plain : op.transfers = false
  · have kept := works_executeTable (R := Works) op plain
    infer_instance
  · cases op with
    | clp | cgp | cip | cbp | cxp | rnp | rbp | csp =>
      unfold executeTable
      infer_instance
    | _ => exact absurd rfl plain

theorem retreats_execute (opcode : UInt8) : Retreats (execute opcode) := by
  unfold execute
  cases Encoding.ofCode opcode with
  | shortConstant n | shortLocal n | shortGlobal n | shortIndirect n | unused code => infer_instance
  | table op => exact retreats_executeTable op

instance retreats_executeNext : Retreats executeNext := by
  have each (opcode : UInt8) := retreats_execute opcode
  unfold executeNext
  infer_instance

/-! ## Starting a machine -/

/-- A machine on which nothing was started, whatever is bound to the host. -/
structure Unstarted (m : Machine) : Prop where
  clean : m.memory.Clean
  plain : m.memory.Plain
  heap : m.heap = Heap.empty
  psp : m.psp = programTop
  hosted : m.HostsQuietly

/-- A machine with other procedures bound to the host. -/
def withBound (m : Machine) (bound : List BoundProcedure) : Machine :=
  { m with bound := bound }

theorem unstarted_create (storage : Storage) (console : Console) (config : Config) (host : HostView)
    (limit : Option Nat) {bound : List BoundProcedure}
    (quiet : ∀ b ∈ bound, Keeps Store.Quiet b.run) :
    Unstarted ((create storage console config host limit).withBound bound) where
  clean := Memory.clean_reserve (Memory.clean_reserve Memory.clean_empty _ _) _ _
  plain := Memory.plain_reserve (Memory.plain_reserve Memory.plain_empty _ _) _ _
  heap := rfl
  psp := rfl
  hosted := quiet

/-- A dictionary gives no addresses, and no segment is in memory. -/
theorem blank_ofDictionary {d : Dictionary} {unit block : Word}
    (hs : (SegmentTable.ofDictionary d unit block).get? n = some s) :
    s.number = n ∧ s.addresses = [0] ∧ s.isResident = false :=
  SegmentTable.forall_ofDictionary unit block
    (P := fun n s => s.number = n ∧ s.addresses = [0] ∧ s.isResident = false)
    (fun _ _ => ⟨rfl, rfl, rfl⟩)
    (fun _ _ _ h => ⟨h.1, congrArg (· :: []) (List.cons.inj h.2.1).1, h.2.2⟩)
    (fun _ _ h => h.1) n s hs

/-- An extension that a dictionary gives is not in memory either. -/
theorem unplaced_ofDictionary {d : Dictionary} {unit block : Word} {x : Extension}
    (hs : (SegmentTable.ofDictionary d unit block).get? n = some s) (hx : s.extension = some x) :
    x.base = none := by
  have blank := (List.cons.inj (blank_ofDictionary hs).2.1).2
  rw [hx] at blank
  exact Option.toList_eq_nil_iff.1 blank

/-- With segment 0 placed below the top of the program stack, the table of a dictionary is rooted. -/
theorem rooted_putAt {d : Dictionary} {unit block : Word} {kernel : Segment} {base : Address}
    (hk : (SegmentTable.ofDictionary d unit block).get? 0 = some kernel)
    (placed : base.toNat + kernel.footprint.toNat = programTop.toNat) (start : Heap.start ≤ base) :
    ((SegmentTable.ofDictionary d unit block).modify 0 (Segment.putAt base)).Rooted := by
  have top : base ≤ programTop := UInt16.le_iff_toNat_le.2 (by omega)
  refine ⟨?_, ?_, _, SegmentTable.get?_modify_self hk, rfl, start, Nat.le_of_eq placed⟩
  · intro n s hs
    rcases SegmentTable.get?_modify_cases hs with ⟨-, old⟩ | ⟨s₀, rfl, old, rfl⟩
    · exact (blank_ofDictionary old).1
    · exact (blank_ofDictionary old).1
  · intro n s hs a ha
    rcases SegmentTable.get?_modify_cases hs with ⟨-, old⟩ | ⟨s₀, rfl, old, rfl⟩
    · rw [(blank_ofDictionary old).2.1, List.mem_singleton] at ha
      rw [ha]
      exact UInt16.zero_le
    · rcases List.mem_cons.1 ha with rfl | ext
      · exact top
      · change a ∈ (s₀.extension.bind (·.base)).toList at ext
        rw [(List.cons.inj (blank_ofDictionary old).2.1).2] at ext
        cases ext

/-- Reading segment 0 grounds a machine. -/
theorem grounded_of_kernel {fresh : Machine} (h : fresh.Unstarted) {memory : Memory}
    (clean : memory.Clean) (plain : memory.Plain) {d : Dictionary} {unit block : Word}
    {kernel : Segment} (hk : (SegmentTable.ofDictionary d unit block).get? 0 = some kernel)
    (loaded : loadSegment 0 (prepared fresh memory (SegmentTable.ofDictionary d unit block)) =
      .ok () m) :
    m.Grounded ∧ Unmoved fresh m ∧ ∃ s, m.segments.get? 0 = some s ∧ m.psp = s.codeBase ∧
      s.extension = kernel.extension := by
  obtain ⟨number, -, absent⟩ := blank_ofDictionary hk
  rcases loadSegment_cases loaded with ⟨e, eq⟩ | ⟨s, hs, away⟩
  · cases eq
  change (SegmentTable.ofDictionary d unit block).get? 0 = some s at hs
  rw [hk] at hs
  cases hs
  rcases away with ⟨resident, -⟩ | ⟨-, brought⟩
  · rw [absent] at resident
    cases resident
  rcases bringIn_cases brought with ⟨e, eq⟩ | ⟨base, bytes, carved, -, written⟩
  · cases eq
  cases hw : Memory.writeBytes base bytes
      (prepared fresh memory (SegmentTable.ofDictionary d unit block)).memory with
  | error e memory' =>
    rw [hw] at written
    cases written
  | ok u memory' =>
    rw [hw] at written
    cases written
    have guarded : Memory.Guarded memory memory' := Keeps.of_ok hw
    obtain ⟨sum, room⟩ := carve_ok carved
    change base.toNat + kernel.footprint.toNat = fresh.psp.toNat at sum
    change fresh.heap.np ≤ base at room
    rw [h.psp] at sum
    rw [h.heap] at room
    have start : Heap.start ≤ base := room
    have rooted := rooted_putAt hk sum start
    -- the table is what a machine without any code lacks
    have founded : Grounded (prepared fresh memory
        ((SegmentTable.ofDictionary d unit block).modify 0 (Segment.putAt base))) :=
      { regular :=
          { heap := h.heap ▸ UInt16.le_refl _
            unmapped := clean.unmapped
            top := h.psp ▸ UInt16.le_refl _ }
        hosted := h.hosted
        table := rooted
        fields := fun a low high =>
          { valid := by
              rintro rfl
              exact absurd low (by decide)
            unmapped := plain a low high
            unlocked := clean.readOnly a }
        stack := fun a _ => clean.readOnly a }
    have within (a : Address) (low : base ≤ a) (high : a < base + kernel.footprint) :
        Heap.start ≤ a ∧ a < programTop :=
      ⟨UInt16.le_trans start low,
        lt_programTop_of_carved (sum.trans (congrArg _ h.psp.symm)) founded.regular.top high⟩
    have grounded := ((founded.withMemory guarded).protect base (base + kernel.footprint) true
      fun _ => within).withPsp
        (rooted.below 0 _ (SegmentTable.get?_modify_self hk) base List.mem_cons_self)
    unfold afterLoad
    rw [number]
    exact ⟨grounded, ⟨rfl, rfl, rfl⟩, _, SegmentTable.get?_modify_self hk, rfl, rfl⟩

/-- The extension may be read right below segment 0. -/
theorem Grounded.loadExtension {x : Extension} {base : Address} (h : m.Grounded)
    (hs : m.segments.get? 0 = some s) (hx : s.extension = some x) (unplaced : x.base = none)
    (adjacent : m.psp = s.codeBase) (loaded : Machine.loadExtension m = .ok base m') :
    m'.Grounded ∧ Unmoved m m' := by
  obtain ⟨count, first, bytes, memory, memory', carved, room, slot, -, hw, same, rfl⟩ :=
    loadExtension_eq_ok hs hx unplaced adjacent loaded
  refine ⟨?_, ⟨rfl, rfl, rfl⟩⟩
  have guarded : Memory.Guarded m.memory memory := Keeps.of_ok hw
  have start : Heap.start ≤ base := UInt16.le_trans h.regular.heap room
  have top : base ≤ programTop := by
    have below := UInt16.le_iff_toNat_le.1 h.regular.top
    rw [UInt16.le_iff_toNat_le]
    omega
  -- the dictionary that is opened for correction and closed again is part of segment 0
  have dictionary (a : Address) (low : first ≤ a) (high : a < s.topWord) :
      Heap.start ≤ a ∧ a < programTop := by
    obtain ⟨s', hs', -, above, below⟩ := h.table.kernel
    rw [hs] at hs'
    cases hs'
    have inside := dictionary_inside slot above below ⟨low, high⟩
    exact ⟨UInt16.le_trans above (UInt16.le_iff_toNat_le.2 inside.1),
      UInt16.lt_iff_toNat_lt.2 (Nat.lt_of_lt_of_le inside.2 below)⟩
  have within (a : Address) (low : base ≤ a) (high : a < base + evenSize x.size) :
      Heap.start ≤ a ∧ a < programTop :=
    ⟨UInt16.le_trans start low, lt_programTop_of_carved carved h.regular.top high⟩
  have rooted : (m.segments.modify 0 (placeExtension x base)).Rooted := by
    refine h.table.modify (fun _ => rfl) (fun s' hs' a ha => ?_) fun _ s' _ resident =>
      ⟨resident, rfl, rfl⟩
    rcases List.mem_cons.1 ha with rfl | ext
    · exact h.table.below 0 s' hs' _ List.mem_cons_self
    · cases List.mem_singleton.1 ext
      exact top
  have opened := ((h.withMemory guarded).protect base (base + evenSize x.size) true
    fun _ => within).protect first s.topWord false nofun
  have closed := (opened.withMemory same.guarded).protect first s.topWord true fun _ => dictionary
  exact (closed.withTable rooted).withPsp top

theorem grounded_of_loadSystem {fresh : Machine} (h : fresh.Unstarted) {unit : Word} {file : String}
    (loaded : loadSystem unit file fresh = .ok () m) : m.Grounded ∧ Unmoved fresh m := by
  obtain ⟨block, dictionary, memory, kernel, m₁, -, -, clean, plain, -, hk, hl, ext⟩ :=
    loadSystem_stages loaded
  obtain ⟨grounded, unmoved, s, hs, adjacent, same⟩ :=
    grounded_of_kernel h (clean h.clean) (plain h.plain) hk hl
  rcases ext with ⟨-, rfl⟩ | ⟨base, some_, he⟩
  · exact ⟨grounded, unmoved⟩
  cases hx : kernel.extension with
  | none => exact absurd hx some_
  | some x =>
    obtain ⟨grounded', unmoved'⟩ :=
      grounded.loadExtension hs (same.trans hx) (unplaced_ofDictionary hk hx) adjacent he
    exact ⟨grounded', IsTrans.trans _ _ _ unmoved unmoved'⟩

theorem grounded_of_boot {fresh : Machine} (h : fresh.Unstarted) {unit : Word} {file : String}
    (booted : boot unit file fresh = .ok () m) : m.Grounded ∧ Unmoved fresh m := by
  obtain ⟨m₁, kind, m₂, loading, called, rfl⟩ := boot_stages booted
  obtain ⟨grounded, unmoved⟩ := grounded_of_loadSystem h loading
  have entered := (retreats_call 0 1).ends m₁ grounded
  rw [called, endState_ok] at entered
  obtain ⟨grounded', unmoved', -⟩ := entered
  rw [record_eq]
  exact ⟨grounded'.of_same rfl rfl rfl rfl rfl, IsTrans.trans _ _ _ unmoved
    (IsTrans.trans _ _ _ unmoved' ⟨rfl, rfl, rfl⟩)⟩

end Machine
end PSystem
