import PSystem.Proofs.Traps

/-!
# The result of the last unit transfer

The machine has the result of the last unit transfer twice: in a register, which IORESULT pushes and
IOCHECK tests, and in a word of the communication block, which shows it to the operating system.  A
unit transfer sets both (`Reports`).  Loads, calls and returns touch neither, however they end, as
they write to the program stack and to the evaluation stack only (`Spares`).  What is left is the
delivery of a fault that carries an I/O result, which fills in the word and not the register.  So
what the block shows is the register, until a fault is delivered that carries another result
(`io_result_mirrored_iff`).
-/

namespace PSystem

namespace Memory

variable {a low : Address}

/-- Bytes are written upward, and no write gets past the last address. -/
theorem keeps_writeBytes_upward (above : low ≤ a) (bs : Bytes) :
    Keeps (AgreesOff (low ≤ ·)) (writeBytes a bs) := by
  induction bs generalizing a with
  | nil => exact Keeps.pure ()
  | cons b bs ih =>
    have first : Keeps (AgreesOff (low ≤ ·)) (writeByte a b) := keeps_writeByte_off above
    have rest : Keeps (AgreesOff (low ≤ ·)) (writeBytes (a + 1) bs) := by
      -- Past the last address the write stops, since zero is no valid address.
      by_cases wraps : a + 1 = 0
      · rw [wraps]
        constructor
        intro m
        cases bs with
        | nil => exact Std.Refl.refl (r := AgreesOff (low ≤ ·)) m
        | cons c bs => exact Std.Refl.refl (r := AgreesOff (low ≤ ·)) m
      · refine ih (UInt16.le_trans above ?_)
        have small : a.toNat + 1 < 2 ^ 16 := by
          by_contra last
          have bound := a.toNat_lt
          refine wraps (UInt16.toNat_inj.1 ?_)
          rw [UInt16.toNat_add, UInt16.toNat_one, show a.toNat + 1 = 2 ^ 16 by omega]
          rfl
        rw [UInt16.le_iff_toNat_le, UInt16.toNat_add, UInt16.toNat_one, Nat.mod_eq_of_lt small]
        exact Nat.le_add_right _ _
    unfold writeBytes
    infer_instance

end Memory

namespace Machine

variable {ε α β : Type} {m m' raised : Machine} {fault : Fault} {segment procedure n : UInt8}
  {writes writes' : Prop}

/-! ## What leaves the result alone -/

/-- The result of the last unit transfer as the communication block shows it. -/
def shownResult (m : Machine) : Word :=
  m.memory.peekWord Syscom.ioResult

/-- The communication block shows the result that the register holds. -/
def Mirrored (m : Machine) : Prop :=
  m.shownResult = m.ioResult

/-- The register is as before, and so is the word unless the program writes. -/
structure Spares (writes : Prop) (m m' : Machine) : Prop where
  result : m'.ioResult = m.ioResult
  shown : ¬ writes → m'.shownResult = m.shownResult

instance : IsPreorder Machine (Spares writes) where
  refl _ := ⟨rfl, fun _ => rfl⟩
  trans _ _ _ h h' := ⟨h'.result.trans h.result, fun none => (h'.shown none).trans (h.shown none)⟩

namespace Spares

theorem mono (h : Spares writes m m') (imp : writes → writes') : Spares writes' m m' :=
  ⟨h.result, fun none => h.shown fun some => none (imp some)⟩

theorem mirrored (h : Spares False m m') : m'.Mirrored ↔ m.Mirrored := by
  unfold Mirrored
  rw [h.result, h.shown id]

/-- What lies below the heap is all that counts. -/
theorem of_low (result : m'.ioResult = m.ioResult) (order : m'.memory.order = m.memory.order)
    (low : ∀ a, a < Heap.start → m'.memory.peekByte a = m.memory.peekByte a) :
    Spares writes m m' :=
  ⟨result, fun _ => Memory.peekWord_congr order (low _ (by decide)) (low _ (by decide))⟩

theorem of_memory (result : m'.ioResult = m.ioResult) (memory : m'.memory = m.memory) :
    Spares writes m m' :=
  of_low result (congrArg Memory.order memory) fun a _ => congrArg (Memory.peekByte · a) memory

end Spares

theorem Silent.spares (h : Silent m m') : Spares writes m m' :=
  .of_memory (by rw [h.rest]) h.memory

theorem Noted.spares (h : Noted m m') : Spares writes m m' := by
  refine .of_memory ?_ ?_
  · rw [h]
  · rw [h]
    rfl

instance (priority := low) spares_of_silent (x : EStateM ε Machine α) [silent : Keeps Silent x] :
    Keeps (Spares writes) x :=
  silent.mono fun _ _ => Silent.spares

/-- Work on the store may write to the word, but the register is out of its reach. -/
instance : Workable (Spares True) where
  store _ _ _ := ⟨rfl, fun no => absurd trivial no⟩
  rest _ _ _ _ _ := ⟨rfl, fun no => absurd trivial no⟩

/-! ## Loads, releases and returns -/

theorem spares_loadSegment (start : Heap.start ≤ m.heap.np) (n : UInt8) :
    Spares writes m (endState (loadSegment n m)) := by
  rcases loadSegment_cases (rfl : loadSegment n m = _) with
    ⟨e, hr⟩ | ⟨s, -, ⟨-, hr⟩ | ⟨-, brought⟩⟩
  · rw [hr]
    exact Std.Refl.refl m
  · rw [hr]
    exact .of_memory rfl rfl
  rcases bringIn_cases brought with ⟨e, hr⟩ | ⟨base, bytes, carved, -, written⟩
  · rw [hr]
    exact Std.Refl.refl m
  -- The words of the system are all below the heap, and a segment is put above it.
  have above : Heap.start ≤ base := UInt16.le_trans start (carve_ok carved).2
  have off : Keeps (Memory.AgreesOff (Heap.start ≤ ·)) (Memory.writeBytes base bytes) :=
    Memory.keeps_writeBytes_upward above bytes
  cases hw : Memory.writeBytes base bytes m.memory with
  | error e memory =>
    rw [hw] at written
    rw [written]
    have guarded : Memory.Guarded m.memory memory := Keeps.of_error hw
    exact .of_low rfl guarded.order fun a low => (off.of_error hw).peekByte (UInt16.not_le.2 low)
  | ok u memory =>
    rw [hw] at written
    rw [written]
    have guarded : Memory.Guarded m.memory memory := Keeps.of_ok hw
    exact .of_low rfl guarded.order fun a low =>
      Memory.peekByte_protect.trans ((off.of_ok hw).peekByte (UInt16.not_le.2 low))

theorem spares_afterRelease (m : Machine) (n : UInt8) (s : Segment) :
    Spares writes m (m.afterRelease n s) :=
  .of_low rfl (order_memoryAfterRelease _ _) fun a _ => peekByte_memoryAfterRelease _ _ a

theorem spares_reclaimed (m : Machine) : Spares writes m m.reclaimed :=
  .of_memory rfl rfl

instance spares_leaveSegment (n : UInt8) : Keeps (Spares writes) (leaveSegment n) :=
  keeps_leaveSegment (fun m s _ _ => spares_afterRelease m n s) spares_reclaimed

instance spares_releaseSegment : Keeps (Spares writes) releaseSegment := by
  unfold releaseSegment
  infer_instance

instance spares_resume (caller : Caller) : Keeps (Spares writes) (resume caller) :=
  keeps_resume (fun _ => .of_memory rfl rfl) (fun _ _ => .of_memory rfl rfl)
    (fun m n s _ _ _ => spares_afterRelease m n s) spares_reclaimed

instance spares_restoreBase : Keeps (Spares writes) restoreBase :=
  keeps_restoreBase fun _ _ _ => .of_memory rfl rfl

instance spares_pushBlock (values : List Word) :
    Keeps (Spares writes) (onStore (Store.pushBlock values)) := by
  constructor
  intro m
  have upper := (Store.upper_pushBlock values).related m.store
  have works := (Store.works_pushBlock values).related m.store
  unfold onStore
  have low {a : Address} (ha : a < Heap.start) : ¬ Store.limit ≤ a :=
    UInt16.not_le.2 (UInt16.lt_trans ha (by decide))
  cases h : Store.pushBlock values m.store with
  | ok u store | error e store =>
    rw [h] at upper works
    exact .of_low rfl works.quiet.memory.order fun a ha => upper.peekByte (low ha)

instance spares_handOver (values : List Word) (baseProcedure : Bool) :
    Keeps (Spares writes) (handOver values baseProcedure) :=
  keeps_handOver (fun _ => .of_memory rfl rfl) values baseProcedure

instance spares_returnFrom (results : UInt8) (baseProcedure : Bool) :
    Keeps (Spares writes) (returnFrom results baseProcedure) :=
  keeps_returnFrom results

/-! ## Calls -/

theorem Grounded.low_of_callRegion (h : m.Grounded)
    (off : Memory.AgreesOff (CallRegion m) m.memory m'.memory) {a : Address}
    (low : a < Heap.start) : m'.memory.peekByte a = m.memory.peekByte a := by
  refine off.peekByte ?_
  rintro (⟨above, -⟩ | above)
  · exact UInt16.not_le.2 (UInt16.lt_of_lt_of_le low h.regular.heap) above
  · exact UInt16.not_le.2 (UInt16.lt_trans low (by decide)) above

theorem Grounded.spares_call (h : m.Grounded) (segment procedure : UInt8) :
    Spares (m.CallsHost segment procedure) m (endState (call segment procedure m)) := by
  rcases call_cases h.regular h.hosted (rfl : call segment procedure m = _) with
    ⟨e, m', hr, kept⟩ | ⟨host, kept, -⟩ | ⟨jtab, p, m', -, -, hr, entered⟩
  · rw [hr]
    refine .of_low ?_ kept.store.memory.order fun a low => h.low_of_callRegion kept.off low
    rw [endState_error, kept.rest]
  · exact ⟨by rw [kept.rest], fun other => absurd host other⟩
  · rw [hr]
    refine .of_low ?_ entered.store.memory.order fun a low => h.low_of_callRegion entered.off low
    rw [endState_ok, entered.registers]

theorem Grounded.spares_callExternal (h : m.Grounded) (segment procedure : UInt8) :
    Spares (m.ReachesHost segment procedure) m (endState (callExternal segment procedure m)) := by
  have loading : Spares (m.ReachesHost segment procedure) m
      (endState (Machine.loadSegment segment m)) :=
    spares_loadSegment h.regular.heap segment
  have arrives {loaded : Machine} (brought : m.Brings segment loaded) : loaded.Grounded ∧
      Spares (m.ReachesHost segment procedure) m loaded := by
    rcases brought with ⟨-, load⟩ | ⟨-, rfl⟩
    · have grounded := h.loadSegment segment
      rw [load] at loading grounded
      exact ⟨grounded, loading⟩
    · exact ⟨h, Std.Refl.refl loaded⟩
  -- what the call stores counts only if it comes to the host
  have calling {loaded : Machine} (brought : m.Brings segment loaded) :
      Spares (m.ReachesHost segment procedure) m (endState (call segment procedure loaded)) := by
    obtain ⟨grounded, spared⟩ := arrives brought
    exact IsTrans.trans _ _ _ spared
      ((grounded.spares_call segment procedure).mono fun host => ⟨loaded, brought, host⟩)
  rcases callExternal_ends (rfl : callExternal segment procedure m = _) with
    ⟨e, m', -, load, failed⟩ | ⟨loaded, brought, ⟨m', called, entered⟩ | ⟨-, ended⟩⟩
  · rw [load] at loading
    rw [failed]
    exact loading
  · have spared := calling brought
    rw [called] at spared
    rw [entered]
    exact spared
  · have leaving : Keeps (Spares (m.ReachesHost segment procedure)) (m.letGo segment) :=
      keeps_letGo fun _ => spares_leaveSegment segment
    rw [ended]
    exact IsTrans.trans _ _ _ (calling brought) (leaving.related _)

/-! ## Unit transfers -/

/-- If this succeeds the block shows the register, and if it fails the register is as before. -/
class Reports (x : Run Machine Unit) : Prop where
  ends : ∀ m : Machine, m.Grounded → (succeeded (x m) = true → (endState (x m)).Mirrored) ∧
    (succeeded (x m) = false → Spares True m (endState (x m)))

namespace Reports

instance bind (x : Run Machine α) (f : α → Run Machine Unit) [quiet : Keeps Quiet x]
    [spares : Keeps (Spares True) x] [rest : ∀ a, Reports (f a)] : Reports (x >>= f) := by
  constructor
  intro m grounded
  rcases bind_cases (rfl : (x >>= f) m = _) with ⟨e, m', h, hr⟩ | ⟨a, m', h, hr⟩
  · rw [hr]
    exact ⟨nofun, fun _ => spares.of_error h⟩
  · rw [← hr]
    obtain ⟨done, failed⟩ := (rest a).ends m' (grounded.of_quiet (quiet.of_ok h))
    exact ⟨done, fun stopped => IsTrans.trans _ _ _ (spares.of_ok h) (failed stopped)⟩

/-- A sequence taken apart by name. -/
theorem seq (x : Run Machine α) {f : α → Run Machine Unit} [Keeps Quiet x]
    [Keeps (Spares True) x] (rest : ∀ a, Reports (f a)) : Reports (x >>= f) :=
  bind x f

instance ite {c : Prop} [Decidable c] (x y : Run Machine Unit) [hx : Reports x] [hy : Reports y] :
    Reports (if c then x else y) := by
  split
  · exact hx
  · exact hy

/-- The word can always be written. -/
instance setIoResult (result : Word) : Reports (setIoResult result) := by
  constructor
  intro m grounded
  obtain ⟨memory, written, -, found, -⟩ := Memory.writeWord_found
    (grounded.fields Syscom.ioResult (by decide) (by decide))
    (grounded.fields (Syscom.ioResult + 1) (by decide) (by decide)) result
  have done : Machine.setIoResult result m = _ :=
    onMemory_of_ok (m := { m with ioResult := result }) written
  rw [done]
  exact ⟨fun _ => found, nofun⟩

instance unitTransfer (direction : Transfer) : Reports (unitTransfer direction) := by
  unfold Machine.unitTransfer
  refine seq pop fun control => seq pop fun block => seq pop fun length => seq pop fun offset => ?_
  infer_instance

instance unitStatus : Reports unitStatus := by
  have (a : Address) (status : Except Word Word) : Reports
      (match status with
        | .ok w => do
          onMemory (Memory.writeWord a 0)
          onMemory (Memory.writeWord (a + 2) w)
          Machine.setIoResult 0
        | .error result => Machine.setIoResult result) := by
    cases status with
    | ok w => infer_instance
    | error result => exact setIoResult result
  unfold Machine.unitStatus
  infer_instance

instance clearUnit : Reports clearUnit := by
  unfold Machine.clearUnit
  infer_instance

end Reports

/-! ## Instructions -/

/-- The standard procedure of an instruction whose operands are still to be fetched. -/
def procedureBy (m : Machine) : Encoding → Option StandardProcedure
  | .table .csp =>
    match fetchByte m with
    | .ok code _ => StandardProcedure.ofCode? code
    | .error _ _ => none
  | _ => none

/-- Whether an instruction, with its operands still to be fetched, is a unit transfer. -/
def reportsBy (m : Machine) (encoding : Encoding) : Bool :=
  (m.procedureBy encoding).any StandardProcedure.reports

/-- An instruction, with its operands still to be fetched, writes where the program says.  EXIT does
so too, as it writes to the frames that the program's links lead to. -/
def WritesBy (m : Machine) (encoding : Encoding) : Prop :=
  m.StoresBy encoding ∨ m.procedureBy encoding = some .exit

/-- Whether the next instruction is a unit transfer. -/
def reportsNext (m : Machine) : Bool :=
  match fetchByte m with
  | .ok opcode m => m.reportsBy (Encoding.ofCode opcode)
  | .error _ _ => false

/-- The next instruction writes where the program says. -/
def Writes (m : Machine) : Prop :=
  ∃ opcode m', fetchByte m = .ok opcode m' ∧ m'.WritesBy (Encoding.ofCode opcode)

/-- What an instruction does to the result: a unit transfer that succeeds has it shown, and anything
else spares it. -/
structure Treats (reports : Bool) (writes : Prop) (m : Machine)
    (r : EStateM.Result ε Machine α) : Prop where
  reported : reports = true → succeeded r = true → (endState r).Mirrored
  spared : ¬ (reports = true ∧ succeeded r = true) → Spares writes m (endState r)

variable {reports : Bool} {r : EStateM.Result ε Machine α}

theorem Treats.of_spares (h : Spares writes m (endState r)) : Treats false writes m r :=
  ⟨nofun, fun _ => h⟩

/-- Operands may be fetched first. -/
theorem Treats.bind {x : EStateM ε Machine α} {f : α → EStateM ε Machine β}
    [silent : Keeps Silent x]
    (rest : ∀ a m', x m = .ok a m' → Treats reports writes m' (f a m')) :
    Treats reports writes m ((x >>= f) m) := by
  rcases bind_cases (rfl : (x >>= f) m = _) with ⟨e, m', h, hr⟩ | ⟨a, m', h, hr⟩
  · rw [hr]
    exact ⟨fun _ => nofun, fun _ => (silent.of_error h).spares⟩
  · rw [← hr]
    obtain ⟨reported, spared⟩ := rest a m' h
    exact ⟨reported, fun other => IsTrans.trans _ _ _ (silent.of_ok h).spares (spared other)⟩

/-- The register is out of reach of what writes where the program says. -/
theorem Treats.of_writes {x : EStateM ε Machine α} [spares : Keeps (Spares True) x]
    (some : writes) : Treats false writes m (x m) :=
  .of_spares ((spares.related m).mono fun _ => some)

theorem Grounded.treats_reports (h : m.Grounded) (some : writes) (x : Run Machine Unit)
    [reports : Reports x] : Treats true writes m ((liftM x : Exec Unit) m) := by
  obtain ⟨done, failed⟩ := reports.ends m h
  constructor
  · rw [succeeded_liftM, endState_liftM]
    exact fun _ => done
  · rw [succeeded_liftM, endState_liftM]
    exact fun other => (failed (by simpa using other)).mono fun _ => some

theorem Grounded.treats_perform (h : m.Grounded) (procedure : StandardProcedure) :
    Treats procedure.reports (procedure.manages = false ∨ procedure = .exit) m
      (perform procedure m) := by
  by_cases reports : procedure.reports = true
  · rw [reports]
    cases procedure with
    | unitread => exact h.treats_reports (.inl rfl) (unitTransfer .read)
    | unitwrite => exact h.treats_reports (.inl rfl) (unitTransfer .write)
    | unitstatus => exact h.treats_reports (.inl rfl) unitStatus
    | unitclear => exact h.treats_reports (.inl rfl) clearUnit
    | _ => cases reports
  rw [Bool.not_eq_true] at reports
  rw [reports]
  -- None of the others reports a result. Of those that manage frames and segments, EXIT writes to
  -- the frames, GETSEG above the words of the system, and RELSEG nowhere.
  by_cases plain : procedure.manages = false
  · have kept : Keeps (Spares True) (perform procedure) :=
      keeps_perform procedure plain
        (fun _ => keeps_newBlock fun _ _ _ _ _ => ⟨rfl, fun no => absurd trivial no⟩)
        (fun _ => keeps_releaseHeap fun _ _ _ _ => ⟨rfl, fun no => absurd trivial no⟩)
        (fun some => absurd (reports.symm.trans some) (by decide))
    exact .of_writes (.inl plain)
  · cases procedure with
    | exit =>
      have kept : Keeps (Spares True) exitNamed := by
        unfold exitNamed
        infer_instance
      exact .of_writes (x := exitNamed) (.inr rfl)
    | getseg =>
      refine Treats.bind (x := (liftM pop : Exec Word)) fun w m' popped => .of_spares ?_
      rw [endState_liftM]
      have grounded := h.of_quiet (silent_pop.of_ok (eq_ok_of_liftM popped)).quiet
      exact spares_loadSegment grounded.regular.heap _
    | relseg =>
      refine .of_spares ?_
      exact (inferInstance : Keeps (Spares _) (liftM releaseSegment : Exec Unit)).related m
    | _ => exact absurd rfl plain

theorem Grounded.treats_callStandard (h : m.Grounded) :
    Treats (m.reportsBy (.table .csp)) (m.WritesBy (.table .csp)) m (callStandard m) := by
  refine Treats.bind (x := (liftM fetchByte : Exec UInt8)) fun code m' fetched => ?_
  have fetched := eq_ok_of_liftM fetched
  have named : m.procedureBy (.table .csp) = StandardProcedure.ofCode? code := by
    unfold procedureBy
    rw [fetched]
  have grounded : m'.Grounded := h.of_quiet (silent_fetchByte.of_ok fetched).quiet
  unfold reportsBy
  cases found : StandardProcedure.ofCode? code with
  | none =>
    rw [named, found]
    exact .of_spares (Std.Refl.refl m')
  | some procedure =>
    rw [named, found]
    obtain ⟨reported, spared⟩ := grounded.treats_perform procedure
    refine ⟨reported, fun other => (spared other).mono ?_⟩
    rintro (plain | exits)
    · exact .inl ⟨code, m', procedure, fetched, found, plain⟩
    · exact .inr (by rw [named, found, exits])

theorem Grounded.treats_callHere (h : m.Grounded) :
    Treats false (m.WritesBy (.table .clp)) m ((liftM callHere : Exec Unit) m) := by
  have spared : Treats false (m.WritesBy (.table .clp)) m (callHere m) := by
    refine Treats.bind fun procedure m' fetched => .of_spares ?_
    have grounded : m'.Grounded := h.of_quiet (silent_fetchByte.of_ok fetched).quiet
    have called := (grounded.spares_call m'.seg procedure).mono fun host =>
      (.inl ⟨procedure, m', fetched, host⟩ : m.WritesBy (.table .clp))
    rw [(callHere_rest procedure m').1]
    exact called
  refine .of_spares ?_
  rw [endState_liftM]
  exact spared.spared nofun

theorem Grounded.treats_cxp (h : m.Grounded) :
    Treats false (m.WritesBy (.table .cxp)) m (executeTable .cxp m) := by
  refine Treats.bind (x := (liftM fetchByte : Exec UInt8)) fun segment m₁ first => ?_
  refine Treats.bind (x := (liftM fetchByte : Exec UInt8)) fun procedure m₂ second => .of_spares ?_
  have first := eq_ok_of_liftM first
  have second := eq_ok_of_liftM second
  have grounded : m₂.Grounded := (h.of_quiet (silent_fetchByte.of_ok first).quiet).of_quiet
    (silent_fetchByte.of_ok second).quiet
  rw [endState_liftM]
  exact (grounded.spares_callExternal segment procedure).mono fun host =>
    .inl ⟨segment, m₁, procedure, m₂, first, second, host⟩

theorem reportsBy_of_ne {op : Opcode} (other : op ≠ .csp) (m : Machine) :
    m.reportsBy (.table op) = false := by
  cases op with
  | csp => exact absurd rfl other
  | _ => rfl

theorem Grounded.treats_executeTable (h : m.Grounded) (op : Opcode) :
    Treats (m.reportsBy (.table op)) (m.WritesBy (.table op)) m (executeTable op m) := by
  by_cases quiet : op.transfers = false
  · rw [reportsBy_of_ne (by rintro rfl; cases quiet)]
    have kept := works_executeTable (R := Spares True) op quiet
    exact .of_writes (.inl (storesBy_of_quiet quiet))
  · cases op with
    | clp | cgp | cip | cbp => exact h.treats_callHere
    | cxp => exact h.treats_cxp
    | rnp | rbp =>
      refine Treats.bind (x := (liftM fetchByte : Exec UInt8)) fun results m' _ => .of_spares ?_
      exact (spares_returnFrom results _).related m'
    | csp => exact h.treats_callStandard
    | _ => exact absurd rfl quiet

theorem Grounded.treats_execute (h : m.Grounded) (opcode : UInt8) :
    Treats (m.reportsBy (Encoding.ofCode opcode)) (m.WritesBy (Encoding.ofCode opcode)) m
      (execute opcode m) := by
  unfold execute
  cases Encoding.ofCode opcode with
  | shortConstant n | shortLocal n | shortGlobal n | shortIndirect n =>
    exact .of_writes (x := (liftM _ : Exec Unit)) (.inl trivial)
  | unused code => exact .of_spares (Std.Refl.refl m)
  | table op => exact h.treats_executeTable op

theorem Grounded.treats_executeNext (h : m.Grounded) :
    Treats m.reportsNext m.Writes m (executeNext m) := by
  refine Treats.bind (x := (liftM fetchByte : Exec UInt8)) fun opcode m' fetched => ?_
  have fetched := eq_ok_of_liftM fetched
  have grounded : m'.Grounded := h.of_quiet (silent_fetchByte.of_ok fetched).quiet
  have next : m.reportsNext = m'.reportsBy (Encoding.ofCode opcode) := by
    unfold reportsNext
    rw [fetched]
  obtain ⟨reported, spared⟩ := grounded.treats_execute opcode
  rw [next]
  exact ⟨reported, fun other => (spared other).mono fun writes => ⟨opcode, m', fetched, writes⟩⟩

/-! ## Deliveries -/

/-- The fault is handed to the program's handler. -/
structure Hands (m : Machine) (fault : Fault) (raised : Machine) : Prop where
  raises : Raises m fault raised
  idle : raised.trapDepth = none
  enabled : raised.config.deliverTraps = true
  handler : raised.hasHandler = true

/-- If the host runs a procedure that is called, it leaves the word alone. -/
def HostSpares (m : Machine) (segment procedure : UInt8) : Prop :=
  m.CallsHost segment procedure →
    (endState (call segment procedure m)).shownResult = m.shownResult

theorem Grounded.spares_call_of_host (h : m.Grounded) (host : m.HostSpares segment procedure) :
    Spares False m (endState (call segment procedure m)) := by
  have called := h.spares_call segment procedure
  refine ⟨called.result, fun _ => ?_⟩
  by_cases hosted : m.CallsHost segment procedure
  · exact host hosted
  · exact called.shown hosted

/-- The fields of a trap take in the result that the fault carries, if it carries one. -/
theorem Grounded.announced_result (h : m.Grounded) (fault : Fault) :
    (m.announced fault).ioResult = m.ioResult ∧
      (m.announced fault).shownResult = fault.ioResult?.getD m.shownResult := by
  obtain ⟨memory, done, eq, -, -⟩ := h.announced fault
  obtain ⟨memory', recorded, same⟩ := onMemory_eq_ok.1 done
  obtain rfl : memory = memory' := congrArg Machine.memory same
  have word : (m.announced fault).shownResult = memory.peekWord Syscom.ioResult := by
    rw [eq]
    rfl
  refine ⟨by rw [eq]; rfl, word.trans ?_⟩
  -- the other fields lie above
  have above {a : Address} (w : Word) (first : Syscom.errorCode ≤ a)
      (second : Syscom.errorCode ≤ a + 1) :
      Keeps (Memory.AgreesOff (Syscom.errorCode ≤ ·)) (Memory.writeWord a w) :=
    Memory.keeps_writeWord_off first second
  have code := above (a := Syscom.errorCode) fault.code (by decide) (by decide)
  have place := above (a := Syscom.errorAddress) m.currentAddress (by decide) (by decide)
  have frame := above (a := Syscom.errorFrame) m.mp (by decide) (by decide)
  unfold Syscom.recordTrap at recorded
  obtain ⟨u₁, m₁, w₁, recorded⟩ := bind_eq_ok.1 recorded
  obtain ⟨u₂, m₂, w₂, recorded⟩ := bind_eq_ok.1 recorded
  obtain ⟨u₃, m₃, w₃, recorded⟩ := bind_eq_ok.1 recorded
  have guarded : Memory.Guarded m.memory m₃ :=
    IsTrans.trans _ _ _ (Keeps.of_ok w₁) (IsTrans.trans _ _ _ (Keeps.of_ok w₂) (Keeps.of_ok w₃))
  have off : Memory.AgreesOff (Syscom.errorCode ≤ ·) m.memory m₃ :=
    IsTrans.trans (r := Memory.AgreesOff (Syscom.errorCode ≤ ·)) _ _ _ (code.of_ok w₁)
      (IsTrans.trans (r := Memory.AgreesOff (Syscom.errorCode ≤ ·)) _ _ _ (place.of_ok w₂)
        (frame.of_ok w₃))
  cases hf : fault.ioResult? with
  | none =>
    rw [hf] at recorded
    cases recorded
    exact Memory.peekWord_congr guarded.order (off.peekByte (by decide)) (off.peekByte (by decide))
  | some result =>
    rw [hf] at recorded
    have fields := h.fields.guarded guarded
    exact Memory.peekWord_of_writeWord (fields Syscom.ioResult (by decide) (by decide)).unmapped
      (fields (Syscom.ioResult + 1) (by decide) (by decide)).unmapped recorded

/-- A stop that is no fault for a handler is noted, and that is all. -/
theorem noted_conclude {stop : Stop} (refused : ∀ fault, stop = .trap fault → ¬ fault.Deliverable)
    (m : Machine) : Noted m (endState (conclude (.error stop) m)) := by
  cases stop with
  | panic cause | boot failure | endless => exact (rfl : Noted m m)
  | trap fault =>
    cases fault with
    | halt =>
      have halting : Noted m { m with halted := true } := rfl
      exact halting.trans (noted_record _)
    | breakpoint line => exact noted_record m
    | _ => exact absurd ⟨nofun, nofun⟩ (refused _ rfl)

/-! ## Steps -/

/-- In its next step neither the program nor a procedure that the host runs stores anything else
where the result is shown, but for unit transfers. -/
structure LeavesResult (m : Machine) : Prop where
  program : m.halted = false → m.prepare.Writes →
    ¬ (m.prepare.reportsNext = true ∧ succeeded (executeNext m.prepare) = true) →
    (endState (executeNext m.prepare)).shownResult = m.shownResult
  host : ∀ fault raised, Raises m fault raised →
    (raised.announced fault).HostSpares 0 handlerProcedure

/-- In its next step the machine hands a fault to the handler that carries another I/O result than
the register holds. -/
def Misreports (m : Machine) : Prop :=
  ∃ fault raised result, Hands m fault raised ∧ fault.ioResult? = some result ∧
    result ≠ raised.ioResult

/-- Whatever an instruction does, the block shows the register afterwards. -/
theorem Grounded.mirrored_executed (h : m.Grounded) (mirrored : m.Mirrored)
    (leaves : m.LeavesResult) (running : m.halted = false) :
    (endState (executeNext m.prepare)).Mirrored := by
  have prepared : m.prepare.Grounded := h.of_same rfl rfl rfl rfl rfl
  obtain ⟨reported, spared⟩ := prepared.treats_executeNext
  by_cases reports : m.prepare.reportsNext = true ∧ succeeded (executeNext m.prepare) = true
  · exact reported reports.1 reports.2
  · have spares := spared reports
    have shown : (endState (executeNext m.prepare)).shownResult = m.shownResult := by
      by_cases writes : m.prepare.Writes
      · exact leaves.program running writes reports
      · exact spares.shown writes
    exact (shown.trans mirrored).trans spares.result.symm

/-- A fault that is handed to the handler has its own result shown, if it carries one. -/
theorem Hands.mirrored_iff (hands : Hands m fault raised) (grounded : raised.Grounded)
    (mirrored : raised.Mirrored) (host : (raised.announced fault).HostSpares 0 handlerProcedure) :
    (endState (step m)).Mirrored ↔ ∀ result, fault.ioResult? = some result →
      result = raised.ioResult := by
  obtain ⟨memory, done, -, -, grounded'⟩ := grounded.announced fault
  obtain ⟨result, shown⟩ := grounded.announced_result fault
  have called := grounded'.spares_call_of_host host
  -- The handler is called after the announcement, and neither the call nor its record writes the
  -- word.
  have ended : Spares False (raised.announced fault) (endState (step m)) := by
    rw [hands.raises.step_eq]
    rcases deliver_cases fault raised with
      ⟨active, -⟩ | ⟨-, refused, -⟩ | ⟨-, -, -, ⟨e, m₁, failed, -⟩ | ⟨-, eq⟩⟩
    · rw [hands.idle] at active
      cases active
    · rw [hands.enabled, hands.handler] at refused
      cases refused with
      | inl off => cases off
      | inr missing => cases missing
    · cases done.symm.trans failed
    · cases hc : call 0 handlerProcedure (raised.announced fault) with
      | ok kind m' =>
        rw [hc] at called eq
        rw [bind_of_ok eq]
        exact IsTrans.trans _ _ _ called (noted_record m').spares
      | error e m' =>
        rw [hc] at called eq
        rw [bind_of_error eq]
        exact called
  rw [ended.mirrored]
  unfold Mirrored at mirrored ⊢
  rw [result, shown, mirrored]
  cases fault.ioResult? with
  | none => simp
  | some own => simp

/-- Any other end of a step spares the result. -/
theorem Grounded.mirrored_of_unhanded (h : m.Grounded) (mirrored : m.Mirrored)
    (leaves : m.LeavesResult) (unhanded : ∀ fault raised, ¬ Hands m fault raised) :
    (endState (step m)).Mirrored := by
  cases running : m.halted with
  | true =>
    have stays : step m = .ok () m := by
      unfold step
      rw [running]
      rfl
    rw [stays]
    exact mirrored
  | false =>
    have executed := h.mirrored_executed mirrored leaves running
    cases hx : executeNext m.prepare with
    | ok u m' =>
      rw [hx] at executed
      rw [step_of_ok running hx]
      exact (noted_record m'.counted).spares.mirrored.2 executed
    | error stop m' =>
      rw [hx] at executed
      -- A fault is handed to a handler or leaves the memory as it is, deliverable or not.
      by_cases raises : ∃ fault, stop = .trap fault ∧ fault.Deliverable
      · obtain ⟨fault, rfl, deliverable⟩ := raises
        have raises : Raises m fault m'.counted := ⟨running, deliverable, m', hx, rfl⟩
        rw [raises.step_eq]
        rcases deliver_cases fault m'.counted with
          ⟨-, eq⟩ | ⟨-, -, eq⟩ | ⟨idle, enabled, handler, -⟩
        · rw [bind_of_error eq]
          exact executed
        · rw [bind_of_error eq]
          exact executed
        · exact absurd ⟨raises, idle, enabled, handler⟩ (unhanded fault m'.counted)
      · rw [step_of_error running hx]
        have noted := noted_conclude (fun fault eq deliverable =>
          raises ⟨fault, eq, deliverable⟩) m'.counted
        exact noted.spares.mirrored.2 executed

/-- A step keeps the two equal unless it hands over a fault that carries another result. -/
theorem Grounded.mirrored_step_iff (h : m.Grounded) (mirrored : m.Mirrored)
    (leaves : m.LeavesResult) : (endState (step m)).Mirrored ↔ ¬ m.Misreports := by
  by_cases hands : ∃ fault raised, Hands m fault raised
  · obtain ⟨fault, raised, hands⟩ := hands
    obtain ⟨m', stopped, eq⟩ := hands.raises.stopped
    have executed := h.mirrored_executed mirrored leaves hands.raises.running
    rw [stopped] at executed
    have shown : raised.Mirrored := eq ▸ executed
    rw [hands.mirrored_iff (hands.raises.found h).1 shown (leaves.host fault raised hands.raises)]
    constructor
    · rintro own ⟨fault', raised', result, hands', carries, other⟩
      -- a step raises one fault
      obtain ⟨m'', stopped', eq'⟩ := hands'.raises.stopped
      cases stopped.symm.trans stopped'
      rw [eq', ← eq] at other
      exact other (own result carries)
    · intro faithful result carries
      by_contra other
      exact faithful ⟨fault, raised, result, hands, carries, other⟩
  · refine iff_of_true (h.mirrored_of_unhanded mirrored leaves fun fault raised hands' =>
      hands ⟨fault, raised, hands'⟩) ?_
    rintro ⟨fault, raised, result, hands', -⟩
    exact hands ⟨fault, raised, hands'⟩

/-! ## Runs -/

/-- The machines that one boot and any number of steps lead to, as long as the program leaves the
word alone and no fault is handed over that carries another result than the register holds.  Any
procedures may be bound to the host. -/
inductive Unspoilt : Machine → Prop
  | boot {storage : Storage} {console : Console} {config : Config} {host : HostView}
      {limit : Option Nat} {bound : List BoundProcedure} {unit : Word} {file : String}
      {loaded m : Machine} :
      (∀ b ∈ bound, Keeps Store.Quiet b.run) →
      loadSystem unit file ((create storage console config host limit).withBound bound) =
        .ok () loaded →
      loaded.HostSpares 0 1 →
      boot unit file ((create storage console config host limit).withBound bound) = .ok () m →
      Unspoilt m
  | step {m : Machine} :
      Unspoilt m → m.LeavesResult → ¬ m.Misreports → Unspoilt (endState (step m))
  /-- Between two steps the host may show something else. -/
  | observe {m : Machine} (host : HostView) : Unspoilt m → Unspoilt (m.observe host)

theorem mirrored_of_unset (unset : m.memory.Unset) (zero : m.ioResult = 0) : m.Mirrored := by
  show m.memory.order.join (m.memory.peekByte _) (m.memory.peekByte _) = _
  rw [unset.1, unset.2, zero]
  cases m.memory.order <;> rfl

/-- The extension of segment 0 lies above the heap, like every segment. -/
theorem Grounded.spares_loadExtension {s : Segment} {x : Extension} {base : Address}
    (h : m.Grounded) (hs : m.segments.get? 0 = some s) (hx : s.extension = some x)
    (unplaced : x.base = none) (adjacent : m.psp = s.codeBase)
    (loaded : Machine.loadExtension m = .ok base m') : Spares False m m' := by
  obtain ⟨count, first, bytes, memory, memory', -, room, -, -, hw, same, rfl⟩ :=
    loadExtension_eq_ok hs hx unplaced adjacent loaded
  have above : Heap.start ≤ base := UInt16.le_trans h.regular.heap room
  have off := (Memory.keeps_writeBytes_upward above bytes).of_ok hw
  have guarded : Memory.Guarded m.memory memory := Keeps.of_ok hw
  refine .of_low rfl (same.guarded.order.trans guarded.order) fun a low => ?_
  refine Memory.peekByte_protect.trans ((same.values a).trans ?_)
  unfold extendedMemory
  rw [Memory.peekByte_protect, Memory.peekByte_protect]
  exact off.peekByte (UInt16.not_le.2 low)

theorem mirrored_of_loadSystem {fresh : Machine} (h : fresh.Unstarted) (unset : fresh.memory.Unset)
    (zero : fresh.ioResult = 0) {unit : Word} {file : String}
    (loaded : loadSystem unit file fresh = .ok () m) : m.Mirrored := by
  obtain ⟨block, dictionary, memory, kernel, m₁, -, -, clean, plain, blank, hk, hl, ext⟩ :=
    loadSystem_stages loaded
  obtain ⟨grounded, -, s, hs, adjacent, same⟩ :=
    grounded_of_kernel h (clean h.clean) (plain h.plain) hk hl
  have start : Heap.start ≤ fresh.heap.np := h.heap ▸ UInt16.le_refl _
  have brought : Spares False (prepared fresh memory
      (SegmentTable.ofDictionary dictionary unit block)) m₁ := by
    have spares := @spares_loadSegment (prepared fresh memory
      (SegmentTable.ofDictionary dictionary unit block)) False start 0
    rwa [hl] at spares
  have first : m₁.Mirrored := brought.mirrored.2 (mirrored_of_unset (blank unset) zero)
  rcases ext with ⟨-, rfl⟩ | ⟨base, some_, he⟩
  · exact first
  cases hx : kernel.extension with
  | none => exact absurd hx some_
  | some x =>
    exact (grounded.spares_loadExtension hs (same.trans hx) (unplaced_ofDictionary hk hx) adjacent
      he).mirrored.2 first

theorem mirrored_of_boot {fresh : Machine} (h : fresh.Unstarted) (unset : fresh.memory.Unset)
    (zero : fresh.ioResult = 0) {unit : Word} {file : String} {loaded : Machine}
    (loading : loadSystem unit file fresh = .ok () loaded) (host : loaded.HostSpares 0 1)
    (booted : boot unit file fresh = .ok () m) : m.Mirrored := by
  obtain ⟨m₁, kind, m₂, loading', called, rfl⟩ := boot_stages booted
  cases loading.symm.trans loading'
  have mirrored := mirrored_of_loadSystem h unset zero loading
  have spares := (grounded_of_loadSystem h loading).1.spares_call_of_host host
  rw [called] at spares
  exact (noted_record m₂).spares.mirrored.2 (spares.mirrored.2 mirrored)

theorem Unspoilt.mirrored (run : Unspoilt m) : m.Grounded ∧ m.Mirrored := by
  induction run with
  | boot quiet loading host booted =>
    refine ⟨(grounded_of_boot (unstarted_create _ _ _ _ _ quiet) booted).1, mirrored_of_boot
      (unstarted_create _ _ _ _ _ quiet) ?_ rfl loading host booted⟩
    exact Memory.unset_reserve (Memory.unset_reserve Memory.unset_empty _ _) _ _
  | step _ leaves faithful ih =>
    exact ⟨(endures_step _ ih.1).1, (ih.1.mirrored_step_iff ih.2 leaves).2 faithful⟩
  | observe host _ ih => exact ⟨ih.1.observe host, ih.2⟩

theorem Grounded.readWord_result_iff (h : m.Grounded) :
    m.memory.readWord Syscom.ioResult = .ok m.ioResult ↔ m.Mirrored := by
  rw [h.fields.readWord (by decide)]
  exact ⟨fun same => Except.ok.inj same, fun same => congrArg Except.ok same⟩

/-- In every state of a run the block shows the register.  The next step, if the program leaves the
word alone, keeps it so if and only if it does not hand over a fault that carries another result. -/
theorem io_result_mirrored_iff (run : Unspoilt m) :
    m.memory.readWord Syscom.ioResult = .ok m.ioResult ∧
    (m.LeavesResult →
      ((endState (step m)).memory.readWord Syscom.ioResult = .ok (endState (step m)).ioResult ↔
        ¬ m.Misreports)) := by
  obtain ⟨grounded, mirrored⟩ := run.mirrored
  refine ⟨grounded.readWord_result_iff.2 mirrored, fun leaves => ?_⟩
  rw [((endures_step m) grounded).1.readWord_result_iff]
  exact grounded.mirrored_step_iff mirrored leaves

/-! ## Small systems -/

/-- Whether the next instruction, and the handler after it, leave the word alone or have a result
shown. -/
def sparesNext (m : Machine) : Bool :=
  (m.prepare.reportsNext && succeeded (executeNext m.prepare) ||
    (endState (executeNext m.prepare)).shownResult == m.shownResult) &&
  match executeNext m.prepare with
  | .error (.trap fault) m' =>
    (endState (call 0 handlerProcedure (m'.counted.announced fault))).shownResult ==
      (m'.counted.announced fault).shownResult
  | _ => true

theorem leavesResult_of_sparesNext (h : sparesNext m = true) : m.LeavesResult := by
  unfold sparesNext at h
  rw [Bool.and_eq_true, Bool.or_eq_true, Bool.and_eq_true, beq_iff_eq] at h
  refine ⟨fun _ _ other => h.1.resolve_left other, ?_⟩
  intro fault raised raises _
  obtain ⟨m', stopped, rfl⟩ := raises.stopped
  have spared := h.2
  rw [stopped] at spared
  exact beq_iff_eq.1 spared

/-- An instruction that succeeds raises no fault. -/
theorem not_misreports_of_succeeded (h : succeeded (executeNext m.prepare) = true) :
    ¬ m.Misreports := by
  rintro ⟨fault, raised, result, hands, -⟩
  obtain ⟨m', stopped, -⟩ := hands.raises.stopped
  rw [stopped] at h
  cases h

theorem misreports_of_stop {r : EStateM.Result Stop Machine Unit} {result : Word}
    (running : m.halted = false) (deliverable : fault.Deliverable)
    (hr : executeNext m.prepare = r) (stopped : stopOf r = some (.trap fault))
    (idle : (endState r).trapDepth = none) (enabled : (endState r).config.deliverTraps = true)
    (handler : (endState r).hasHandler = true) (carries : fault.ioResult? = some result)
    (other : result ≠ (endState r).ioResult) : m.Misreports :=
  ⟨fault, (endState r).counted, result,
    ⟨raises_of_stop running deliverable hr stopped, idle, enabled, handler⟩, carries, other⟩

theorem unspoilt_of_boots {storage : Storage} {fresh : Machine}
    (made : fresh = create storage default default default none) (h : boots fresh = true)
    (spares : (endState (call 0 1 (endState (loadSystem 4 "SYSTEM" fresh)))).shownResult =
      (endState (loadSystem 4 "SYSTEM" fresh)).shownResult) :
    Unspoilt (endState (boot 4 "SYSTEM" fresh)) := by
  have loading := loadSystem_of_boots h
  obtain ⟨-, booted⟩ := boot_of_boots h
  have bound : fresh = fresh.withBound fresh.bound := rfl
  have quiet : ∀ b ∈ fresh.bound, Keeps Store.Quiet b.run :=
    made ▸ (fresh_create storage default default default none).hosted.quietly
  subst made
  rw [bound] at loading booted
  exact .boot quiet loading (fun _ => spares) booted

/-- A program that resets a unit that has no disk, and checks the result. -/
def clearing : List SegmentSpec :=
  [{ number := 0
     name := "KERNEL"
     procedures :=
       [{ level := 1
          body := some
            { code := [5, Opcode.csp.code, StandardProcedure.unitclear.code, Opcode.csp.code,
                StandardProcedure.iocheck.code, Opcode.xit.code] } },
         { level := 1, body := some { code := [Opcode.rnp.code, 0] } }] }]

/-- The machine before the check. -/
def clearingChecked : Machine :=
  endState (step (endState (step (started clearing))))

theorem clearing_run :
    starts clearing = true ∧
      (endState (call 0 1 (unstarted clearing))).shownResult = (unstarted clearing).shownResult ∧
      sparesNext (started clearing) = true ∧
      succeeded (executeNext (started clearing).prepare) = true ∧
      sparesNext (endState (step (started clearing))) = true ∧
      succeeded (executeNext (endState (step (started clearing))).prepare) = true ∧
      clearingChecked.ioResult = 9 ∧ sparesNext clearingChecked = true ∧
      stopOf (executeNext clearingChecked.prepare) = some (.trap (.userIo 9)) ∧
      (endState (executeNext clearingChecked.prepare)).ioResult = 9 := by
  decide +kernel

/-- The check raises the result that is shown, so it is still shown once the fault is delivered. -/
theorem io_result_mirrored_clearing :
    ∃ m, Unspoilt m ∧ m.ioResult = 9 ∧ m.memory.readWord Syscom.ioResult = .ok 9 ∧
      m.LeavesResult ∧ ¬ m.Misreports ∧
      (endState (step m)).memory.readWord Syscom.ioResult = .ok (endState (step m)).ioResult := by
  obtain ⟨starts, host, first, done, second, done', pending, third, stopped, kept⟩ := clearing_run
  have faithful : ¬ clearingChecked.Misreports := by
    rintro ⟨fault, raised, result, hands, carries, other⟩
    obtain ⟨m', failed, eq⟩ := hands.raises.stopped
    rw [failed] at stopped kept
    cases stopped
    cases carries
    rw [eq] at other
    exact other kept.symm
  have booted : Unspoilt (started clearing) := unspoilt_of_boots rfl starts host
  have run : Unspoilt clearingChecked :=
    (booted.step (leavesResult_of_sparesNext first) (not_misreports_of_succeeded done)).step
      (leavesResult_of_sparesNext second) (not_misreports_of_succeeded done')
  have leaves := leavesResult_of_sparesNext third
  obtain ⟨shown, next⟩ := io_result_mirrored_iff run
  exact ⟨_, run, pending, pending ▸ shown, leaves, faithful, (next leaves).2 faithful⟩

/-- A program with a handler that calls into another segment. -/
def overlaying : List SegmentSpec :=
  [{ number := 0
     name := "KERNEL"
     procedures :=
       [{ level := 1, body := some { code := [Opcode.cxp.code, 1, 1, Opcode.xit.code] } },
         { level := 1, body := some { code := [Opcode.rnp.code, 0] } }] },
   { number := 1
     name := "OVERLAY"
     procedures := [{ level := 1, body := some { code := [Opcode.rnp.code, 0] } }] }]

/-- A machine whose disk ends before the other segment. -/
def cutShort : Machine :=
  let file := CodeFile.image? .little (overlaying.map (CodePart.ofSpec .little))
  let volume := (file.bind fun file => Volume.image? "VOLUME" [("SYSTEM", file)]).getD []
  create (Storage.empty.setDisk 4 (some (Disk.ofBytes (volume.take (8 * 512)) true false)))
    default default default none

/-- The machine before the call. -/
def cutShortCall : Machine :=
  endState (boot 4 "SYSTEM" cutShort)

theorem cutShort_run :
    boots cutShort = true ∧
      (endState (call 0 1 (endState (loadSystem 4 "SYSTEM" cutShort)))).shownResult =
        (endState (loadSystem 4 "SYSTEM" cutShort)).shownResult ∧
      sparesNext cutShortCall = true ∧ cutShortCall.halted = false ∧
      stopOf (executeNext cutShortCall.prepare) = some (.trap (.systemIo 64)) ∧
      (endState (executeNext cutShortCall.prepare)).trapDepth = none ∧
      (endState (executeNext cutShortCall.prepare)).config.deliverTraps = true ∧
      (endState (executeNext cutShortCall.prepare)).hasHandler = true ∧
      (endState (executeNext cutShortCall.prepare)).ioResult = 0 ∧
      (endState (step cutShortCall)).memory.readWord Syscom.ioResult = .ok 64 ∧
      (endState (step cutShortCall)).ioResult = 0 := by
  decide +kernel

/-- The fault of a load that fails is delivered with its result in the word, but the register does
not have it. -/
theorem delivered_result_not_pending :
    ∃ m, Unspoilt m ∧ m.LeavesResult ∧ m.Misreports ∧
      (endState (step m)).memory.readWord Syscom.ioResult = .ok 64 ∧
      (endState (step m)).ioResult = 0 := by
  obtain ⟨boots, host, spares, running, stopped, idle, enabled, handler, none_, shown, pending⟩ :=
    cutShort_run
  have taken : (Fault.systemIo 64).Deliverable := ⟨nofun, nofun⟩
  have other : (64 : Word) ≠ (endState (executeNext cutShortCall.prepare)).ioResult := by
    rw [none_]
    decide
  have misreports : cutShortCall.Misreports :=
    misreports_of_stop running taken rfl stopped idle enabled handler rfl other
  exact ⟨cutShortCall, unspoilt_of_boots rfl boots host, leavesResult_of_sparesNext spares,
    misreports, shown, pending⟩

end Machine
end PSystem
