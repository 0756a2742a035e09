import PSystem.Proofs.InstructionLength

/-!
# Where a trap resumes

A fault that is handed to the program's handler leaves a frame that says where the program goes on
when the handler returns.  That is the next instruction, because every instruction fetches its operands
before it can fail.  The one exception is a comparison of word arrays by order: it is refused before the
size of the arrays is fetched, and a handler that returns goes on in the middle of the instruction
(`delivered_trap_resumes_iff`).
-/

namespace PSystem
namespace Machine

variable {m m' raised : Machine} {fault : Fault} {segment procedure : UInt8} {jtab frame link : Address}

/-! ## What a frame remembers -/

/-- The words of a frame that a return goes by. -/
structure Remembers (m : Memory) (frame : Address) (jtab : Address) (ipc : Word) : Prop where
  savedJtab : m.peekWord (frame + Frame.savedJtab) = jtab
  savedIpc : m.peekWord (frame + Frame.savedIpc) = ipc

/-- The header of a frame lies in plain memory. -/
def PlainHeader (m : Memory) (frame : Address) : Prop :=
  ∀ i < 14, (m.cell (frame + UInt16.ofNat i)).mapped = false

theorem remembers_of_writeHeader (h : writeHeader frame link m = .ok () m')
    (plain : PlainHeader m'.memory frame) : Remembers m'.memory frame m.jtab m.ipc := by
  rw [writeHeader_eq] at h
  obtain ⟨memory, written, rfl⟩ := onMemory_eq_ok.1 h
  have unmapped : ∀ i < 14, (m.memory.cell (frame + UInt16.ofNat i)).mapped = false := by
    intro i hi
    have kept := (Memory.keeps_writeWords frame _).of_ok written
    rw [← kept.mapped]
    exact plain i hi
  have words := Memory.peekWord_of_writeWords written unmapped (by simp)
  exact ⟨words 3 (by simp), words 5 (by simp)⟩

theorem remembers_of_makeFrame {p : Attributes}
    (h : makeFrame segment procedure p m = .ok frame m') (plain : PlainHeader m'.memory frame) :
    Remembers m'.memory frame m.jtab m.ipc := by
  rcases makeFrame_stages h with ⟨e, eq⟩ | ⟨link, found, -, -, -, h⟩
  · cases eq
  obtain ⟨u, m₁, moved, h⟩ := bind_eq_ok.1 h
  have still₁ := (still_moveParameters segment procedure found _).of_ok moved
  -- a base procedure pushes the base register before the header is written
  have written : ∃ m₂, Still m₁ m₂ ∧ writeHeader found link m₂ = .ok () m' ∧ found = frame := by
    by_cases base : p.level ≤ 0
    · rw [linkFrame_of_base base] at h
      obtain ⟨u, m₂, pushed, h⟩ := bind_eq_ok.1 h
      obtain ⟨u, m₃, written, h⟩ := bind_eq_ok.1 h
      cases h
      exact ⟨m₂, (works_push _).of_ok pushed, written, rfl⟩
    · rw [linkFrame_of_inner base] at h
      obtain ⟨u, m₂, written, h⟩ := bind_eq_ok.1 h
      cases h
      exact ⟨m₁, Std.Refl.refl m₁, written, rfl⟩
  obtain ⟨m₂, still₂, written, rfl⟩ := written
  have still : Still m m₂ := IsTrans.trans _ _ _ still₁ still₂
  have words := remembers_of_writeHeader written plain
  rwa [still.jtab, still.ipc] at words

/-- Settling in a frame stores nothing. -/
theorem settle_eq_ok {p : Attributes} (h : settle segment jtab p frame m = .ok () m') :
    m'.memory = m.memory ∧ m'.mp = frame := by
  unfold settle at h
  by_cases base : p.level ≤ 0
  · simp only [base, if_true, modifySegment, modify_bind_apply, get_bind_apply] at h
    split at h
    · cases h
    · cases h
      exact ⟨rfl, rfl⟩
  · simp only [base, if_false, modify_bind_apply, get_bind_apply] at h
    split at h
    · cases h
    · cases h
      exact ⟨rfl, rfl⟩

theorem remembers_of_enter (h : enter segment procedure jtab m = .ok () m')
    (plain : PlainHeader m'.memory m'.mp) : Remembers m'.memory m'.mp m.jtab m.ipc := by
  rw [enter_eq] at h
  obtain ⟨p, m₁, read, h⟩ := bind_eq_ok.1 h
  rcases readAttributes_cases read with ⟨e, eq⟩ | ⟨_, eq, -⟩
  · cases eq
  cases eq
  obtain ⟨frame, m₂, made, h⟩ := bind_eq_ok.1 h
  obtain ⟨memory, rfl⟩ := settle_eq_ok h
  rw [memory] at plain ⊢
  exact remembers_of_makeFrame made plain

/-- A call that makes a frame remembers the place behind it. -/
theorem remembers_of_call {kind : CallKind} (h : call segment procedure m = .ok kind m')
    (made : m.depth < m'.depth) (plain : PlainHeader m'.memory m'.mp) :
    Remembers m'.memory m'.mp m.jtab m.ipc := by
  unfold call at h
  rw [get_bind_apply] at h
  obtain ⟨jtab, m₁, found, h⟩ := bind_eq_ok.1 h
  obtain ⟨number, m₂, read, h⟩ := bind_eq_ok.1 h
  have still := IsTrans.trans _ _ _ ((inferInstance : Keeps Still _).of_ok found)
    ((inferInstance : Keeps Still _).of_ok read)
  split at h
  · -- a procedure of the host makes no frame
    obtain ⟨u, m₃, ran, h⟩ := bind_eq_ok.1 h
    cases h
    have same := IsTrans.trans _ _ _ still ((still_callBound segment procedure).of_ok ran)
    rw [same.depth] at made
    exact absurd made (Nat.lt_irrefl _)
  · obtain ⟨u, m₃, entered, h⟩ := bind_eq_ok.1 h
    cases h
    have words := remembers_of_enter entered plain
    rwa [still.jtab, still.ipc] at words

/-! ## Delivery -/

theorem still_announced (fault : Fault) (m : Machine) : Still m (m.announced fault) := by
  have recorded := (still_onMemory (Syscom.recordTrap fault m.currentAddress m.mp)).related m
  exact ⟨recorded.ipc, recorded.ipcBase, recorded.jtab, recorded.depth⟩

/-- A handler's frame remembers where the fault left the instruction pointer. -/
theorem remembers_of_deliver (h : deliver fault m = .ok () m') (made : m.depth < m'.depth)
    (plain : PlainHeader m'.memory m'.mp) : Remembers m'.memory m'.mp m.jtab m.ipc := by
  rcases deliver_cases fault m with ⟨-, eq⟩ | ⟨-, -, eq⟩ | ⟨-, -, -, outcome⟩
  · cases eq.symm.trans h
  · cases eq.symm.trans h
  rcases outcome with ⟨e, m₁, -, eq⟩ | ⟨-, eq⟩
  · cases eq.symm.trans h
  have still := still_announced fault m
  rw [h] at eq
  cases called : call 0 handlerProcedure (m.announced fault) with
  | error e m₁ =>
    rw [called] at eq
    cases eq
  | ok kind m₁ =>
    rw [called] at eq
    cases eq
    have words := remembers_of_call called (by rw [still.depth]; exact made) plain
    rwa [still.jtab, still.ipc] at words

/-- After a fault that was delivered, the handler's frame is current. -/
theorem remembers_of_step (raises : Raises m fault raised) (delivered : step m = .ok () m')
    (made : raised.depth < m'.depth) (plain : PlainHeader m'.memory m'.mp) :
    Remembers m'.memory m'.mp raised.jtab raised.ipc := by
  rw [raises.step_eq] at delivered
  obtain ⟨u, m₁, called, h⟩ := bind_eq_ok.1 delivered
  cases h
  have record := record_eq m₁
  have depth : m₁.record.depth = m₁.depth := by rw [record]
  have memory : m₁.record.memory = m₁.memory := by rw [record]; rfl
  have mp : m₁.record.mp = m₁.mp := by rw [record]
  rw [depth] at made
  rw [memory, mp] at plain ⊢
  exact remembers_of_deliver called made plain

/-! ## Returns -/

instance still_restoreBase : Keeps Still restoreBase :=
  keeps_restoreBase fun _ _ _ => ⟨rfl, rfl, rfl, rfl⟩

instance still_handOver (values : List Word) (baseProcedure : Bool) :
    Keeps Still (handOver values baseProcedure) :=
  keeps_handOver (fun _ => ⟨rfl, rfl, rfl, rfl⟩) values baseProcedure

/-- A return goes on at the place that the frame remembers. -/
theorem nextAddress_of_returnFrom {results : UInt8} {baseProcedure : Bool}
    (h : returnFrom results baseProcedure m = .ok () m') :
    ∃ caller entry, readCaller m.memory m.mp = .ok caller ∧
      entryOf m.memory caller.jtab = .ok entry ∧ m'.nextAddress = entry + caller.ipc := by
  rcases returnFrom_cases h with ⟨e, failed, -⟩ | ⟨caller, values, hc, -, ⟨e, m₁, -, failed⟩ |
    ⟨m₁, resumed, handed⟩⟩
  · cases failed
  · cases failed
  have still := (still_handOver values baseProcedure).of_ok handed
  have next : m'.nextAddress = m₁.nextAddress := by
    unfold nextAddress
    rw [still.ipc, still.ipcBase]
  rcases resume_cases resumed with ⟨e, -, failed⟩ | ⟨entry, found, outcome⟩
  · cases failed
  refine ⟨caller, entry, hc, found, next.trans ?_⟩
  rcases outcome with ⟨-, eq⟩ | ⟨-, ⟨⟨e, failed⟩, -⟩ | ⟨s, -, -, eq⟩⟩
  · cases eq
    rfl
  · cases failed
  · cases eq
    rfl

/-! ## Resumption -/

/-- A load of no constants raises no fault. -/
theorem loadConstants_of_none (none_ : m.memory.peekByte m.nextAddress = 0)
    (legible : m.memory.Legible m.nextAddress 1) : ∃ m', loadConstants m = .ok () m' := by
  unfold loadConstants
  rw [bind_of_ok (fetchByte_apply legible), bind_of_ok alignPointer_apply, get_bind_apply, none_]
  exact ⟨_, rfl⟩

theorem Raises.not_emptyConstants (raises : Raises m fault raised)
    (legible : m.memory.Legible m.nextAddress (Line.decode m.memory m.nextAddress).length.toNat) :
    ¬ m.memory.EmptyConstantsAt m.nextAddress := by
  rintro ⟨code, none_, -⟩
  have kinds : (Encoding.ofCode (m.memory.peekByte m.nextAddress)).operands = [.words] := by
    rw [code]
    rfl
  rw [Line.toNat_length (by decide) (by decide) kinds, Line.span,
    OperandValue.size_words_of_none none_] at legible
  obtain ⟨m₁, stopped, -⟩ := raises.stopped
  have count : (m.prepare.movedTo (m.nextAddress + 1)).memory.Legible
      (m.prepare.movedTo (m.nextAddress + 1)).nextAddress 1 := by
    rw [nextAddress_movedTo]
    exact legible.drop (k := 1)
  obtain ⟨m', loaded⟩ := loadConstants_of_none (m := m.prepare.movedTo (m.nextAddress + 1))
    (by rw [nextAddress_movedTo]; exact none_) count
  have executed : executeNext m.prepare = executeTable .ldc (m.prepare.movedTo (m.nextAddress + 1)) :=
    executeNext_eq (m := m.prepare) code (legible.mono (Nat.le_add_right 1 _))
  rw [executed] at stopped
  cases (raising_of_ok loaded).symm.trans stopped

/-- A fault of an instruction that does not leave finds the instruction pointer behind the operands. -/
theorem Raises.goesOn (raises : Raises m fault raised) (stays : ¬ m.memory.LeavesAt m.nextAddress)
    (legible : m.memory.Legible m.nextAddress (Line.decode m.memory m.nextAddress).length.toNat) :
    raised.ipc = m.memory.following m.nextAddress - m.ipcBase ∧ raised.jtab = m.jtab := by
  obtain ⟨m₁, stopped, rfl⟩ := raises.stopped
  have goes := goesOnAt_executeNext (m := m.prepare) stays legible
  rw [GoesOnAt, stopped] at goes
  exact ⟨goes.ipc, goes.jtab⟩

/-- A fault is raised at the place of the next line of the listing, unless it refuses a comparison. -/
theorem Raises.ipc_eq_iff (raises : Raises m fault raised)
    (stays : ¬ m.memory.LeavesAt m.nextAddress)
    (legible : m.memory.Legible m.nextAddress (Line.decode m.memory m.nextAddress).length.toNat) :
    raised.ipc = m.ipc + (Line.decode m.memory m.nextAddress).length ↔
      ¬ m.memory.RefusedComparisonAt m.nextAddress := by
  have offset (n : Word) : m.nextAddress + n - m.ipcBase = m.ipc + n := by
    unfold nextAddress
    grind
  rw [(raises.goesOn stays legible).1]
  by_cases refused : m.memory.RefusedComparisonAt m.nextAddress
  · obtain ⟨next, longer⟩ := Memory.following_of_refusedComparison refused
    rw [next, offset]
    constructor
    · intro same
      exact absurd (by grind) longer
    · exact fun other => absurd refused other
  · rw [Memory.following_eq (raises.not_emptyConstants legible) refused, offset]
    exact ⟨fun _ => refused, fun _ => rfl⟩

/-- The handler of a fault that an instruction raises finds the place of the next line of the listing in
its frame, and a return from that frame goes on there, unless the instruction compares word arrays by
order. -/
theorem delivered_trap_resumes_iff (raises : Raises m fault raised)
    (stays : ¬ m.memory.LeavesAt m.nextAddress)
    (legible : m.memory.Legible m.nextAddress (Line.decode m.memory m.nextAddress).length.toNat)
    (delivered : step m = .ok () m') (made : raised.depth < m'.depth)
    (plain : PlainHeader m'.memory m'.mp) :
    (m'.memory.peekWord (m'.mp + Frame.savedIpc) =
        m.ipc + (Line.decode m.memory m.nextAddress).length ↔
      ¬ m.memory.RefusedComparisonAt m.nextAddress) ∧
    ∀ w w' results baseProcedure,
      w.memory.readWord (w.mp + Frame.savedIpc) =
        .ok (m'.memory.peekWord (m'.mp + Frame.savedIpc)) →
      w.memory.readWord (w.mp + Frame.savedJtab) =
        .ok (m'.memory.peekWord (m'.mp + Frame.savedJtab)) →
      entryOf w.memory m.jtab = .ok m.ipcBase →
      returnFrom results baseProcedure w = .ok () w' →
      (w'.nextAddress = m.nextAddress + (Line.decode m.memory m.nextAddress).length ↔
        ¬ m.memory.RefusedComparisonAt m.nextAddress) := by
  have words := remembers_of_step raises delivered made plain
  have place := raises.ipc_eq_iff stays legible
  rw [← words.savedIpc] at place
  refine ⟨place, fun w w' results baseProcedure ipcRead jtabRead entry returned => ?_⟩
  obtain ⟨caller, found, read, entryRead, next⟩ := nextAddress_of_returnFrom returned
  -- the return reads back what the delivery wrote
  have saved : caller.jtab = m.jtab ∧
      caller.ipc = m'.memory.peekWord (m'.mp + Frame.savedIpc) := by
    obtain ⟨mp, -, read⟩ := except_bind_eq_ok.1 read
    obtain ⟨jtab, jtabRead', read⟩ := except_bind_eq_ok.1 read
    obtain ⟨seg, -, read⟩ := except_bind_eq_ok.1 read
    obtain ⟨ipc, ipcRead', read⟩ := except_bind_eq_ok.1 read
    obtain ⟨sp, -, read⟩ := except_bind_eq_ok.1 read
    cases read
    rw [ipcRead] at ipcRead'
    rw [jtabRead, words.savedJtab, (raises.goesOn stays legible).2] at jtabRead'
    cases ipcRead'
    cases jtabRead'
    exact ⟨rfl, rfl⟩
  rw [saved.1, entry] at entryRead
  cases entryRead
  rw [next, saved.2, ← place]
  unfold nextAddress
  constructor
  · intro same
    grind
  · intro same
    rw [same]
    grind

/-! ## Small programs -/

theorem not_leavesAt {memory : Memory} {a : Address} {op : Opcode}
    (code : Encoding.ofCode (memory.peekByte a) = .table op) (stays : op.leaves = false)
    (other : op ≠ .csp) : ¬ memory.LeavesAt a := by
  rintro ⟨op', code', leaves | ⟨is, -⟩⟩
  · cases code.symm.trans code'
    rw [stays] at leaves
    cases leaves
  · cases code.symm.trans code'
    exact other is

/-- The machine before the first division by zero. -/
def dividing : Machine :=
  endState (runFor 2 (started retrying))

theorem dividing_run :
    dividing.halted = false ∧
      stopOf (executeNext dividing.prepare) = some (.trap .divideByZero) ∧
      (∀ i < 1, dividing.nextAddress + UInt16.ofNat i ≠ 0 ∧
        (dividing.memory.cell (dividing.nextAddress + UInt16.ofNat i)).mapped = false) ∧
      (Line.decode dividing.memory dividing.nextAddress).length = 1 ∧
      Encoding.ofCode (dividing.memory.peekByte dividing.nextAddress) = .table .dvi ∧
      succeeded (step dividing) = true ∧
      (endState (executeNext dividing.prepare)).counted.depth < (endState (step dividing)).depth ∧
      (∀ i < 14, ((endState (step dividing)).memory.cell
        ((endState (step dividing)).mp + UInt16.ofNat i)).mapped = false) ∧
      (endState (step dividing)).memory.readWord ((endState (step dividing)).mp + Frame.savedIpc) =
        .ok ((endState (step dividing)).memory.peekWord
          ((endState (step dividing)).mp + Frame.savedIpc)) ∧
      (endState (step dividing)).memory.readWord ((endState (step dividing)).mp + Frame.savedJtab) =
        .ok ((endState (step dividing)).memory.peekWord
          ((endState (step dividing)).mp + Frame.savedJtab)) ∧
      entryOf (endState (step dividing)).memory dividing.jtab = .ok dividing.ipcBase ∧
      succeeded (returnFrom 0 false (endState (step dividing))) = true := by
  decide +kernel

/-- After a division by zero the handler returns to the instruction behind the division. -/
theorem delivered_trap_resumes_dividing :
    (endState (returnFrom 0 false (endState (step dividing)))).nextAddress =
      dividing.nextAddress + 1 := by
  obtain ⟨running, stopped, legible, length, code, delivered, made, plain, ipcRead, jtabRead, entry,
    returned⟩ := dividing_run
  have raises : Raises dividing .divideByZero (endState (executeNext dividing.prepare)).counted :=
    raises_of_stop running ⟨nofun, nofun⟩ rfl stopped
  have fine : ¬ dividing.memory.RefusedComparisonAt dividing.nextAddress := by
    rintro ⟨op, r, code', compares, -⟩
    cases code.symm.trans code'
    cases compares
  have resumes := (delivered_trap_resumes_iff raises (not_leavesAt code rfl nofun)
    (by rw [length]; exact legible) (eq_ok_of_succeeded delivered) made plain).2 _ _ 0 false
    ipcRead jtabRead entry (eq_ok_of_succeeded returned)
  rw [length] at resumes
  exact resumes.2 fine

/-- A program that compares word arrays by order, and whose handler returns. -/
def comparing : List SegmentSpec :=
  [{ number := 0
     name := "KERNEL"
     procedures :=
       [{ level := 1
          body := some { code := [1, 1, Opcode.les.code, 12, 2, Opcode.xit.code] } },
         { level := 1, body := some { code := [Opcode.rnp.code, 0] } }] }]

/-- The machine before the comparison. -/
def comparingTrace : Machine :=
  endState (runFor 2 (started comparing))

theorem comparingTrace_run :
    comparingTrace.halted = false ∧
      stopOf (executeNext comparingTrace.prepare) =
        some (.trap (.unimplemented (.comparison "LES" 12))) ∧
      (∀ i < 3, comparingTrace.nextAddress + UInt16.ofNat i ≠ 0 ∧
        (comparingTrace.memory.cell
          (comparingTrace.nextAddress + UInt16.ofNat i)).mapped = false) ∧
      (Line.decode comparingTrace.memory comparingTrace.nextAddress).length = 3 ∧
      Encoding.ofCode (comparingTrace.memory.peekByte comparingTrace.nextAddress) = .table .les ∧
      succeeded (step comparingTrace) = true ∧
      (endState (executeNext comparingTrace.prepare)).counted.depth <
        (endState (step comparingTrace)).depth ∧
      (∀ i < 14, ((endState (step comparingTrace)).memory.cell
        ((endState (step comparingTrace)).mp + UInt16.ofNat i)).mapped = false) ∧
      (endState (step comparingTrace)).memory.peekWord
        ((endState (step comparingTrace)).mp + Frame.savedIpc) = comparingTrace.ipc + 2 := by
  decide +kernel

/-- The handler of a refused comparison finds the place of the size operand in its frame. -/
theorem refused_comparison_resumes_inside :
    ∃ m m' fault raised, Raises m fault raised ∧ ¬ m.memory.LeavesAt m.nextAddress ∧
      m.memory.Legible m.nextAddress (Line.decode m.memory m.nextAddress).length.toNat ∧
      step m = .ok () m' ∧ raised.depth < m'.depth ∧ PlainHeader m'.memory m'.mp ∧
      m'.memory.peekWord (m'.mp + Frame.savedIpc) ≠
        m.ipc + (Line.decode m.memory m.nextAddress).length := by
  obtain ⟨running, stopped, legible, length, code, delivered, made, plain, inside⟩ :=
    comparingTrace_run
  have raises : Raises comparingTrace (.unimplemented (.comparison "LES" 12))
      (endState (executeNext comparingTrace.prepare)).counted :=
    raises_of_stop running ⟨nofun, nofun⟩ rfl stopped
  refine ⟨comparingTrace, _, _, _, raises, not_leavesAt code rfl nofun,
    by rw [length]; exact legible, eq_ok_of_succeeded delivered, made, plain, ?_⟩
  rw [inside, length]
  grind

end Machine
end PSystem
