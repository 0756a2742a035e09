import PSystem.Proofs.CallRuns
import PSystem.Proofs.Steady

/-!
# Delivering a fault

On a grounded machine a fault can always be recorded, and how its delivery ends depends on the handler
only: one is active already, or there is none, or its call fails, or it is called with the fields of
the trap in place (`Grounded.delivery_cases`).
-/

namespace PSystem

/-! ## The fields of a trap -/

namespace Memory

variable {m m' : Memory} {a : Address} {w : Word}

/-- The two cells of a word lie among the fields of a trap. -/
def InFields (a : Address) : Prop :=
  (Syscom.base ≤ a ∧ a < Syscom.date) ∧ Syscom.base ≤ a + 1 ∧ a + 1 < Syscom.date

instance : Decidable (InFields a) :=
  inferInstanceAs (Decidable (_ ∧ _))

theorem Recordable.readWord (h : m.Recordable) (field : InFields a) :
    m.readWord a = .ok (m.peekWord a) := by
  have first := h a field.1.1 field.1.2
  have second := h (a + 1) field.2.1 field.2.2
  exact readWord_unmapped first.valid second.valid first.unmapped second.unmapped

/-- A word that is written to free cells is found there, and other words are what they were. -/
theorem writeWord_found (first : m.Free a) (second : m.Free (a + 1)) (w : Word) :
    ∃ m', writeWord a w m = .ok () m' ∧ Guarded m m' ∧ m'.peekWord a = w ∧
      ∀ b, b ≠ a → b ≠ a + 1 → b + 1 ≠ a → m'.peekWord b = m.peekWord b := by
  refine ⟨_, writeWord_free first second, ?_⟩
  have written := writeWord_free (w := w) first second
  have guarded : Guarded m _ := Keeps.of_ok written
  have off := (keeps_writeWord_off (S := fun b => b = a ∨ b = a + 1) (w := w) (.inl rfl)
    (.inr rfl)).of_ok written
  refine ⟨guarded, peekWord_of_writeWord first.unmapped second.unmapped written, ?_⟩
  intro b before after next
  apply peekWord_congr guarded.order
  · exact off.peekByte (by simp [before, after])
  · refine off.peekByte ?_
    rintro (here | here)
    · exact next here
    · exact before (UInt16.add_left_inj 1 |>.1 here)

/-- Reading fails at address 0 only. -/
theorem exists_readWord (valid : a ≠ 0) (valid' : a + 1 ≠ 0) : ∃ w, m.readWord a = .ok w := by
  have byte {b : Address} (valid : b ≠ 0) : ∃ v, m.readByte b = .ok v := by
    unfold readByte
    rw [if_neg valid]
    cases m.device? b with
    | some device => exact ⟨_, rfl⟩
    | none => exact ⟨_, rfl⟩
  obtain ⟨first, h⟩ := byte valid
  obtain ⟨second, h'⟩ := byte valid'
  refine ⟨m.order.join first second, ?_⟩
  unfold readWord
  rw [h, h']
  rfl

end Memory

variable {fault : Fault} {address mp : Address} {memory memory' : Memory}

/-- The fields of a trap: what was raised, by the instruction at an address, in a frame. -/
structure Recorded (fault : Fault) (address mp : Address) (memory : Memory) : Prop where
  code : memory.readWord Syscom.errorCode = .ok fault.code
  address : memory.readWord Syscom.errorAddress = .ok address
  frame : memory.readWord Syscom.errorFrame = .ok mp

/-- The fields of a trap lie below the heap. -/
theorem Recorded.of_same (h : Recorded fault address mp memory) (fields : memory.Recordable)
    (guarded : Memory.Guarded memory memory')
    (same : ∀ a, a < Heap.start → memory'.cell a = memory.cell a) :
    Recorded fault address mp memory' := by
  have byte {b : Address} (high : b < Syscom.date) : memory'.peekByte b = memory.peekByte b := by
    unfold Memory.peekByte
    rw [same b (UInt16.lt_trans high (by decide))]
  have word {a : Address} (field : Memory.InFields a) : memory'.readWord a = memory.readWord a := by
    rw [fields.readWord field, (fields.guarded guarded).readWord field,
      Memory.peekWord_congr guarded.order (byte field.1.2) (byte field.2.2)]
  exact ⟨(word (by decide)).trans h.code, (word (by decide)).trans h.address,
    (word (by decide)).trans h.frame⟩

/-- Recording a fault succeeds if the fields can be written. -/
theorem Memory.Recordable.recorded (h : memory.Recordable) (fault : Fault) (address mp : Address) :
    ∃ memory', Syscom.recordTrap fault address mp memory = .ok () memory' ∧
      Recorded fault address mp memory' := by
  have written {memory₁ : Memory} (guarded : Memory.Guarded memory memory₁) {a : Address}
      (field : Memory.InFields a) (w : Word) :
      ∃ memory₂, Memory.writeWord a w memory₁ = .ok () memory₂ ∧ Memory.Guarded memory memory₂ ∧
        memory₂.peekWord a = w ∧
        ∀ b, b ≠ a → b ≠ a + 1 → b + 1 ≠ a → memory₂.peekWord b = memory₁.peekWord b := by
    have free := h.guarded guarded
    obtain ⟨memory₂, done, kept, found, other⟩ := Memory.writeWord_found
      (free a field.1.1 field.1.2) (free (a + 1) field.2.1 field.2.2) w
    exact ⟨memory₂, done, IsTrans.trans _ _ _ guarded kept, found, other⟩
  -- the fields are written one after the other, and none of them overlaps an earlier one
  obtain ⟨m₁, done₁, kept₁, code₁, -⟩ := written (Std.Refl.refl _) (a := Syscom.errorCode)
    (by decide) fault.code
  obtain ⟨m₂, done₂, kept₂, place₂, other₂⟩ := written kept₁ (a := Syscom.errorAddress)
    (by decide) address
  obtain ⟨m₃, done₃, kept₃, frame₃, other₃⟩ := written kept₂ (a := Syscom.errorFrame)
    (by decide) mp
  have code₃ : m₃.peekWord Syscom.errorCode = fault.code :=
    (other₃ _ (by decide) (by decide) (by decide)).trans
      ((other₂ _ (by decide) (by decide) (by decide)).trans code₁)
  have place₃ : m₃.peekWord Syscom.errorAddress = address :=
    (other₃ _ (by decide) (by decide) (by decide)).trans place₂
  have done : Syscom.recordTrap fault address mp memory = _ :=
    (bind_of_ok done₁).trans ((bind_of_ok done₂).trans (bind_of_ok done₃))
  have read {memory₁ : Memory} (guarded : Memory.Guarded memory memory₁) {a : Address} {w : Word}
      (field : Memory.InFields a) (word : memory₁.peekWord a = w) : memory₁.readWord a = .ok w := by
    rw [(h.guarded guarded).readWord field, word]
  rw [done]
  cases fault.ioResult? with
  | none =>
    exact ⟨m₃, rfl, read kept₃ (by decide) code₃, read kept₃ (by decide) place₃,
      read kept₃ (by decide) frame₃⟩
  | some result =>
    obtain ⟨m₄, done₄, kept₄, -, other₄⟩ := written kept₃ (a := Syscom.ioResult)
      (by decide) result
    have same {a : Address} {w : Word} (before : a ≠ Syscom.ioResult)
        (after : a ≠ Syscom.ioResult + 1) (next : a + 1 ≠ Syscom.ioResult)
        (word : m₃.peekWord a = w) : m₄.peekWord a = w :=
      (other₄ a before after next).trans word
    exact ⟨m₄, done₄, read kept₄ (by decide) (same (by decide) (by decide) (by decide) code₃),
      read kept₄ (by decide) (same (by decide) (by decide) (by decide) place₃),
      read kept₄ (by decide) (same (by decide) (by decide) (by decide) frame₃)⟩

namespace Machine

variable {m m' : Machine} {kind : CallKind}

@[simp]
theorem record_trapDepth (m : Machine) : m.record.trapDepth = m.trapDepth := by
  rw [record_eq]

@[simp]
theorem record_depth (m : Machine) : m.record.depth = m.depth := by
  rw [record_eq]

@[simp]
theorem record_memory (m : Machine) : m.record.memory = m.memory := by
  rw [record_eq]
  rfl

/-! ## The handler -/

/-- The number of procedures of segment 0 can be read. -/
theorem Grounded.procedureCount (h : m.Grounded) :
    ∃ count, m.segments.procedureCount m.memory 0 = .ok count := by
  obtain ⟨s, hs, resident, start, below⟩ := h.table.kernel
  have above := UInt16.le_iff_toNat_le.1 start
  change 0x100 ≤ s.codeBase.toNat at above
  -- the last word of the segment lies away from both ends of memory
  have top := Segment.toNat_topWord (by omega) (by omega : s.codeBase.toNat + s.footprint.toNat < 2 ^ 16)
  have next : (s.topWord + 1).toNat = s.topWord.toNat + 1 := Memory.toNat_next (by omega)
  have first : s.topWord ≠ 0 := by
    intro zero
    rw [zero] at top
    change 0 + 2 = _ at top
    omega
  have second : s.topWord + 1 ≠ 0 := by
    intro zero
    rw [zero] at next
    cases next
  obtain ⟨w, word⟩ := Memory.exists_readWord first second
  refine ⟨(w >>> 8).toUInt8, ?_⟩
  unfold SegmentTable.procedureCount SegmentTable.resident
  rw [SegmentTable.require_eq_ok.2 hs]
  simp only [except_bind_eq_ok]
  exact ⟨s, ⟨s, rfl, if_pos resident⟩, w, word, rfl⟩

/-- Without a handler, segment 0 has no second procedure. -/
theorem Grounded.count_of_no_handler (h : m.Grounded) (missing : m.hasHandler = false) :
    ∃ count, m.segments.procedureCount m.memory 0 = .ok count ∧ count < handlerProcedure := by
  obtain ⟨count, found⟩ := h.procedureCount
  refine ⟨count, found, ?_⟩
  unfold hasHandler at missing
  rw [found] at missing
  exact UInt8.not_le.1 (of_decide_eq_false missing)

/-- The machine on which the handler is called. -/
theorem Grounded.announced (h : m.Grounded) (fault : Fault) :
    ∃ memory, onMemory (Syscom.recordTrap fault m.currentAddress m.mp) m =
        .ok () (m.withMemory memory) ∧
      m.announced fault = { m.withMemory memory with trapDepth := some m.depth } ∧
      Recorded fault m.currentAddress m.mp (m.announced fault).memory ∧
      (m.announced fault).Grounded := by
  obtain ⟨memory, written, recorded⟩ := h.fields.recorded fault m.currentAddress m.mp
  have done : onMemory (Syscom.recordTrap fault m.currentAddress m.mp) m = _ := onMemory_of_ok written
  have quiet : Quiet m (m.withMemory memory) := Keeps.of_ok done
  have eq : m.announced fault = { m.withMemory memory with trapDepth := some m.depth } := by
    unfold Machine.announced
    rw [done]
    rfl
  refine ⟨memory, done, eq, ?_, ?_⟩
  · rw [eq]
    exact recorded
  · rw [eq]
    exact (h.of_quiet quiet).of_same rfl rfl rfl rfl rfl

/-- A fault was handed to the handler: with the fields of the trap in place, procedure 2 of segment 0
was called.  It was entered from the frame in which the fault was raised, unless the host ran it. -/
structure Delivered (fault : Fault) (address : Address) (raised : Machine) (kind : CallKind)
    (m' : Machine) : Prop where
  recorded : Recorded fault address raised.mp (raised.announced fault).memory
  called : ∃ m₁, call 0 handlerProcedure (raised.announced fault) = .ok kind m₁ ∧ m' = m₁.record ∧
    (kind = .entered → ∃ jtab p,
      (raised.announced fault).segments.jtab (raised.announced fault).memory 0 handlerProcedure =
        .ok jtab ∧ Entered p 0 jtab (raised.announced fault) m₁)
  entered : kind = .entered → Recorded fault address raised.mp m'.memory ∧
    m'.depth = raised.depth + 1
  finished : kind = .finished → (raised.announced fault).CallsHost 0 handlerProcedure ∧
    m'.depth = raised.depth

/-- How the call of the handler ends. -/
theorem Grounded.handler_cases (h : m.Grounded) (fault : Fault) :
    (∃ e m', call 0 handlerProcedure (m.announced fault) = .error e m' ∧ m'.depth = m.depth ∧
      m'.trapDepth = some m.depth) ∨
    ∃ kind m', call 0 handlerProcedure (m.announced fault) = .ok kind m' ∧
      m'.trapDepth = some m.depth ∧ Delivered fault m.currentAddress m kind m'.record := by
  obtain ⟨memory, -, eq, recorded, grounded⟩ := h.announced fault
  have stays {m' : Machine} (quiet : Quiet (m.announced fault) m') :
      m'.depth = m.depth ∧ m'.trapDepth = some m.depth := by
    rw [quiet.depth, quiet.unmoved.trapDepth, eq]
    exact ⟨rfl, rfl⟩
  rcases call_cases grounded.regular grounded.hosted
    (rfl : call 0 handlerProcedure (m.announced fault) = _) with
    ⟨e, m', called, kept⟩ | ⟨host, kept, ⟨m', called⟩ | ⟨e, m', called⟩⟩ |
      ⟨jtab, p, m', found, -, called, entered⟩
  · exact .inl ⟨e, m', called, stays kept.quiet⟩
  · rw [called] at kept
    obtain ⟨depth, noted⟩ := stays kept.quiet
    exact .inr ⟨.finished, m', called, noted,
      { recorded := recorded
        called := ⟨m', called, rfl, nofun⟩
        entered := nofun
        finished := fun _ => ⟨host, (record_depth m').trans depth⟩ }⟩
  · rw [called] at kept
    exact .inl ⟨e, m', called, stays kept.quiet⟩
  · have noted : m'.trapDepth = some m.depth := by
      rw [entered.registers, eq]
    have depth : m'.depth = m.depth + 1 := by
      rw [entered.registers, eq]
      rfl
    refine .inr ⟨.entered, m', called, noted,
      { recorded := recorded
        called := ⟨m', called, rfl, fun _ => ⟨jtab, p, found, entered⟩⟩
        entered := fun _ => ⟨?_, (record_depth m').trans depth⟩
        finished := nofun }⟩
    rw [record_memory]
    refine recorded.of_same grounded.fields entered.store.memory fun a low => entered.off a ?_
    -- a call writes above the heap only
    have heap := UInt16.lt_of_lt_of_le low grounded.regular.heap
    rintro (⟨above, -⟩ | stack)
    · exact UInt16.not_le.2 heap above
    · exact UInt16.not_le.2 (UInt16.lt_trans low (by decide)) stack

/-! ## The outcome -/

/-- How the delivery of a fault ends: a handler is active already, or there is none, or its call
fails, or it is called. -/
theorem Grounded.delivery_cases (h : m.Grounded) (fault : Fault) :
    (m.trapDepth.isSome = true ∧
      (deliver fault >>= fun _ => modify record) m = .error (.panic (.whileHandling fault)) m) ∨
    m.trapDepth = none ∧
      ((m.config.deliverTraps = true → ∃ count, m.segments.procedureCount m.memory 0 = .ok count ∧
            count < handlerProcedure) ∧
          (deliver fault >>= fun _ => modify record) m = .error (.trap fault) m ∨
        (∃ e m', call 0 handlerProcedure (m.announced fault) = .error e m' ∧
          (deliver fault >>= fun _ => modify record) m = .error (.trap e) m' ∧
          m'.depth = m.depth ∧ m'.trapDepth = some m.depth) ∨
        ∃ kind m', (deliver fault >>= fun _ => modify record) m = .ok () m' ∧
          m'.trapDepth = some m.depth ∧ Delivered fault m.currentAddress m kind m') := by
  rcases deliver_cases fault m with
    ⟨active, eq⟩ | ⟨idle, refused, eq⟩ | ⟨idle, -, -, ⟨e, m₁, recorded, -⟩ | ⟨-, eq⟩⟩
  · exact .inl ⟨active, bind_of_error eq⟩
  · refine .inr ⟨idle, .inl ⟨fun enabled => ?_, bind_of_error eq⟩⟩
    rcases refused with off | missing
    · rw [off] at enabled
      cases enabled
    · exact h.count_of_no_handler missing
  · obtain ⟨memory, done, -⟩ := h.announced fault
    cases done.symm.trans recorded
  · refine .inr ⟨idle, .inr ?_⟩
    rcases h.handler_cases fault with
      ⟨e, m', called, depth, noted⟩ | ⟨kind, m', called, noted, delivered⟩
    · rw [called] at eq
      exact .inl ⟨e, m', called, bind_of_error eq, depth, noted⟩
    · rw [called] at eq
      exact .inr ⟨kind, m'.record, bind_of_ok eq, (record_trapDepth m').trans noted, delivered⟩

end Machine
end PSystem
