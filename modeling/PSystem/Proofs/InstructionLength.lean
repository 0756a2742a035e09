import PSystem.Proofs.Operands
import PSystem.Proofs.Traps

/-!
# Instruction length

A listing tells the length of an instruction from a table of operand kinds, and the machine finds out
by fetching what it needs.  The two agree: a step that does not transfer control goes on with the next
line of the listing.  The one exception is a load of no constants at an odd address, which aligns the
instruction pointer for words that do not follow (`step_advances_iff`).

The first part covers the instructions that may stay although they name another place to go on: jumps
whose condition does not hold, and calls that the host carries out.
-/

namespace PSystem

namespace Machine

variable {α β : Type} {m m' : Machine} {segment procedure : UInt8} {jtab : Address}

/-! ## Jumps that are not taken -/

/-- The condition of a jump instruction. -/
def Condition.ofOpcode? : Opcode → Option Condition
  | .ujp => some .always
  | .fjp => some .onFalse
  | .efj => some .onUnequal
  | .nfj => some .onEqual
  | _ => none

theorem onStore_congr {x : Run Store α} {v : α} {t : Machine} (same : m'.store = m.store)
    (h : onStore x m = .ok v t) : ∃ t', onStore x m' = .ok v t' ∧ t'.store = t.store := by
  unfold onStore at h ⊢
  rw [same]
  cases hx : x m.store with
  | ok a s =>
    rw [hx] at h
    cases h
    exact ⟨_, rfl, rfl⟩
  | error e s =>
    rw [hx] at h
    cases h

/-- A condition depends on the evaluation stack only. -/
theorem testCondition_congr {c : Condition} {v : Bool} {t : Machine} (same : m'.store = m.store)
    (h : testCondition c m = .ok v t) : ∃ t', testCondition c m' = .ok v t' := by
  cases c with
  | always =>
    cases h
    exact ⟨_, rfl⟩
  | onFalse =>
    obtain ⟨b, t₁, popped, h⟩ := bind_eq_ok.1 h
    cases h
    obtain ⟨t', popped', -⟩ := onStore_congr same popped
    exact ⟨t', bind_of_ok popped'⟩
  | onUnequal | onEqual =>
    obtain ⟨b, t₁, popped, h⟩ := bind_eq_ok.1 h
    obtain ⟨a, t₂, popped₂, h⟩ := bind_eq_ok.1 h
    cases h
    obtain ⟨t₁', popped', same₁⟩ := onStore_congr same popped
    obtain ⟨t₂', popped₂', -⟩ := onStore_congr same₁ popped₂
    exact ⟨t₂', (bind_of_ok popped').trans (bind_of_ok popped₂')⟩

/-- A jump whose condition does not hold goes on behind its displacement. -/
theorem goesOnAt_jump {c : Condition} (legible : m.memory.Legible m.nextAddress 1)
    (untaken : ∀ t, testCondition c m ≠ .ok true t) :
    GoesOnAt (m.nextAddress + 1) m (jump c) := by
  refine GoesOnAt.of_bind (fetchByte_apply legible) ?_
  cases tested : testCondition c (m.movedTo (m.nextAddress + 1)) with
  | error e t =>
    rw [GoesOnAt, bind_of_error tested, movedTo_movedTo]
    exact (works_testCondition c).of_error tested
  | ok v t =>
    cases v with
    | true =>
      have same : m.store = (m.movedTo (m.nextAddress + 1)).store := rfl
      obtain ⟨t', taken⟩ := testCondition_congr same tested
      exact absurd taken (untaken t')
    | false =>
      rw [GoesOnAt, bind_of_ok tested, movedTo_movedTo]
      exact (works_testCondition c).of_ok tested

/-! ## Calls -/

/-- Execution goes on where it would have, or a frame was made. -/
def Entering (m m' : Machine) : Prop :=
  Still m m' ∨ m'.depth = m.depth + 1

theorem Still.entering {m₁ : Machine} (h : Still m m₁) (h' : Entering m₁ m') : Entering m m' := by
  rcases h' with stays | deeper
  · exact .inl (IsTrans.trans _ _ _ h stays)
  · exact .inr (deeper.trans (by rw [h.depth]))

theorem Entering.still {m₁ : Machine} (h : Entering m m₁) (h' : Still m₁ m') : Entering m m' := by
  rcases h with stays | deeper
  · exact .inl (IsTrans.trans _ _ _ stays h')
  · exact .inr (h'.depth.trans deeper)

/-- However it ends, `x` makes at most one frame, and moves only then. -/
def Enters (x : Run Machine α) : Prop :=
  ∀ m, Entering m (endState (x m))

theorem enters_of_still (x : Run Machine α) [h : Keeps Still x] : Enters x :=
  fun m => .inl (h.related m)

theorem Enters.of_ok {x : Run Machine α} {v : α} (hx : Enters x) (h : x m = .ok v m') :
    Entering m m' := by
  have := hx m
  rwa [h] at this

theorem Enters.of_error {x : Run Machine α} {e : Fault} (hx : Enters x)
    (h : x m = .error e m') : Entering m m' := by
  have := hx m
  rwa [h] at this

theorem Enters.bind {x : Run Machine α} {f : α → Run Machine β} [hx : Keeps Still x]
    (hf : ∀ a, Enters (f a)) : Enters (x >>= f) := by
  intro m
  rw [bind_apply]
  cases h : x m with
  | error e t => exact .inl (hx.of_error h)
  | ok a t => exact (hx.of_ok h).entering (hf a t)

instance still_moveParameters (segment procedure : UInt8) (frame : Address) (bytes : Word) :
    Keeps Still (moveParameters segment procedure frame bytes) := by
  unfold moveParameters
  infer_instance

instance still_writeHeader (frame link : Address) : Keeps Still (writeHeader frame link) := by
  unfold writeHeader
  infer_instance

instance still_setBase (frame : Address) :
    Keeps Still (modify fun m => { m with base := frame } : Run Machine PUnit) :=
  still_modify fun _ => ⟨rfl, rfl, rfl, rfl⟩

theorem enters_settle (segment : UInt8) (jtab : Address) (p : Attributes) (frame : Address) :
    Enters (settle segment jtab p frame) := by
  have moved : Enters (do
      modify fun m =>
        { m with
          psp := frame, mp := frame, seg := segment, jtab := jtab, ipcBase := p.entry, ipc := 0
          depth := m.depth + 1 }
      let m ← get
      if m.heap.collides m.psp then throw .stackOverflow : Run Machine Unit) := by
    intro m
    rw [modify_bind_apply, get_bind_apply]
    split
    · exact .inr rfl
    · exact .inr rfl
  unfold settle
  split
  · exact Enters.bind fun _ => Enters.bind fun _ => moved
  · exact moved

theorem enters_enter : Enters (enter segment procedure jtab) := by
  rw [enter_eq]
  exact Enters.bind fun p => Enters.bind fun frame => enters_settle segment jtab p frame

instance still_callBound (segment procedure : UInt8) : Keeps Still (callBound segment procedure) := by
  constructor
  intro m
  rcases callBound_cases segment procedure m with ⟨e, eq⟩ | ⟨b, -, -, eq⟩
  · rw [eq]
    exact Std.Refl.refl m
  · rw [eq]
    exact (still_onStore b.run).related m

theorem endState_bind_pure (x : Run Machine α) (b : β) (m : Machine) :
    endState ((x >>= fun _ => pure b) m) = endState (x m) := by
  rw [bind_apply]
  cases x m <;> rfl

theorem enters_call : Enters (call segment procedure) := by
  unfold call
  refine Enters.bind fun m => Enters.bind fun jtab => Enters.bind fun number => ?_
  split
  · exact enters_of_still _
  · intro m
    rw [endState_bind_pure]
    exact enters_enter m

/-- An external call also loads the segment and may let it go again. -/
theorem enters_callExternal : Enters (callExternal segment procedure) := by
  intro m
  rcases callExternal_ends (rfl : callExternal segment procedure m = _) with
    ⟨e, m', -, load, failed⟩ | ⟨loaded, brought, ⟨m', called, entered⟩ | ⟨-, ended⟩⟩
  · rw [failed]
    exact .inl ((still_loadSegment segment).of_error load)
  · rw [entered]
    exact (brought.related : Still m loaded).entering (enters_call.of_ok called)
  · have leaving : Keeps Still (m.letGo segment) := keeps_letGo fun _ => inferInstance
    rw [ended]
    exact (brought.related : Still m loaded).entering
      ((enters_call loaded).still (leaving.related _))

/-! ## Instructions that stay -/

/-- The instruction at the pointer makes execution go on elsewhere on its way from `m` to `m'`: it is a
jump that is taken, a return, EXIT, or a call that makes a frame. -/
def Transfers (m m' : Machine) : Prop :=
  ∃ op, Encoding.ofCode (m.memory.peekByte m.nextAddress) = .table op ∧
    ((∃ c t, Condition.ofOpcode? op = some c ∧ testCondition c m = .ok true t) ∨
      op ∈ [Opcode.xjp, .rnp, .rbp] ∨
      (op = .csp ∧
        StandardProcedure.ofCode? (m.memory.peekByte (m.nextAddress + 1)) = some .exit) ∨
      (op ∈ [Opcode.clp, .cgp, .cip, .cbp, .cxp] ∧ m.depth < m'.depth))

/-- Instructions that may make execution go on elsewhere are jumps with a condition, calls, and those
that always do. -/
theorem leaves_cases {op : Opcode} (h : op.leaves = true) :
    (∃ c, Condition.ofOpcode? op = some c ∧ op.operands = [.displacement]) ∨
    op ∈ [Opcode.xjp, .rnp, .rbp] ∨
    op ∈ [Opcode.clp, .cgp, .cip, .cbp, .cxp] := by
  cases op with
  | ujp | fjp | efj | nfj => exact .inl ⟨_, rfl, rfl⟩
  | xjp | rnp | rbp => exact .inr (.inl (by decide))
  | clp | cgp | cip | cbp | cxp => exact .inr (.inr (by decide))
  | _ => cases h

theorem executeNext_eq {op : Opcode}
    (code : Encoding.ofCode (m.memory.peekByte m.nextAddress) = .table op)
    (legible : m.memory.Legible m.nextAddress 1) :
    executeNext m = executeTable op (m.movedTo (m.nextAddress + 1)) := by
  unfold executeNext
  rw [liftM_bind_of_ok (fetchByte_apply legible)]
  unfold execute
  rw [code]

theorem goesOnAt_untaken {op : Opcode} {c : Condition} (conditional : Condition.ofOpcode? op = some c)
    (code : Encoding.ofCode (m.memory.peekByte m.nextAddress) = .table op)
    (legible : m.memory.Legible m.nextAddress 2)
    (untaken : ∀ t, testCondition c m ≠ .ok true t) :
    GoesOnAt (m.nextAddress + 1 + 1) m executeNext := by
  have jumps : executeTable op = liftM (jump c) := by
    cases op with
    | ujp | fjp | efj | nfj =>
      cases conditional
      rfl
    | _ => cases conditional
  have rest : (m.movedTo (m.nextAddress + 1)).memory.Legible
      (m.movedTo (m.nextAddress + 1)).nextAddress 1 := by
    rw [nextAddress_movedTo]
    exact legible.drop (k := 1)
  have ends := goesOnAt_jump (c := c) rest fun t taken => by
    have same : m.store = (m.movedTo (m.nextAddress + 1)).store := rfl
    obtain ⟨t', taken'⟩ := testCondition_congr same taken
    exact untaken t' taken'
  rw [nextAddress_movedTo] at ends
  rw [GoesOnAt, executeNext_eq code (legible.mono (by decide)), jumps, endState_liftM]
  exact ends

/-- A call within the segment goes on behind the number of the procedure unless it makes a frame. -/
theorem entering_callHere (legible : m.memory.Legible m.nextAddress 1) :
    Entering (m.movedTo (m.nextAddress + 1)) (endState (callHere m)) := by
  unfold callHere
  rw [bind_of_ok (fetchByte_apply legible), get_bind_apply, endState_bind_pure]
  exact enters_call _

theorem entering_cxp (legible : m.memory.Legible m.nextAddress 2) :
    Entering (m.movedTo (m.nextAddress + 2)) (endState (executeTable .cxp m)) := by
  have second : (m.movedTo (m.nextAddress + 1)).memory.Legible
      (m.movedTo (m.nextAddress + 1)).nextAddress 1 := by
    rw [nextAddress_movedTo]
    exact legible.drop (k := 1)
  have ends := raising_of_ok (fetchByte_apply second)
  rw [nextAddress_movedTo, movedTo_movedTo, UInt16.add_assoc] at ends
  have program : executeTable .cxp = (liftM fetchByte : Exec UInt8) >>= fun segment =>
      (liftM fetchByte : Exec UInt8) >>= fun procedure => liftM (callExternal segment procedure) :=
    rfl
  rw [program, liftM_bind_of_ok (fetchByte_apply (legible.mono (by decide))),
    bind_of_ok ends, endState_liftM]
  exact enters_callExternal _

/-- A call that makes no frame goes on behind its operands. -/
theorem entering_executeNext {op : Opcode}
    (code : Encoding.ofCode (m.memory.peekByte m.nextAddress) = .table op)
    (calls : op ∈ [Opcode.clp, .cgp, .cip, .cbp, .cxp])
    (legible : m.memory.Legible m.nextAddress
      (1 + Line.span m.memory (m.nextAddress + 1) op.operands)) :
    Entering (m.movedTo (m.nextAddress + (Line.decode m.memory m.nextAddress).length))
      (endState (executeNext m)) := by
  have next : m.nextAddress + (Line.decode m.memory m.nextAddress).length =
      (Line.decodeOperands m.memory (m.nextAddress + 1) op.operands).2 := by
    rw [Line.add_length, code]
    rfl
  have rest : (m.movedTo (m.nextAddress + 1)).memory.Legible
      (m.movedTo (m.nextAddress + 1)).nextAddress
      (Line.span m.memory (m.nextAddress + 1) op.operands) := by
    rw [nextAddress_movedTo]
    exact legible.drop
  rw [executeNext_eq code (legible.mono (Nat.le_add_right 1 _)), next]
  -- CXP names a segment and a procedure, every other call only a procedure.
  by_cases external : op = .cxp
  · subst external
    have entering := entering_cxp (rest.mono (by simp [Line.span, Opcode.operands]))
    have after : (Line.decodeOperands m.memory (m.nextAddress + 1) Opcode.cxp.operands).2 =
        m.nextAddress + 1 + 2 := by
      show m.nextAddress + 1 + 1 + 1 = m.nextAddress + 1 + 2
      grind
    rw [nextAddress_movedTo, movedTo_movedTo] at entering
    rw [after]
    exact entering
  · have here : executeTable op = liftM callHere ∧ op.operands = [.byte] := by
      cases op with
      | clp | cgp | cip | cbp => exact ⟨rfl, rfl⟩
      | cxp => exact absurd rfl external
      | _ => simp at calls
    rw [here.2] at rest ⊢
    rw [here.1, endState_liftM]
    have entering := entering_callHere (rest.mono (by simp [Line.span]))
    rw [nextAddress_movedTo] at entering
    exact entering

/-- An instruction that does not transfer control goes on behind its operands. -/
theorem goesOnAt_of_not_transfers
    (legible : m.memory.Legible m.nextAddress (Line.decode m.memory m.nextAddress).length.toNat)
    (stays : ¬ Transfers m (endState (executeNext m))) :
    GoesOnAt (m.memory.following m.nextAddress) m executeNext := by
  by_cases leaves : ∃ op, Encoding.ofCode (m.memory.peekByte m.nextAddress) = .table op ∧
      op.leaves = true
  · obtain ⟨op, code, leaves⟩ := leaves
    have plain : op ≠ .ldc ∧ op.relation? = none := by
      cases op with
      | ldc | equ | neq | les | leq | grt | geq => cases leaves
      | _ => exact ⟨nofun, rfl⟩
    have next : m.nextAddress + (Line.decode m.memory m.nextAddress).length =
        (Line.decodeOperands m.memory (m.nextAddress + 1) op.operands).2 := by
      rw [Line.add_length, code]
      rfl
    have notCases : op ≠ .xjp := by
      rintro rfl
      exact stays ⟨_, code, .inr (.inl (by decide))⟩
    rw [Memory.following_of_table code plain.1 plain.2]
    rw [Line.toNat_length (Opcode.operands_short notCases).1 (Opcode.operands_short notCases).2
      (congrArg Encoding.operands code)] at legible
    -- An instruction that can leave goes on all the same if its condition does not hold or its call
    -- makes no frame.
    rcases leaves_cases leaves with ⟨c, conditional, displaced⟩ | elsewhere | calls
    · rw [displaced] at legible next
      rw [next]
      exact goesOnAt_untaken conditional code (legible.mono (by simp [Line.span])) fun t taken =>
        stays ⟨op, code, .inl ⟨c, t, conditional, taken⟩⟩
    · exact absurd ⟨op, code, .inr (.inl elsewhere)⟩ stays
    · rcases entering_executeNext code calls legible with still | deeper
      · exact still
      · have made : m.depth < (endState (executeNext m)).depth :=
          Nat.lt_of_lt_of_eq (Nat.lt_succ_self m.depth) deeper.symm
        exact absurd ⟨op, code, .inr (.inr (.inr ⟨calls, made⟩))⟩ stays
  · refine goesOnAt_executeNext ?_ legible
    rintro ⟨op, code, leaving | exits⟩
    · exact leaves ⟨op, code, leaving⟩
    · exact stays ⟨op, code, .inr (.inr (.inl exits))⟩

/-! ## Steps -/

theorem Noted.still (h : Noted m m') : Still m m' :=
  ⟨by rw [h], by rw [h], by rw [h], by rw [h]⟩

/-- A step that completes an instruction adds only notes to what the instruction did. -/
theorem still_of_step (running : m.halted = false) (completed : step m = .ok () m')
    (quiet : ∀ fault raised, ¬ Raises m fault raised) :
    Still (endState (executeNext m.prepare)) m' := by
  cases executed : executeNext m.prepare with
  | ok u m₁ =>
    rw [step_of_ok running executed] at completed
    cases completed
    have counted : Noted m₁ m₁.counted := rfl
    exact (counted.trans (noted_record _)).still
  | error stop m₁ =>
    rw [step_of_error running executed] at completed
    have counted : Noted m₁ m₁.counted := rfl
    cases stop with
    | panic cause | boot failure | endless => cases completed
    -- A fault that is delivered is excluded; of the others only a halt completes the step.
    | trap fault =>
      cases fault with
      | halt =>
        cases completed
        have halted : Noted m₁.counted { m₁.counted with halted := true } := rfl
        exact ((counted.trans halted).trans (noted_record _)).still
      | breakpoint line => cases completed
      | _ =>
        refine (quiet _ m₁.counted ⟨running, ?_, m₁, executed, rfl⟩).elim
        exact ⟨nofun, nofun⟩

/-- A refused comparison raises a fault. -/
theorem compareTyped_refused {r : Relation}
    (refused : r.refuses (m.memory.peekByte m.nextAddress) = true)
    (legible : m.memory.Legible m.nextAddress 1) :
    compareTyped r m = .error (.unimplemented (.comparison r.mnemonic 12))
      (m.movedTo (m.nextAddress + 1)) := by
  have kind : m.memory.peekByte m.nextAddress = 12 := by
    simp only [Relation.refuses, Bool.and_eq_true] at refused
    exact eq_of_beq refused.1.1
  have order : ¬ (r = .eq ∨ r = .ne) := by
    rw [kind] at refused
    simpa [Relation.refuses] using refused
  unfold compareTyped
  rw [bind_of_ok (fetchByte_apply legible), kind]
  simp only [UInt8.toNat_ofNat, if_neg order]
  rfl

theorem executeNext_refused (h : m.memory.RefusedComparisonAt m.nextAddress)
    (legible : m.memory.Legible m.nextAddress 2) :
    ∃ fault m', fault.Deliverable ∧ executeNext m = .error (.trap fault) m' := by
  obtain ⟨op, r, code, compares, refused⟩ := h
  have program : executeTable op = liftM (compareTyped r) := by
    cases op with
    | equ | neq | les | leq | grt | geq =>
      cases compares
      rfl
    | _ => cases compares
  have kindLegible : (m.movedTo (m.nextAddress + 1)).memory.Legible
      (m.movedTo (m.nextAddress + 1)).nextAddress 1 := by
    rw [nextAddress_movedTo]
    exact legible.drop (k := 1)
  have ends := compareTyped_refused (m := m.movedTo (m.nextAddress + 1)) (r := r)
    (by rw [nextAddress_movedTo]; exact refused) kindLegible
  rw [executeNext_eq code (legible.mono (by decide)), program, raising_of_error ends]
  refine ⟨_, _, ?_, rfl⟩
  exact ⟨nofun, nofun⟩

/-- What is noted before an instruction says nothing about where it goes on. -/
theorem transfers_of_prepare {m₁ : Machine} (h : Transfers m.prepare m₁)
    (depth : m'.depth = m₁.depth) : Transfers m m' := by
  obtain ⟨op, code, way⟩ := h
  refine ⟨op, code, ?_⟩
  rcases way with ⟨c, t, conditional, taken⟩ | always | exits | ⟨calls, deeper⟩
  · have same : m.store = m.prepare.store := rfl
    obtain ⟨t', taken'⟩ := testCondition_congr same taken
    exact .inl ⟨c, t', conditional, taken'⟩
  · exact .inr (.inl always)
  · exact .inr (.inr (.inl exits))
  · exact .inr (.inr (.inr ⟨calls, depth ▸ deeper⟩))

/-- A step that completes an instruction and does not transfer control advances the instruction pointer
by the length that the listing tells, unless the instruction is a load of no constants at an odd
address. -/
theorem step_advances_iff (running : m.halted = false)
    (legible : m.memory.Legible m.nextAddress (Line.decode m.memory m.nextAddress).length.toNat)
    (completed : step m = .ok () m') (quiet : ∀ fault raised, ¬ Raises m fault raised)
    (stays : ¬ Transfers m m') :
    m'.ipc = m.ipc + (Line.decode m.memory m.nextAddress).length ↔
      ¬ m.memory.EmptyConstantsAt m.nextAddress := by
  have noted := still_of_step running completed quiet
  have goes : GoesOnAt (m.memory.following m.nextAddress) m.prepare executeNext :=
    goesOnAt_of_not_transfers (m := m.prepare) legible fun h =>
      stays (transfers_of_prepare h noted.depth)
  have reached : m'.ipc = m.memory.following m.nextAddress - m.ipcBase :=
    noted.ipc.trans goes.ipc
  -- A comparison of an unknown kind raises a fault, which the step does not.
  have accepted : ¬ m.memory.RefusedComparisonAt m.nextAddress := by
    intro refused
    obtain ⟨fault, m₁, deliverable, raised⟩ := executeNext_refused (m := m.prepare) refused
      (legible.mono refused.two_le_length)
    exact quiet fault _ ⟨running, deliverable, m₁, raised, rfl⟩
  have offset (n : Word) : m.nextAddress + n - m.ipcBase = m.ipc + n := by
    unfold nextAddress
    grind
  -- Without constants the machine still aligns its pointer, over a byte that is not listed.
  by_cases empty : m.memory.EmptyConstantsAt m.nextAddress
  · rw [reached, Memory.following_of_emptyConstants empty, UInt16.add_assoc, offset]
    constructor
    · intro same
      grind
    · exact fun other => absurd empty other
  · rw [reached, Memory.following_eq empty accepted, offset]
    exact ⟨fun _ => empty, fun _ => rfl⟩

/-! ## A small program -/

/-- A word with a padding byte before it at an even address, and at an odd address no constants. -/
def aligning : List SegmentSpec :=
  [{ number := 0
     name := "KERNEL"
     procedures :=
       [{ level := 1
          body := some
            { code := [Opcode.ldci.code, 0, 5, 0, Opcode.nop.code, Opcode.ldc.code, 0,
                Opcode.xit.code, Opcode.xit.code] } }] }]

/-- The machine before the load of no constants. -/
def aligningTrace : Machine :=
  endState (runFor 2 (started aligning))

theorem not_raises_of_succeeded (h : succeeded (executeNext m.prepare) = true) (fault : Fault)
    (raised : Machine) : ¬ Raises m fault raised := by
  rintro ⟨-, -, m₁, stopped, -⟩
  rw [stopped] at h
  cases h

theorem not_transfers {op : Opcode}
    (code : Encoding.ofCode (m.memory.peekByte m.nextAddress) = .table op)
    (stays : op.leaves = false) (other : op ≠ .csp) : ¬ Transfers m m' := by
  rintro ⟨op', code', way⟩
  obtain rfl : op = op' := Encoding.table.inj (code.symm.trans code')
  have leaves : op.leaves = true := by
    rcases way with ⟨c, t, conditional, -⟩ | always | ⟨is, -⟩ | ⟨calls, -⟩
    · cases op with
      | ujp | fjp | efj | nfj => rfl
      | _ => cases conditional
    · simp only [List.mem_cons, List.not_mem_nil, or_false] at always
      rcases always with rfl | rfl | rfl <;> rfl
    · exact absurd is other
    · simp only [List.mem_cons, List.not_mem_nil, or_false] at calls
      rcases calls with rfl | rfl | rfl | rfl | rfl <;> rfl
  rw [stays] at leaves
  cases leaves

theorem aligning_run :
    (started aligning).halted = false ∧
      (∀ i < 4, (started aligning).nextAddress + UInt16.ofNat i ≠ 0 ∧
        ((started aligning).memory.cell
          ((started aligning).nextAddress + UInt16.ofNat i)).mapped = false) ∧
      (Line.decode (started aligning).memory (started aligning).nextAddress).length = 4 ∧
      Encoding.ofCode ((started aligning).memory.peekByte (started aligning).nextAddress) =
        .table .ldci ∧
      succeeded (executeNext (started aligning).prepare) = true ∧
      succeeded (step (started aligning)) = true ∧
      aligningTrace.halted = false ∧
      (∀ i < 2, aligningTrace.nextAddress + UInt16.ofNat i ≠ 0 ∧
        (aligningTrace.memory.cell (aligningTrace.nextAddress + UInt16.ofNat i)).mapped = false) ∧
      (Line.decode aligningTrace.memory aligningTrace.nextAddress).length = 2 ∧
      Encoding.ofCode (aligningTrace.memory.peekByte aligningTrace.nextAddress) = .table .ldc ∧
      succeeded (executeNext aligningTrace.prepare) = true ∧
      succeeded (step aligningTrace) = true ∧
      (endState (step aligningTrace)).ipc = aligningTrace.ipc + 3 := by
  decide +kernel

/-- The load of a word at an even address takes four bytes, with the padding. -/
theorem step_advances_aligning :
    step (started aligning) = .ok () (endState (step (started aligning))) ∧
      (endState (step (started aligning))).ipc = (started aligning).ipc + 4 := by
  obtain ⟨running, legible, length, code, executed, completed, -⟩ := aligning_run
  have ok := eq_ok_of_succeeded completed
  have stays : ¬ Transfers (started aligning) (endState (step (started aligning))) :=
    not_transfers code rfl nofun
  have advances := (step_advances_iff running (by rw [length]; exact legible) ok
    (not_raises_of_succeeded executed) stays).2 fun empty => by
      cases code.symm.trans empty.1
  rw [length] at advances
  exact ⟨ok, advances⟩

/-- The load of no constants at an odd address takes two bytes in the listing, and the machine goes on
three bytes further. -/
theorem empty_constants_skip_a_byte :
    ∃ m m', m.halted = false ∧
      m.memory.Legible m.nextAddress (Line.decode m.memory m.nextAddress).length.toNat ∧
      step m = .ok () m' ∧ (∀ fault raised, ¬ Raises m fault raised) ∧ ¬ Transfers m m' ∧
      m'.ipc ≠ m.ipc + (Line.decode m.memory m.nextAddress).length := by
  obtain ⟨-, -, -, -, -, -, running, legible, length, code, executed, completed, skipped⟩ :=
    aligning_run
  refine ⟨aligningTrace, _, running, by rw [length]; exact legible, eq_ok_of_succeeded completed,
    not_raises_of_succeeded executed, not_transfers code rfl nofun, ?_⟩
  rw [skipped, length]
  grind

end Machine
end PSystem
