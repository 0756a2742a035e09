import PSystem.Proofs.CallRuns

/-!
# Faults of a call

Not every fault may be handed to the program's handler: the end of the program and a breakpoint stop the
machine.  No read or write of memory raises these, nor does a call that the machine carries out itself
(`deliverable_of_call`).  So unless the handler is bound to the host, the delivery of a fault does not
end at a breakpoint (`mayGoOn_deliver`).
-/

namespace PSystem

/-! ## Faults that may be delivered -/

theorem Fault.deliverable_system (cause : SystemCause) : (Fault.system cause).Deliverable :=
  ⟨nofun, nofun⟩

theorem Fault.deliverable_noSuchSegment (segment : UInt8) : (Fault.noSuchSegment segment).Deliverable :=
  ⟨nofun, nofun⟩

theorem Fault.deliverable_stackOverflow : Fault.stackOverflow.Deliverable :=
  ⟨nofun, nofun⟩

theorem Fault.deliverable_invalidReference (a : Address) : (Fault.invalidReference a).Deliverable :=
  ⟨nofun, nofun⟩

theorem Fault.deliverable_unimplemented (what : Missing) : (Fault.unimplemented what).Deliverable :=
  ⟨nofun, nofun⟩

/-- A computation that raises only faults which may be handed to a handler. -/
class Ordinary {σ α : Type} (x : Run σ α) : Prop where
  deliverable : ∀ {s e t}, x s = .error e t → e.Deliverable

namespace Ordinary

variable {σ α β : Type} {fault : Fault}

instance pure (a : α) : Ordinary (pure a : Run σ α) := ⟨nofun⟩

instance get : Ordinary (get : Run σ σ) := ⟨nofun⟩

instance modify (f : σ → σ) : Ordinary (modify f : Run σ PUnit) := ⟨nofun⟩

theorem throw (h : fault.Deliverable) : Ordinary (throw fault : Run σ α) := by
  constructor
  rintro s e t failed
  cases failed
  exact h

instance bind (x : Run σ α) (f : α → Run σ β) [hx : Ordinary x] [hf : ∀ a, Ordinary (f a)] :
    Ordinary (x >>= f) := by
  constructor
  intro s e t failed
  rcases bind_cases failed with ⟨e', t', h, same⟩ | ⟨a, t', -, h⟩
  · cases same
    exact hx.deliverable h
  · exact (hf a).deliverable h

/-- A sequence taken apart by name, for programs too long for the search. -/
theorem seq {x : Run σ α} {f : α → Run σ β} (hx : Ordinary x) (hf : ∀ a, Ordinary (f a)) :
    Ordinary (x >>= f) :=
  bind x f

instance ite (c : Prop) [Decidable c] (x y : Run σ α) [hx : Ordinary x] [hy : Ordinary y] :
    Ordinary (if c then x else y) := by
  split
  · exact hx
  · exact hy

end Ordinary

namespace Memory

instance ordinary_writeByte (a : Address) (v : UInt8) : Ordinary (writeByte a v) := by
  constructor
  intro m e m' failed
  have only : e = .invalidReference a := by
    unfold writeByte at failed
    split at failed
    · cases failed
      rfl
    · split at failed
      · split at failed <;> cases failed
      · split at failed
        · cases failed
          rfl
        · cases failed
  rw [only]
  exact Fault.deliverable_invalidReference a

instance ordinary_writeWord (a : Address) (w : Word) : Ordinary (writeWord a w) := by
  unfold writeWord
  infer_instance

instance ordinary_writeBytes (a : Address) (bytes : Bytes) : Ordinary (writeBytes a bytes) := by
  induction bytes generalizing a with
  | nil => exact Ordinary.pure ()
  | cons b bs ih =>
    unfold writeBytes
    infer_instance

end Memory

instance ordinary_recordTrap (fault : Fault) (address mp : Address) :
    Ordinary (Syscom.recordTrap fault address mp) := by
  have shown (result : Option Word) : Ordinary
      (match result with
        | some result => Syscom.writeIoResult result
        | none => pure () : Run Memory Unit) := by
    cases result with
    | some result => exact Memory.ordinary_writeWord _ _
    | none => exact Ordinary.pure ()
  unfold Syscom.recordTrap
  infer_instance

instance ordinary_storeOnMemory {α : Type} (x : Run Memory α) [hx : Ordinary x] :
    Ordinary (Store.onMemory x) := by
  constructor
  intro s e t failed
  unfold Store.onMemory at failed
  cases h : x s.memory with
  | ok a m =>
    rw [h] at failed
    cases failed
  | error e' m =>
    rw [h] at failed
    cases failed
    exact hx.deliverable h

namespace Machine

variable {α β : Type} {m m' : Machine} {fault : Fault} {segment procedure : UInt8}

instance ordinary_onStore (x : Run Store α) [hx : Ordinary x] : Ordinary (onStore x) := by
  constructor
  intro m e m' failed
  unfold onStore at failed
  cases h : x m.store with
  | ok a s =>
    rw [h] at failed
    cases failed
  | error e' s =>
    rw [h] at failed
    cases failed
    exact hx.deliverable h

instance ordinary_onMemory (x : Run Memory α) [Ordinary x] : Ordinary (onMemory x) :=
  ordinary_onStore _

instance ordinary_push (w : Word) : Ordinary (push w) := by
  have pushed : Ordinary (Store.push w) := by
    constructor
    intro s e t failed
    unfold Store.push at failed
    split at failed
    · cases failed
      exact Fault.deliverable_stackOverflow
    · exact (ordinary_storeOnMemory (Memory.writeWord (s.sp - 2) w)).deliverable failed
  exact ordinary_onStore _

/-! ### Reads -/

instance ordinary_orFault_ok (a : α) : Ordinary (orFault (.ok a)) :=
  Ordinary.pure a

instance ordinary_orFault_pure (a : α) : Ordinary (orFault (pure a)) :=
  Ordinary.pure a

instance ordinary_orFault_bind (x : Except Fault α) (f : α → Except Fault β)
    [hx : Ordinary (orFault x)] [hf : ∀ a, Ordinary (orFault (f a))] :
    Ordinary (orFault (x >>= f)) := by
  cases x with
  | ok a => exact hf a
  | error e =>
    constructor
    intro m e' m' failed
    cases failed
    exact hx.deliverable (rfl : orFault (.error e) m = _)

instance ordinary_orFault_ite (c : Prop) [Decidable c] (x y : Except Fault α)
    [hx : Ordinary (orFault x)] [hy : Ordinary (orFault y)] :
    Ordinary (orFault (if c then x else y)) := by
  split
  · exact hx
  · exact hy

instance ordinary_reading (f : Memory → Except Fault α) [∀ m, Ordinary (orFault (f m))] :
    Ordinary (reading f) := by
  unfold reading
  infer_instance

instance ordinary_readByte (m : Memory) (a : Address) : Ordinary (orFault (m.readByte a)) := by
  unfold Memory.readByte
  split
  · exact Ordinary.throw (Fault.deliverable_invalidReference a)
  · cases m.device? a with
    | some device => exact Ordinary.pure _
    | none => exact Ordinary.pure _

instance ordinary_readWord (m : Memory) (a : Address) : Ordinary (orFault (m.readWord a)) := by
  unfold Memory.readWord
  infer_instance

instance ordinary_mapM (f : β → Except Fault α) [hf : ∀ b, Ordinary (orFault (f b))] (bs : List β) :
    Ordinary (orFault (bs.mapM f)) := by
  induction bs with
  | nil =>
    rw [List.mapM_nil]
    infer_instance
  | cons b bs ih =>
    rw [List.mapM_cons]
    infer_instance

instance ordinary_readBytes (m : Memory) (a : Address) (n : Nat) :
    Ordinary (orFault (m.readBytes a n)) := by
  unfold Memory.readBytes
  infer_instance

instance ordinary_number (m : Memory) (jtab : Address) :
    Ordinary (orFault (AttributeTable.number m jtab)) :=
  ordinary_readByte m jtab

instance ordinary_require (t : SegmentTable) (n : UInt8) : Ordinary (orFault (t.require n)) := by
  unfold SegmentTable.require
  cases t.get? n with
  | some s => exact Ordinary.pure s
  | none => exact Ordinary.throw (Fault.deliverable_noSuchSegment n)

instance ordinary_resident (t : SegmentTable) (n : UInt8) : Ordinary (orFault (t.resident n)) := by
  have absent : Ordinary (orFault (.error (.system (.notResident n))) : Run Machine Segment) :=
    Ordinary.throw (Fault.deliverable_system _)
  unfold SegmentTable.resident
  infer_instance

instance ordinary_jtab (t : SegmentTable) (m : Memory) (n procedure : UInt8) :
    Ordinary (orFault (t.jtab m n procedure)) := by
  have absent : Ordinary (orFault (.error (.system (.noProcedure procedure n))) : Run Machine Address) :=
    Ordinary.throw (Fault.deliverable_system _)
  have slot (s : Segment) : Ordinary (orFault (s.dictionarySlot procedure)) := by
    unfold Segment.dictionarySlot
    dsimp only
    split
    · exact Ordinary.throw (Fault.deliverable_system _)
    · exact Ordinary.pure _
  unfold SegmentTable.jtab SegmentTable.procedureCount
  infer_instance

instance ordinary_outward (m : Memory) (frame : Address) (n : Nat) :
    Ordinary (orFault (Frame.outward m frame n)) := by
  induction n generalizing frame with
  | zero => exact Ordinary.pure frame
  | succ n ih =>
    unfold Frame.outward
    infer_instance

instance ordinary_staticLinkFor (m : Machine) (callee : Int) :
    Ordinary (orFault (m.staticLinkFor callee)) := by
  have gap (caller : Int) :
      Ordinary (orFault (throw (.system (.levelGap caller callee))) : Run Machine PUnit) :=
    Ordinary.throw (Fault.deliverable_system _)
  unfold staticLinkFor AttributeTable.level
  infer_instance

/-! ### Calls -/

instance ordinary_enter (segment procedure : UInt8) (jtab : Address) :
    Ordinary (enter segment procedure jtab) := by
  have overflow : Ordinary (throw .stackOverflow : Run Machine PUnit) :=
    Ordinary.throw Fault.deliverable_stackOverflow
  -- Entering is put together from stages; each fails with a deliverable fault or not at all.
  have carved (m : Machine) (size : Nat) : Ordinary (orFault (m.carveFrame size)) := by
    unfold carveFrame
    split
    · exact Ordinary.pure _
    · exact Ordinary.throw Fault.deliverable_stackOverflow
  have moved (frame : Address) (bytes : Word) :
      Ordinary (moveParameters segment procedure frame bytes) := by
    have missing : Ordinary
        (throw (.system (.missingParameters procedure segment bytes)) : Run Machine PUnit) :=
      Ordinary.throw (Fault.deliverable_system _)
    unfold moveParameters Store.release
    infer_instance
  have written (frame link : Address) : Ordinary (writeHeader frame link) := by
    unfold writeHeader
    refine Ordinary.seq inferInstance fun m => @ordinary_onMemory _ _ ?_
    refine Ordinary.seq inferInstance fun _ => Ordinary.seq inferInstance fun _ => ?_
    refine Ordinary.seq inferInstance fun _ => Ordinary.seq inferInstance fun _ => ?_
    infer_instance
  have read : Ordinary (readAttributes jtab) := by
    unfold readAttributes AttributeTable.level AttributeTable.parameterBytes
      AttributeTable.dataBytes AttributeTable.entry AttributeTable.follow
    infer_instance
  have made (p : Attributes) : Ordinary (makeFrame segment procedure p) := by
    unfold makeFrame
    refine Ordinary.seq inferInstance fun _ => Ordinary.seq inferInstance fun link =>
      Ordinary.seq inferInstance fun _ => Ordinary.seq inferInstance fun frame => ?_
    infer_instance
  have settled (p : Attributes) (frame : Address) : Ordinary (settle segment jtab p frame) := by
    unfold settle modifySegment
    infer_instance
  rw [enter_eq]
  infer_instance

theorem deliverable_of_read {x : Except Fault α} [h : Ordinary (orFault x)] (m : Machine)
    (failed : x = .error fault) : fault.Deliverable := by
  subst failed
  exact h.deliverable (rfl : orFault (.error fault) m = _)

theorem deliverable_of_callBound (unbound : ∀ b ∈ m.bound, b.procedure ≠ procedure)
    (failed : callBound segment procedure m = .error fault m') : fault.Deliverable := by
  unfold callBound at failed
  rw [get_bind_apply] at failed
  rcases orFault_bind_cases failed with ⟨e, missing, same⟩ | ⟨s, -, failed⟩
  · cases same
    exact deliverable_of_read m missing
  cases found : m.bound.find? fun b =>
      b.segment == String.ofList ((Blank.trim s.name.toList).map Char.toUpper) &&
        b.procedure == procedure with
  | none =>
    simp only [found] at failed
    cases failed
    exact Fault.deliverable_unimplemented _
  | some b =>
    have named := List.find?_some found
    rw [Bool.and_eq_true, beq_iff_eq, beq_iff_eq] at named
    exact absurd named.2 (unbound b (List.mem_of_find?_eq_some found))

/-- A call raises only such faults, unless the host has the procedure. -/
theorem deliverable_of_call (unbound : ∀ b ∈ m.bound, b.procedure ≠ procedure)
    (failed : call segment procedure m = .error fault m') : fault.Deliverable := by
  unfold call at failed
  rw [get_bind_apply] at failed
  rcases orFault_bind_cases failed with ⟨e, missing, same⟩ | ⟨jtab, -, failed⟩
  · cases same
    exact deliverable_of_read m missing
  rcases reading_bind_cases failed with ⟨e, missing, same⟩ | ⟨number, -, failed⟩
  · cases same
    exact deliverable_of_read m missing
  split at failed
  · rcases bind_cases failed with ⟨e, m₁, h, same⟩ | ⟨u, m₁, -, h⟩
    · cases same
      exact deliverable_of_callBound unbound h
    · cases h
  · rcases bind_cases failed with ⟨e, m₁, h, same⟩ | ⟨u, m₁, -, h⟩
    · cases same
      exact Ordinary.deliverable h
    · cases h

/-! ## Delivery -/

/-- Whether a computation leaves a machine that may go on: it succeeded, or ended at a breakpoint. -/
def mayGoOn : EStateM.Result Stop Machine Unit → Bool
  | .ok _ _ => true
  | .error (.trap (.breakpoint _)) _ => true
  | .error _ _ => false

theorem mayGoOn_trap (h : fault.Deliverable) (m : Machine) :
    mayGoOn (.error (.trap fault) m) = false := by
  cases fault with
  | breakpoint line => exact absurd rfl (h.2 line)
  | _ => rfl

/-- A fault that is handed to the handler is not followed by a breakpoint, as long as the host does not
have the handler. -/
theorem mayGoOn_deliver (deliverable : fault.Deliverable)
    (unbound : ∀ b ∈ m.bound, b.procedure ≠ handlerProcedure)
    (goes : mayGoOn (deliver fault m) = true) : ∃ m', deliver fault m = .ok () m' := by
  -- A delivery that fails with another deliverable fault ends the run, so such a case does not go
  -- on.
  have refused {e : Fault} {m₁ : Machine} (taken : e.Deliverable)
      (eq : deliver fault m = .error (.trap e) m₁) : ∃ m', deliver fault m = .ok () m' := by
    rw [eq, mayGoOn_trap taken] at goes
    cases goes
  rcases deliver_cases fault m with
    ⟨-, eq⟩ | ⟨-, -, eq⟩ | ⟨-, -, -, ⟨e, m₁, recorded, eq⟩ | ⟨⟨m₁, recorded⟩, eq⟩⟩
  · rw [eq] at goes
    cases goes
  · exact refused deliverable eq
  · exact refused (Ordinary.deliverable recorded) eq
  · cases called : call 0 handlerProcedure (m.announced fault) with
    | ok kind m₂ =>
      rw [called] at eq
      exact ⟨m₂, eq⟩
    | error e m₂ =>
      rw [called] at eq
      refine refused (deliverable_of_call ?_ called) eq
      have quiet : Quiet m (endState (onMemory (Syscom.recordTrap fault m.currentAddress m.mp) m)) :=
        Keeps.related m
      intro b hb
      exact unbound b (quiet.bound ▸ hb)

end Machine
end PSystem
