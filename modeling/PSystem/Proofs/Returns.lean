import PSystem.Proofs.Calls

/-!
# What returns do

A return reads the caller from the header, goes back to it (`resume`), takes the base register from
the stack if a base procedure is left, and pushes the results.  Only `resume` touches the overlay
table: it gives up the segment that is left.  A relation that each of these stages keeps is kept by
returns.
-/

namespace PSystem
namespace Machine

variable {m m' : Machine} {e : Fault} {caller : Caller} {frame : Address}

/-! ## Words of frames -/

theorem le_add_ofNat {a : Address} {i : Nat} (low : Heap.start ≤ a)
    (fits : a.toNat + i < 2 ^ 16) : Heap.start ≤ a + UInt16.ofNat i := by
  rw [UInt16.le_iff_toNat_le, toNat_add_ofNat fits]
  exact Nat.le_trans (UInt16.le_iff_toNat_le.1 low) (Nat.le_add_right _ _)

theorem ne_zero_of_start {a : Address} (h : Heap.start ≤ a) : a ≠ 0 := by
  rintro rfl
  exact absurd h (by decide)

/-- Words above the start of the heap can be read. -/
theorem readWord_above {memory : Memory}
    (unmapped : ∀ a, Heap.start ≤ a → (memory.cell a).mapped = false) {a : Address} {i : Nat}
    (low : Heap.start ≤ a) (fits : a.toNat + i + 1 < 2 ^ 16) :
    memory.readWord (a + UInt16.ofNat i) = .ok (memory.peekWord (a + UInt16.ofNat i)) := by
  have first := le_add_ofNat low (i := i) (by omega)
  have second : Heap.start ≤ a + UInt16.ofNat i + 1 := by
    have := le_add_ofNat low (i := i + 1) (by omega)
    rwa [UInt16.ofNat_add, ← UInt16.add_assoc] at this
  exact Memory.readWord_unmapped (ne_zero_of_start first) (ne_zero_of_start second)
    (unmapped _ first) (unmapped _ second)

/-! ## Going back to the caller -/

/-- The machine with the activation of a caller, whose code starts at `entry`. -/
def backAt (m : Machine) (caller : Caller) (entry : Address) : Machine :=
  { m with
    store := { m.store with sp := caller.sp }
    mp := caller.mp, jtab := caller.jtab, seg := caller.seg
    ipcBase := entry, ipc := caller.ipc, depth := m.depth - 1 }

/-- The machine whose return got stuck at the attribute table of the caller. -/
def stuckAt (m : Machine) (caller : Caller) : Machine :=
  { m with
    store := { m.store with sp := caller.sp }
    mp := caller.mp, jtab := caller.jtab, seg := caller.seg }

/-- The address at which the code of a caller starts. -/
def entryOf (m : Memory) (jtab : Address) : Except Fault Address :=
  if jtab = 0 then .ok 0 else AttributeTable.entry m jtab

/-- A return gives up the segment that is left, unless the caller is in it too. -/
def Leaves (m : Machine) (caller : Caller) : Prop :=
  m.seg ≠ caller.seg ∧ m.seg ≠ 0

/-- How going back to a caller ends. -/
theorem resume_cases {r : EStateM.Result Fault Machine Unit} (h : resume caller m = r) :
    (∃ e, entryOf m.memory caller.jtab = .error e ∧ r = .error e (m.stuckAt caller)) ∨
    ∃ entry, entryOf m.memory caller.jtab = .ok entry ∧
      ((¬ m.Leaves caller ∧ r = .ok () (m.backAt caller entry).reclaimed) ∨
        (m.Leaves caller ∧
          (((∃ e, r = .error e (m.backAt caller entry)) ∧
              ∀ s, m.segments.get? m.seg = some s → s.isResident = false) ∨
            ∃ s, m.segments.get? m.seg = some s ∧ s.isResident = true ∧
              r = .ok () ((m.backAt caller entry).afterRelease m.seg s).reclaimed))) := by
  -- the registers of the caller are set before its attribute table is read
  have opened : resume caller m = (orFault (entryOf m.memory caller.jtab) >>= fun entry => do
      modify fun m => { m with ipcBase := entry, ipc := caller.ipc, depth := m.depth - 1 }
      if m.seg ≠ caller.seg ∧ m.seg ≠ 0 then unloadSegment m.seg
      reclaim) (m.stuckAt caller) := by
    unfold resume entryOf
    by_cases outermost : caller.jtab = 0
    · simp only [if_pos outermost]
      rfl
    · simp only [if_neg outermost]
      rfl
  rw [opened] at h
  rcases orFault_bind_cases h with ⟨e, fault, hr⟩ | ⟨entry, found, h⟩
  · exact .inl ⟨e, fault, hr⟩
  refine .inr ⟨entry, found, ?_⟩
  rw [modify_bind_apply] at h
  -- what is left is the use of a segment, if the call made one
  by_cases leaves : m.seg ≠ caller.seg ∧ m.seg ≠ 0
  · right
    refine ⟨leaves, ?_⟩
    simp only [if_pos leaves] at h
    rcases leaveSegment_cases h with ⟨⟨e, hr⟩, absent⟩ | ⟨s, hs, resident, hr⟩
    · exact .inl ⟨⟨e, hr⟩, absent⟩
    · exact .inr ⟨s, hs, resident, hr⟩
  · simp only [if_neg leaves] at h
    exact .inl ⟨leaves, h.symm⟩

/-! ## Whole returns -/

/-- What a return does once it is back in the caller. -/
def handOver (values : List Word) (baseProcedure : Bool) : Exec Unit := do
  if baseProcedure then restoreBase
  onStore (Store.pushBlock values)
  modify fun m => if m.depth = 0 then { m with halted := true } else m

/-- What a return does last: it pushes the results, and the outermost return halts the machine. -/
theorem handOver_plain (values : List Word) : handOver values false = (do
    onStore (Store.pushBlock values)
    modify fun m => if m.depth = 0 then { m with halted := true } else m) := rfl

theorem handOver_base (values : List Word) : handOver values true = (do
    restoreBase
    handOver values false) := rfl

/-- The first words of a frame. -/
def frameWords (m : Memory) (frame : Address) (n : Nat) : Except Fault (List Word) :=
  (List.range n).mapM fun i => m.readWord (Frame.word frame (UInt16.ofNat (i + 1)))

theorem raising_of_ok {α : Type} {x : Run Machine α} {a : α} (h : x m = .ok a m') :
    (liftM x : Exec α) m = .ok a m' := by
  show raising x m = _
  unfold raising
  rw [h]

theorem raising_of_error {α : Type} {x : Run Machine α} (h : x m = .error e m') :
    (liftM x : Exec α) m = .error (.trap e) m' := by
  show raising x m = _
  unfold raising
  rw [h]

theorem endState_liftM {α : Type} (x : Run Machine α) (m : Machine) :
    endState ((liftM x : Exec α) m) = endState (x m) := by
  show endState (raising x m) = _
  unfold raising
  cases x m <;> rfl

theorem succeeded_liftM {α : Type} (x : Run Machine α) (m : Machine) :
    succeeded ((liftM x : Exec α) m) = succeeded (x m) := by
  show succeeded (raising x m) = _
  unfold raising
  cases x m <;> rfl

theorem eq_ok_of_liftM {α : Type} {x : Run Machine α} {a : α}
    (h : (liftM x : Exec α) m = .ok a m') : x m = .ok a m' := by
  cases hx : x m with
  | ok b m₁ =>
    cases (raising_of_ok hx).symm.trans h
    rfl
  | error e m₁ => cases (raising_of_error hx).symm.trans h

theorem liftM_bind_apply {α β : Type} (x : Run Machine α) (f : α → Run Machine β) (m : Machine) :
    (liftM (x >>= f) : Exec β) m = ((liftM x : Exec α) >>= fun a => liftM (f a)) m := by
  cases h : x m with
  | ok a m' =>
    rw [bind_of_ok (raising_of_ok h)]
    show raising (x >>= f) m = raising (f a) m'
    unfold raising
    rw [bind_of_ok h]
  | error e m' =>
    rw [bind_of_error (raising_of_error h)]
    exact raising_of_error (bind_of_error h)

theorem liftM_bind_of_ok {α β : Type} {x : Run Machine α} {f : α → Exec β} {a : α}
    (h : x m = .ok a m') : ((liftM x : Exec α) >>= f) m = f a m' :=
  bind_of_ok (raising_of_ok h)

theorem liftM_bind_of_error {α β : Type} {x : Run Machine α} {f : α → Exec β}
    (h : x m = .error e m') : ((liftM x : Exec α) >>= f) m = .error (.trap e) m' :=
  bind_of_error (raising_of_error h)

/-- A sequence whose first part can only raise faults ends where this part fails, or where the rest
ends. -/
theorem liftM_bind_cases {α β : Type} {x : Run Machine α} {f : α → Exec β}
    {r : EStateM.Result Stop Machine β} (h : ((liftM x : Exec α) >>= f) m = r) :
    (∃ e m', x m = .error e m' ∧ r = .error (.trap e) m') ∨ ∃ a m', x m = .ok a m' ∧ f a m' = r := by
  cases hx : x m with
  | ok a m' => exact .inr ⟨a, m', rfl, (liftM_bind_of_ok hx).symm.trans h⟩
  | error e m' => exact .inl ⟨e, m', rfl, h.symm.trans (liftM_bind_of_error hx)⟩

/-- How a return ends: in the callee, on the way back, or in the caller. -/
theorem returnFrom_cases {results : UInt8} {baseProcedure : Bool}
    {r : EStateM.Result Stop Machine Unit} (h : returnFrom results baseProcedure m = r) :
    (∃ e, r = .error (.trap e) m ∧ (readCaller m.memory m.mp = .error e ∨
      frameWords m.memory m.mp results.toNat = .error e)) ∨
    ∃ caller values, readCaller m.memory m.mp = .ok caller ∧
      frameWords m.memory m.mp results.toNat = .ok values ∧
      ((∃ e m', resume caller m = .error e m' ∧ r = .error (.trap e) m') ∨
        ∃ m₁, resume caller m = .ok () m₁ ∧ handOver values baseProcedure m₁ = r) := by
  unfold returnFrom at h
  rw [get_bind_apply] at h
  cases hc : readCaller m.memory m.mp with
  | error e =>
    exact .inl ⟨e, h.symm.trans (liftM_bind_of_error (reading_of_error hc)), .inl rfl⟩
  | ok caller =>
    replace h := (liftM_bind_of_ok (reading_of_ok hc)).symm.trans h
    cases hv : frameWords m.memory m.mp results.toNat with
    | error e =>
      refine .inl ⟨e, ?_, .inr rfl⟩
      exact h.symm.trans (liftM_bind_of_error (reading_of_error hv))
    | ok values =>
      replace h := (liftM_bind_of_ok (reading_of_ok hv)).symm.trans h
      refine .inr ⟨caller, values, rfl, rfl, ?_⟩
      cases hr : resume caller m with
      | error e m' =>
        exact .inl ⟨e, m', rfl, h.symm.trans (liftM_bind_of_error hr)⟩
      | ok u m₁ =>
        exact .inr ⟨m₁, rfl, (liftM_bind_of_ok hr).symm.trans h⟩

/-- A base register that a return accepts: one within the program stack, or none at the outermost
level. -/
def ValidBase (m : Machine) (base : Address) : Prop :=
  if base = 0 then m.depth = 0 else Heap.start ≤ base ∧ base < programTop

/-- How a pop of the machine ends. -/
theorem pop_cases (m : Machine) :
    (∃ e, pop m = .error e m ∧ (Store.top ≤ m.store.sp ∧ e = .system .stackUnderflow ∨
      m.memory.readWord m.store.sp = .error e)) ∨
    ∃ w, ¬ Store.top ≤ m.store.sp ∧ m.memory.readWord m.store.sp = .ok w ∧
      pop m = .ok w (m.withPointer (m.store.sp + 2)) := by
  unfold pop onStore
  rcases Store.pop_cases m.store with ⟨e, h, why⟩ | ⟨w, room, hw, h⟩
  · rw [h]
    exact .inl ⟨e, rfl, why⟩
  · rw [h]
    exact .inr ⟨w, room, hw, rfl⟩

/-- How the base register is restored. -/
theorem restoreBase_cases {r : EStateM.Result Stop Machine Unit} (h : restoreBase m = r) :
    (∃ e, r = .error (.trap e) m ∧ (Store.top ≤ m.store.sp ∧ e = .system .stackUnderflow ∨
      m.memory.readWord m.store.sp = .error e)) ∨
    ∃ base, ¬ Store.top ≤ m.store.sp ∧ m.memory.readWord m.store.sp = .ok base ∧
      ((m.ValidBase base ∧ r = .ok () { m.withPointer (m.store.sp + 2) with base := base }) ∨
        (¬ m.ValidBase base ∧
          r = .error (.panic (.corruptBase base)) (m.withPointer (m.store.sp + 2)))) := by
  rcases pop_cases m with ⟨e, failed, why⟩ | ⟨base, room, hw, popped⟩
  · exact .inl ⟨e, h.symm.trans (liftM_bind_of_error failed), why⟩
  · refine .inr ⟨base, room, hw, ?_⟩
    replace h := (liftM_bind_of_ok popped).symm.trans h
    rw [get_bind_apply] at h
    by_cases valid : (m.withPointer (m.store.sp + 2)).ValidBase base
    · have taken := valid
      unfold ValidBase at taken
      simp only [if_pos taken] at h
      exact .inl ⟨valid, h.symm⟩
    · have refused := valid
      unfold ValidBase at refused
      simp only [if_neg refused] at h
      exact .inr ⟨valid, h.symm⟩

/-- What restoring the base register leaves alone. -/
theorem restoreBase_rest (m : Machine) : (endState (restoreBase m)) =
    { m with
      store := { m.store with sp := (endState (restoreBase m)).store.sp }
      base := (endState (restoreBase m)).base } := by
  rcases restoreBase_cases (rfl : restoreBase m = _) with
    ⟨e, h, -⟩ | ⟨base, -, -, ⟨-, h⟩ | ⟨-, h⟩⟩
  all_goals
    rw [h]
    rfl

/-! ## Relations that returns keep -/

section Keeps

variable {R : Machine → Machine → Prop}

theorem keeps_restoreBase
    (moved : ∀ (m : Machine) (sp base : Address),
      R m { m with store := { m.store with sp := sp }, base := base }) :
    Keeps R restoreBase := by
  constructor
  intro m
  rw [restoreBase_rest]
  exact moved m _ _

/-- A relation that each stage on the way back keeps.  The stages are those of `resume_cases`. -/
theorem keeps_resume [IsPreorder Machine R] (stuck : ∀ m, R m (m.stuckAt caller))
    (back : ∀ m entry, R m (m.backAt caller entry))
    (released : ∀ m n s, n ≠ 0 → m.segments.get? n = some s → s.isResident = true →
      R m (m.afterRelease n s))
    (reclaimed : ∀ m, R m m.reclaimed) : Keeps R (resume caller) := by
  constructor
  intro m
  rcases resume_cases (rfl : resume caller m = _) with
    ⟨e, -, h⟩ | ⟨entry, -, ⟨-, h⟩ | ⟨leaves, ⟨⟨e, h⟩, -⟩ | ⟨s, hs, resident, h⟩⟩⟩
  · rw [h]
    exact stuck m
  · rw [h]
    exact IsTrans.trans _ _ _ (back m entry) (reclaimed _)
  · rw [h]
    exact back m entry
  · rw [h]
    have left := released (m.backAt caller entry) m.seg s leaves.2 hs resident
    exact IsTrans.trans _ _ _ (back m entry) (IsTrans.trans _ _ _ left (reclaimed _))

theorem keeps_handOver [IsPreorder Machine R] [Keeps R restoreBase]
    [∀ values, Keeps R (onStore (Store.pushBlock values))]
    (halted : ∀ m : Machine, R m { m with halted := true }) (values : List Word)
    (baseProcedure : Bool) : Keeps R (handOver values baseProcedure) := by
  have ended : Keeps R
      (modify fun m => if m.depth = 0 then { m with halted := true } else m : Exec PUnit) := by
    apply Keeps.modify
    intro m
    split
    · exact halted m
    · exact Std.Refl.refl m
  unfold handOver
  infer_instance

/-- What a return does before it goes back only reads. -/
theorem keeps_returnFrom [IsPreorder Machine R] [∀ caller, Keeps R (resume caller)]
    {baseProcedure : Bool} [∀ values, Keeps R (handOver values baseProcedure)] (results : UInt8) :
    Keeps R (returnFrom results baseProcedure) := by
  show Keeps R (do
    let frame := (← get).mp
    let caller ← reading (readCaller · frame)
    let values ← reading (frameWords · frame results.toNat)
    resume caller
    handOver values baseProcedure : Exec Unit)
  infer_instance

end Keeps

end Machine
end PSystem
