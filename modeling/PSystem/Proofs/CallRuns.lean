import PSystem.Proofs.Courses

/-!
# Calls along a run

A step is an instruction with what follows a fault, which is a call of the program's handler at most
(`deliver_cases`), so it takes a course too (`Tracked.course_step`).  What moves, calls and ways back
keep holds along a whole run (`Traced.preserved`).
-/

namespace PSystem

/-- A fault is delivered to the program's handler unless it stands for the end of the program or for
a breakpoint. -/
def Fault.Deliverable (fault : Fault) : Prop :=
  fault ≠ .halt ∧ ∀ line, fault ≠ .breakpoint line

namespace Machine

variable {α : Type} {m m' m₁ m₂ : Machine} {calls calls' calls₁ : List Call}

/-! ## Traps -/

/-- The stops of the machine that are not faults of the program are not delivered. -/
theorem conclude_trap {fault : Fault} (h : fault.Deliverable) (m : Machine) :
    conclude (.error (.trap fault)) m = (deliver fault >>= fun _ => modify record) m := by
  cases fault with
  | halt => exact absurd rfl h.1
  | breakpoint line => exact absurd rfl (h.2 line)
  | _ => rfl

theorem handlerCall_trap {fault : Fault} (h : fault.Deliverable) (m : Machine) :
    handlerCall m (.trap fault) = if succeeded (deliver fault m) then
      callMade 0 handlerProcedure (m.announced fault) else none := by
  cases fault with
  | halt => exact absurd rfl h.1
  | breakpoint line => exact absurd rfl (h.2 line)
  | _ => rfl

/-- How the delivery of a fault ends. -/
theorem deliver_cases (fault : Fault) (m : Machine) :
    (m.trapDepth.isSome = true ∧ deliver fault m = .error (.panic (.whileHandling fault)) m) ∨
    (m.trapDepth = none ∧ (m.config.deliverTraps = false ∨ m.hasHandler = false) ∧
      deliver fault m = .error (.trap fault) m) ∨
    (m.trapDepth = none ∧ m.config.deliverTraps = true ∧ m.hasHandler = true ∧
      ((∃ e m₁, onMemory (Syscom.recordTrap fault m.currentAddress m.mp) m = .error e m₁ ∧
          deliver fault m = .error (.trap e) m₁) ∨
        ((∃ m₁, onMemory (Syscom.recordTrap fault m.currentAddress m.mp) m = .ok () m₁) ∧
          deliver fault m = match call 0 handlerProcedure (m.announced fault) with
            | .ok _ m' => .ok () m'
            | .error e m' => .error (.trap e) m'))) := by
  unfold deliver
  rw [get_bind_apply]
  cases handling : m.trapDepth with
  | some d => exact .inl ⟨rfl, rfl⟩
  | none =>
    right
    by_cases taken : m.config.deliverTraps = true ∧ m.hasHandler = true
    · right
      refine ⟨rfl, taken.1, taken.2, ?_⟩
      simp only [Option.isSome_none, Bool.false_eq_true, if_false, taken.1, taken.2, Bool.not_true,
        Bool.or_self]
      cases recorded : onMemory (Syscom.recordTrap fault m.currentAddress m.mp) m with
      | error e m₁ => exact .inl ⟨e, m₁, rfl, liftM_bind_of_error recorded⟩
      | ok u m₁ =>
        refine .inr ⟨⟨m₁, rfl⟩, (liftM_bind_of_ok recorded).trans ?_⟩
        rw [modify_bind_apply]
        -- recording the trap writes to memory only, so the depth noted is the one from before
        have announced : m.announced fault = { m₁ with trapDepth := some m₁.depth } := by
          obtain ⟨memory, -, eq⟩ := onMemory_eq_ok.1 recorded
          unfold Machine.announced
          rw [recorded]
          show { m₁ with trapDepth := some m.depth } = _
          rw [eq]
          rfl
        rw [announced, bind_apply]
        cases called : call 0 handlerProcedure { m₁ with trapDepth := some m₁.depth } with
        | ok kind m₂ => rw [raising_of_ok called]; rfl
        | error e m₂ => rw [raising_of_error called]
    · left
      rw [not_and_or, Bool.not_eq_true, Bool.not_eq_true] at taken
      refine ⟨rfl, taken, ?_⟩
      rcases taken with off | missing
      · simp only [Option.isSome_none, Bool.false_eq_true, if_false, off, Bool.not_false,
          Bool.true_or, if_true]
        rfl
      · simp only [Option.isSome_none, Bool.false_eq_true, if_false, missing, Bool.not_false,
          Bool.or_true, if_true]
        rfl

theorem Noted.trans (h : Noted m m₁) (h' : Noted m₁ m₂) : Noted m m₂ := by
  unfold Noted at h h' ⊢
  rw [h] at h'
  exact h'

theorem noted_record (m : Machine) : Noted m m.record := by
  rw [record_eq]
  rfl

theorem Ends.noted {entered : Bool} (h : Ends entered m calls m₁ calls') (noted : Noted m₁ m₂) :
    Ends entered m calls m₂ calls' := by
  cases h with
  | stays moves => exact .stays (moves.step (.note noted))
  | enters moves made standing noted' => exact .enters moves made standing (noted'.trans noted)

theorem Reaches.noted {ε : Type} {a : α} (h : Reaches m calls (.ok a m₁ : EStateM.Result ε _ _) calls')
    (noted : Noted m₁ m₂) : Reaches m calls (.ok a m₂ : EStateM.Result ε _ _) calls' := by
  obtain ⟨entered, ok, ends⟩ := h
  exact ⟨entered, ok, ends.noted noted⟩

theorem Course.noted {returning : Option Bool} (h : Course m calls (.ok () m₁) calls' returning)
    (noted : Noted m₁ m₂) : Course m calls (.ok () m₂) calls' returning := by
  cases h with
  | goesOn ok ends => exact .goesOn ok (ends.noted noted)
  | goesBack moves memory back panics ok ends =>
    refine .goesBack moves memory back ?_ ok (ends.noted noted)
    intro cause s base panic
    obtain ⟨s', eq⟩ := panics cause s base panic
    cases eq

/-- What follows a stop, which comes from no call. -/
theorem Course.follow {stop : Stop} {r : EStateM.Result Stop Machine Unit}
    {returning : Option Bool} (h : Course m calls (.error stop m₁) calls₁ returning)
    (rest : Reaches m₁ calls₁ r calls')
    (panics : ∀ cause, stop = .panic cause → ∃ s, r = .error (.panic cause) s) :
    Course m calls r calls' returning := by
  obtain ⟨entered, ok, ends⟩ := rest
  cases h with
  | goesOn ok' ends' =>
    cases ends' with
    | stays moves => exact .goesOn ok (ends.after moves)
    | enters => cases ok' rfl
  | goesBack moves memory back panics' ok' ends' =>
    cases ends' with
    | stays moves' =>
      refine .goesBack moves memory back ?_ ok (ends.after moves')
      intro cause s base panic
      obtain ⟨s', eq⟩ := panics' cause s base panic
      cases eq
      exact panics cause rfl
    | enters => cases ok' rfl

/-- What is recorded of a fault lies below all frames. -/
theorem Tracked.move_recordTrap (h : Tracked m calls) (fault : Fault) :
    Move m calls (endState (onMemory (Syscom.recordTrap fault m.currentAddress m.mp) m)) calls := by
  have works : Works m _ := (works_onMemory (Syscom.recordTrap fault m.currentAddress m.mp)).related m
  have beside := (beside_recordTrap fault m.currentAddress m.mp).related m
  have balances : Keeps Balances (onMemory (Syscom.recordTrap fault m.currentAddress m.mp)) :=
    inferInstance
  exact .work works (h.standing.upright.headers_beside beside.bytes) (balances.related m h.standing).1

theorem Tracked.moves_announced (h : Tracked m calls) (fault : Fault) :
    Moves m calls (m.announced fault) calls :=
  (Moves.one (h.move_recordTrap fault)).step (.note rfl)

/-- A delivery that comes to the call of the handler ends as this call does. -/
theorem deliver_handed {fault : Fault}
    (h : deliver fault m = match call 0 handlerProcedure (m.announced fault) with
      | .ok _ m' => .ok () m'
      | .error e m' => .error (.trap e) m') :
    endState (deliver fault m) = endState (call 0 handlerProcedure (m.announced fault)) ∧
    succeeded (deliver fault m) = succeeded (call 0 handlerProcedure (m.announced fault)) ∧
    (if succeeded (deliver fault m) then callMade 0 handlerProcedure (m.announced fault) else none) =
      callMade 0 handlerProcedure (m.announced fault) := by
  rw [h]
  unfold callMade
  cases call 0 handlerProcedure (m.announced fault) <;> exact ⟨rfl, rfl, rfl⟩

theorem Tracked.reaches_deliver (h : Tracked m calls) (fault : Fault) :
    Reaches m calls (deliver fault m) ((if succeeded (deliver fault m) then
      callMade 0 handlerProcedure (m.announced fault) else none).toList ++ calls) := by
  rcases deliver_cases fault m with
    ⟨-, eq⟩ | ⟨-, -, eq⟩ | ⟨-, -, -, ⟨e, m₁, recorded, eq⟩ | ⟨⟨m₁, recorded⟩, eq⟩⟩
  · rw [eq]
    exact (Moves.refl m calls).reaches
  · rw [eq]
    exact (Moves.refl m calls).reaches
  · have recording := h.move_recordTrap fault
    rw [recorded] at recording
    rw [eq]
    exact (Moves.one recording).reaches
  · have announcing := h.moves_announced fault
    have there := h.moves announcing
    -- no procedure of the host has the number of the handler
    have called : Reaches (m.announced fault) calls
        (call 0 handlerProcedure (m.announced fault))
        ((callMade 0 handlerProcedure (m.announced fault)).toList ++ calls) := there.reaches_call
      (fun host => by
        rw [call_unbound there.standing.secure.hosted host (by decide)]
        exact fun _ _ _ _ => rfl)
      (balances_callHandler.related _ there.standing).1
    obtain ⟨state, ok, noted⟩ := deliver_handed eq
    rw [noted]
    exact (called.congr state ok).after announcing

theorem Tracked.reaches_conclude (h : Tracked m calls) (stop : Stop) :
    Reaches m calls (conclude (.error stop) m) ((handlerCall m stop).toList ++ calls) := by
  have recorded : Reaches m calls (.ok () m.record : EStateM.Result Stop _ _) calls :=
    (Moves.one (.note (noted_record m))).reaches
  cases stop with
  | panic cause => exact (Moves.refl m calls).reaches
  | boot failure => exact (Moves.refl m calls).reaches
  | endless => exact (Moves.refl m calls).reaches
  | trap fault =>
    -- only a fault that stands for no end and no breakpoint comes to the handler
    by_cases deliverable : fault.Deliverable
    · have delivered := h.reaches_deliver fault
      rw [conclude_trap deliverable, handlerCall_trap deliverable]
      rcases bind_cases (rfl : (deliver fault >>= fun _ => modify record) m = _) with
        ⟨e, m₁, failed, hr⟩ | ⟨u, m₁, done, hr⟩
      · rw [failed] at delivered ⊢
        rw [hr]
        exact delivered
      · rw [done] at delivered ⊢
        rw [← hr]
        exact delivered.noted (noted_record m₁)
    · cases fault with
      | halt =>
        have halted : Noted m { m with halted := true } := rfl
        exact (Moves.one (.note (halted.trans (noted_record _)))).reaches
      | breakpoint line => exact (Moves.one (.note (noted_record m))).reaches
      | _ => exact absurd ⟨nofun, nofun⟩ deliverable

/-! ## Steps -/

/-- The way in which a step gets back to the caller. -/
def returning (m : Machine) : Option Bool :=
  if m.halted then none else m.prepare.returningNext

theorem Tracked.course_step (h : Tracked m calls) (kept : m.LeavesHeaders)
    (spare : ∀ s, s ≠ 0 →
      Activation.entries s m.activations + tally .relseg m.performedIn s ≤ m.useCount s) :
    Course m calls (step m) (m.callsAfter calls) m.returning := by
  unfold step callsAfter returning
  unfold performedIn at spare
  by_cases halted : m.halted = true
  · simp only [if_pos halted]
    exact (Moves.refl m calls).reaches.course
  · simp only [if_neg halted] at spare ⊢
    have headers := kept (by simpa using halted)
    have preparing : Noted m m.prepare := rfl
    have prepared := h.move (.note preparing)
    have executed := prepared.course_executeNext headers
      (tallies_executeNext prepared.standing headers spare).1
    refine Course.after (.one (.note preparing)) rfl ?_
    cases hx : executeNext m.prepare with
    | ok u m₁ =>
      rw [hx] at executed
      have counted : Noted m₁ { m₁ with instructions := m₁.instructions + 1 } := rfl
      exact executed.noted (counted.trans (noted_record _))
    | error stop m₁ =>
      rw [hx] at executed
      have counted : Noted m₁ { m₁ with instructions := m₁.instructions + 1 } := rfl
      -- the handler is called in the state that the failed instruction left
      have tracked₁ : Tracked m₁ (m.prepare.callsNext calls) := by
        have keeps : Preserved fun _ _ => True := ⟨fun _ _ _ _ => trivial, fun _ _ _ _ => trivial,
          fun _ _ _ _ => trivial⟩
        exact (keeps.course prepared trivial executed).1
      have concluded := (tracked₁.move (.note counted)).reaches_conclude stop
      refine executed.follow (concluded.after (.one (.note counted))) ?_
      rintro cause rfl
      exact ⟨_, rfl⟩

/-! ## Runs -/

theorem tracked_of_loaded {fresh : Machine} (hfresh : fresh.Fresh) (loaded : Loaded fresh m)
    (hosted : ∀ b ∈ fresh.bound, Keeps Store.Works b.run) : Tracked m [] := by
  obtain ⟨standing, none, -⟩ := standing_of_loaded hfresh loaded
  refine
    { standing := standing, start := fun part p placed => (loaded.read part p placed).1
      actives := none.symm, headers := ?_, told := ?_, hosted := ?_ }
  · intro c hc
    cases hc
  · intro c hc
    cases hc
  · rw [loaded.rest]
    exact hosted

theorem hosted_create (storage : Storage) (console : Console) (config : Config) (host : HostView)
    (limit : Option Nat) :
    ∀ b ∈ (create storage console config host limit).bound, Keeps Store.Works b.run := by
  intro b hb
  have only : b = { segment := "DECOPS", procedure := 1, run := Decimal.execute } := by
    simpa [create] using hb
  rw [only]
  exact Decimal.works_execute

/-- A boot calls the first procedure once the system is loaded. -/
theorem ends_of_boot {unit : Word} {file : String} {fresh loaded : Machine} (hfresh : fresh.Fresh)
    (hosted : ∀ b ∈ fresh.bound, Keeps Store.Works b.run) (fits : SystemFits fresh unit file)
    (loading : loadSystem unit file fresh = .ok () loaded)
    (booted : boot unit file fresh = .ok () m) :
    Loaded fresh loaded ∧ Tracked loaded [] ∧
      ∃ entered, Ends entered loaded [] m (callMade 0 1 loaded).toList := by
  obtain ⟨m₁, kind, m₂, loading', there, called, rfl⟩ := loaded_of_boot hfresh fits booted
  cases loading.symm.trans loading'
  have tracked := tracked_of_loaded hfresh there hosted
  -- no frame is active yet that the first call could touch
  have host : loaded.HeadersIn (endState (call 0 1 loaded)).memory := by
    intro a ha
    rw [(standing_of_loaded hfresh there).2.1] at ha
    cases ha
  have reached := tracked.reaches_call (fun _ => host)
    (balances_call (.inr rfl) (fun _ => host) tracked.standing).1
  rw [called, List.append_nil] at reached
  obtain ⟨entered, -, ends⟩ := reached.noted (noted_record m₂)
  exact ⟨there, tracked, entered, ends⟩

/-- What holds before the first call and is kept holds along a run. -/
theorem Traced.preserved {rule I : Machine → List Call → Prop} {got given : UInt8 → Nat}
    (h : Preserved I)
    (start : ∀ {fresh loaded : Machine}, fresh.Fresh → Loaded fresh loaded → I loaded [])
    (run : Traced rule m calls got given) : Tracked m calls ∧ I m calls := by
  induction run with
  | boot fits loading booted =>
    obtain ⟨loaded, tracked, entered, ends⟩ := ends_of_boot (fresh_create _ _ _ _ _)
      (hosted_create _ _ _ _ _) fits loading booted
    exact h.ends tracked (start (fresh_create _ _ _ _ _) loaded) ends
  | step run kept owned _ ih =>
    have balanced := balanced_of_counted run.counted
    exact h.course ih.1 ih.2 (ih.1.course_step kept (balanced.spare owned))
  | observe host _ ih =>
    have after := ih.1.move (.observe host)
    exact ⟨after, h.move ih.1 after (.observe host) ih.2⟩

theorem Traced.tracked {rule : Machine → List Call → Prop} {got given : UInt8 → Nat}
    (run : Traced rule m calls got given) : Tracked m calls := by
  have nothing : Preserved fun _ _ => True :=
    ⟨fun _ _ _ _ => trivial, fun _ _ _ _ => trivial, fun _ _ _ _ => trivial⟩
  exact (run.preserved nothing fun _ _ => trivial).1

/-! ## Runs of a small system -/

/-- A small system before its first procedure is called. -/
def unstarted (segments : List SegmentSpec) : Machine :=
  endState (loadSystem 4 "SYSTEM" (holding segments))

theorem loadSystem_of_boots {fresh : Machine} (h : boots fresh = true) :
    loadSystem 4 "SYSTEM" fresh = .ok () (endState (loadSystem 4 "SYSTEM" fresh)) := by
  have stages := (boot_of_boots h).2
  rw [boot_eq] at stages
  obtain ⟨u, m, loading, -⟩ := bind_eq_ok.1 stages
  rw [loading]
  rfl

theorem traced_boots (rule : Machine → List Call → Prop) {storage : Storage} {fresh : Machine}
    (made : fresh = create storage default default default none) (h : boots fresh = true) :
    Traced rule (endState (boot 4 "SYSTEM" fresh))
      (callMade 0 1 (endState (loadSystem 4 "SYSTEM" fresh))).toList (fun _ => 0) (fun _ => 0) := by
  obtain ⟨fits, booted⟩ := boot_of_boots h
  have loading := loadSystem_of_boots h
  subst made
  exact .boot fits loading booted

theorem traced_started {segments : List SegmentSpec} (rule : Machine → List Call → Prop)
    (h : starts segments = true) :
    Traced rule (started segments) (callMade 0 1 (unstarted segments)).toList (fun _ => 0)
      (fun _ => 0) :=
  traced_boots rule rfl h

/-- A step that keeps to the rules by itself: it leaves the headers of active frames as they are, and
releases no segment. -/
def obeys (m : Machine) : Bool :=
  keepsHeaders m && match m.performedIn with
    | some (.relseg, _) => false
    | _ => true

/-- Whether the next steps all keep to the rules by themselves, and to another rule. -/
def obeysFor (rule : Machine → List Call → Bool) : Nat → Machine → List Call → Bool
  | 0, _, _ => true
  | n + 1, m, calls =>
    obeys m && rule m calls && obeysFor rule n (endState (step m)) (m.callsAfter calls)

/-- A machine and its calls after some steps. -/
def trace : Nat → Machine → List Call → Machine × List Call
  | 0, m, calls => (m, calls)
  | n + 1, m, calls => trace n (endState (step m)) (m.callsAfter calls)

theorem Traced.steps {rule : Machine → List Call → Prop} {check : Machine → List Call → Bool}
    (sound : ∀ m calls, check m calls = true → rule m calls) {n : Nat} {got given : UInt8 → Nat}
    (run : Traced rule m calls got given) (owned : ∀ s, given s ≤ got s)
    (h : obeysFor check n m calls = true) :
    ∃ got given, Traced rule (trace n m calls).1 (trace n m calls).2 got given := by
  induction n generalizing m calls got given with
  | zero => exact ⟨got, given, run⟩
  | succ n ih =>
    unfold obeysFor obeys at h
    simp only [Bool.and_eq_true] at h
    obtain ⟨⟨⟨headers, nothing⟩, checked⟩, rest⟩ := h
    have unreleased (s : UInt8) : tally .relseg m.performedIn s = 0 := by
      unfold tally
      refine if_neg fun releases => ?_
      rw [releases] at nothing
      cases nothing
    have more (s : UInt8) : given s + tally .relseg m.performedIn s ≤
        got s + tally .getseg m.performedIn s := by
      rw [unreleased]
      exact Nat.le_trans (owned s) (Nat.le_add_right _ _)
    exact ih (run.step (leavesHeaders_of_keepsHeaders headers) (fun s _ => more s)
      (sound m calls checked)) more rest

end Machine
end PSystem
