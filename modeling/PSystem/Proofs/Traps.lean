import PSystem.Proofs.Delivery

/-!
# Traps

A fault is handed to the program's handler unless a handler is active already.  A run is watched from
outside (`Trapped`): the depths at which handlers were called that the depth has not dropped back to
since.  What the machine notes of a delivered trap agrees with that list whenever an instruction
starts (`Watched.noted`), so at most one handler is active at a time, and a fault is delivered,
refused or fatal just as the list says (`trap_nesting`).
-/

namespace PSystem
namespace Machine

variable {α : Type} {m m' raised : Machine} {fault : Fault}

/-! ## What steps keep -/

/-- A grounded machine stays so, and what the host chose does not change. -/
def Endures (m m' : Machine) : Prop :=
  m.Grounded → m'.Grounded ∧ m'.config = m.config

instance : IsPreorder Machine Endures where
  refl _ grounded := ⟨grounded, rfl⟩
  trans _ _ _ h h' grounded := by
    obtain ⟨grounded', config⟩ := h grounded
    obtain ⟨grounded'', config'⟩ := h' grounded'
    exact ⟨grounded'', config'.trans config⟩

instance (priority := low) endures_of_retreats {ε : Type} (x : EStateM ε Machine α)
    [h : Retreats x] : Keeps Endures x := by
  constructor
  intro m grounded
  obtain ⟨grounded', unmoved, -⟩ := h.ends m grounded
  exact ⟨grounded', unmoved.config⟩

/-- Changes of what the machine notes about its own execution. -/
theorem Noted.endures (h : Noted m m') : Endures m m' := by
  intro grounded
  have memory : m'.memory = m.memory := by
    rw [h]
    rfl
  refine ⟨grounded.of_same memory ?_ ?_ ?_ ?_, ?_⟩
  all_goals rw [h]

instance endures_deliver (fault : Fault) : Keeps Endures (deliver fault) := by
  have noted (depth : Machine → Option Nat) :
      Keeps Endures (modify fun m => { m with trapDepth := depth m } : Exec PUnit) :=
    Keeps.modify fun m => Noted.endures (rfl : Noted m { m with trapDepth := depth m })
  unfold deliver
  infer_instance

instance endures_conclude (outcome : Except Stop Unit) : Keeps Endures (conclude outcome) := by
  have recorded : Keeps Endures (modify record : Exec PUnit) :=
    Keeps.modify fun m => (noted_record m).endures
  have halted : Keeps Endures (modify fun m => { m with halted := true }.record : Exec PUnit) :=
    Keeps.modify fun m =>
      have halting : Noted m { m with halted := true } := rfl
      (halting.trans (noted_record _)).endures
  unfold conclude
  split <;> infer_instance

/-- The machine after the work of an instruction, which is counted whatever its outcome. -/
def counted (m : Machine) : Machine :=
  { m with instructions := m.instructions + 1 }

theorem step_of_ok (running : m.halted = false) (h : executeNext m.prepare = .ok () m') :
    step m = .ok () m'.counted.record := by
  unfold step
  rw [running, h]
  rfl

theorem step_of_error {stop : Stop} (running : m.halted = false)
    (h : executeNext m.prepare = .error stop m') : step m = conclude (.error stop) m'.counted := by
  unfold step
  rw [running, h]
  rfl

/-- What the work of an instruction leaves behind. -/
theorem Grounded.executed (h : m.Grounded) {r : EStateM.Result Stop Machine Unit}
    (hr : executeNext m.prepare = r) : (endState r).counted.Grounded ∧
      (endState r).trapDepth = m.prepare.trapDepth ∧ (endState r).config = m.config ∧
      (endState r).currentAddress = m.nextAddress ∧
      (succeeded r = false → (endState r).depth ≤ m.depth) := by
  subst hr
  have prepared : m.prepare.Grounded := h.of_same rfl rfl rfl rfl rfl
  obtain ⟨grounded, unmoved, low⟩ := retreats_executeNext.ends m.prepare prepared
  exact ⟨grounded.of_same rfl rfl rfl rfl rfl, unmoved.trapDepth, unmoved.config,
    unmoved.currentAddress, low⟩

theorem endures_step (m : Machine) : Endures m (endState (step m)) := by
  intro grounded
  cases running : m.halted with
  | true =>
    unfold step
    rw [running]
    exact ⟨grounded, rfl⟩
  | false =>
    cases hx : executeNext m.prepare with
    | ok u m' =>
      obtain ⟨grounded', -, config, -⟩ := grounded.executed hx
      rw [step_of_ok running hx]
      obtain ⟨grounded'', config'⟩ := (noted_record m'.counted).endures grounded'
      exact ⟨grounded'', config'.trans config⟩
    -- What stops an instruction has left the machine grounded, and concluding keeps it so.
    | error stop m' =>
      obtain ⟨grounded', -, config, -⟩ := grounded.executed hx
      rw [step_of_error running hx]
      have concluded : Endures m'.counted (endState (conclude (.error stop) m'.counted)) :=
        Keeps.related _
      obtain ⟨grounded'', config'⟩ := concluded grounded'
      exact ⟨grounded'', config'.trans config⟩

/-! ## Watching a run -/

/-- Whether the handler is called for a stop. -/
def handles (m : Machine) : Stop → Bool
  | .trap .halt | .trap (.breakpoint _) => false
  | .trap fault => succeeded (deliver fault m)
  | _ => false

/-- The depth at which the next step calls the handler, if it does. -/
def deliveryDepth (m : Machine) : Option Nat :=
  if m.halted then none
  else
    match executeNext m.prepare with
    | .ok _ _ => none
    | .error stop m' => if handles m'.counted stop then some m'.depth else none

/-- The depths at which the active handlers were called, after the next step.  A handler is active
until the depth has dropped back to the one at which it was called: when the next one is called, or
when the step has ended. -/
def liveAfter (m : Machine) (live : List Nat) : List Nat :=
  let called := match m.deliveryDepth with
    | some d => d :: live.filter (· < d)
    | none => live
  called.filter (· < (endState (step m)).depth)

/-- The machines that one boot and any number of steps lead to, with the depths at which the handlers
were called that are active.  Any procedures may be bound to the host. -/
inductive Trapped (config : Config) : Machine → List Nat → Prop
  | boot {storage : Storage} {console : Console} {host : HostView} {limit : Option Nat}
      {bound : List BoundProcedure} {unit : Word} {file : String} {m : Machine} :
      (∀ b ∈ bound, Keeps Store.Quiet b.run) →
      boot unit file ((create storage console config host limit).withBound bound) = .ok () m →
      Trapped config m []
  | step {m : Machine} {live : List Nat} :
      Trapped config m live → Trapped config (endState (step m)) (m.liveAfter live)
  /-- Between two steps the host may show something else. -/
  | observe {m : Machine} {live : List Nat} (host : HostView) :
      Trapped config m live → Trapped config (m.observe host) live

/-- A machine whose next instruction raises a fault that a handler may take. -/
structure Raises (m : Machine) (fault : Fault) (raised : Machine) : Prop where
  running : m.halted = false
  deliverable : fault.Deliverable
  stopped : ∃ m', executeNext m.prepare = .error (.trap fault) m' ∧ raised = m'.counted

/-- A trap is forgotten once the depth has dropped back. -/
theorem prepare_trapDepth (m : Machine) :
    m.prepare.trapDepth = m.trapDepth.filter (· < m.depth) := by
  unfold prepare
  cases m.trapDepth with
  | none => rfl
  | some d =>
    by_cases back : m.depth ≤ d
    · have handled : ¬ d < m.depth := Nat.not_lt.2 back
      simp [Option.filter, back, handled]
    · have active : d < m.depth := Nat.not_le.1 back
      simp [Option.filter, back, active]

theorem Raises.step_eq (h : Raises m fault raised) :
    step m = (deliver fault >>= fun _ => modify record) raised := by
  obtain ⟨m', stopped, rfl⟩ := h.stopped
  rw [step_of_error h.running stopped, conclude_trap h.deliverable]

/-- The handler is called for a fault if the step that raises it succeeds. -/
theorem Raises.deliveryDepth_eq (h : Raises m fault raised) : m.deliveryDepth =
    if succeeded (step m) then some raised.depth else none := by
  have handled : handles raised (.trap fault) = succeeded (step m) := by
    have deliverable := h.deliverable
    have same : succeeded ((deliver fault >>= fun _ => modify record) raised) =
        succeeded (deliver fault raised) := by
      rw [bind_apply]
      cases deliver fault raised <;> rfl
    rw [h.step_eq, same]
    cases fault with
    | halt => exact absurd rfl deliverable.1
    | breakpoint line => exact absurd rfl (deliverable.2 line)
    | _ => rfl
  obtain ⟨m', stopped, rfl⟩ := h.stopped
  unfold deliveryDepth
  rw [h.running, stopped, ← handled]
  rfl

/-- A stop that no handler takes calls none and leaves the notes of a trap alone. -/
theorem conclude_refused {stop : Stop} (refused : ∀ fault, stop = .trap fault → ¬ fault.Deliverable)
    (m : Machine) :
    handles m stop = false ∧ (endState (conclude (.error stop) m)).trapDepth = m.trapDepth := by
  cases stop with
  | panic cause => exact ⟨rfl, rfl⟩
  | boot failure => exact ⟨rfl, rfl⟩
  | endless => exact ⟨rfl, rfl⟩
  | trap fault =>
    cases fault with
    | halt => exact ⟨rfl, record_trapDepth { m with halted := true }⟩
    | breakpoint line => exact ⟨rfl, record_trapDepth m⟩
    | _ => exact absurd ⟨nofun, nofun⟩ (refused _ rfl)

/-- A step that raises no fault leaves the notes of a trap alone. -/
theorem Grounded.step_quiet (h : m.Grounded) (quiet : ∀ fault raised, ¬ Raises m fault raised) :
    m.deliveryDepth = none ∧ (endState (Machine.step m)).prepare.trapDepth =
      m.prepare.trapDepth.filter (· < (endState (Machine.step m)).depth) := by
  rw [prepare_trapDepth (endState (Machine.step m))]
  unfold deliveryDepth
  -- Only a fault that is raised can be delivered, and there is none.
  cases running : m.halted with
  | true =>
    have stays : Machine.step m = .ok () m := by
      unfold Machine.step
      rw [running]
      rfl
    rw [stays, endState_ok, prepare_trapDepth m, Option.filter_filter]
    refine ⟨rfl, ?_⟩
    simp only [Bool.and_self]
  | false =>
    cases hx : executeNext m.prepare with
    | ok u m' =>
      have kept : m'.trapDepth = m.prepare.trapDepth := (h.executed hx).2.1
      rw [step_of_ok running hx, endState_ok, record_trapDepth]
      exact ⟨rfl, congrArg _ kept⟩
    | error stop m' =>
      have kept : m'.trapDepth = m.prepare.trapDepth := (h.executed hx).2.1
      obtain ⟨unhandled, noted⟩ := conclude_refused (fun fault eq deliverable =>
        quiet fault m'.counted ⟨running, deliverable, m', eq ▸ hx, rfl⟩) m'.counted
      rw [step_of_error running hx, noted]
      refine ⟨?_, congrArg _ kept⟩
      simp only [Bool.false_eq_true, if_false, unhandled]

/-- The machine on which a fault was raised. -/
theorem Raises.found (h : Raises m fault raised) (grounded : m.Grounded) : raised.Grounded ∧
    raised.trapDepth = m.prepare.trapDepth ∧ raised.config = m.config ∧
    raised.currentAddress = m.nextAddress ∧ raised.depth ≤ m.depth := by
  obtain ⟨m', stopped, rfl⟩ := h.stopped
  obtain ⟨grounded', noted, config, address, low⟩ := grounded.executed stopped
  exact ⟨grounded', noted, config, address, low rfl⟩

/-! ## The notes of a trap -/

/-- The invariant of a watched run: the notes of a trap, as the next instruction finds them, are of
the active handler. -/
structure Watched (config : Config) (m : Machine) (live : List Nat) : Prop where
  grounded : m.Grounded
  config : m.config = config
  noted : live = m.prepare.trapDepth.toList

variable {config : Config} {live : List Nat}

theorem watched_of_boot {unit : Word} {file : String} {fresh : Machine} (h : fresh.Unstarted)
    (chosen : fresh.config = config) (idle : fresh.trapDepth = none)
    (booted : boot unit file fresh = .ok () m) : Watched config m [] := by
  obtain ⟨grounded, unmoved⟩ := grounded_of_boot h booted
  refine ⟨grounded, unmoved.config.trans chosen, ?_⟩
  rw [prepare_trapDepth, unmoved.trapDepth, idle]
  rfl

theorem Watched.live_toList (h : Watched config m live) (depth : Nat) :
    live.filter (· < depth) = (m.prepare.trapDepth.filter (· < depth)).toList := by
  rw [h.noted, Option.toList_filter]

/-- A handler is called only if none is active. -/
theorem Watched.step (h : Watched config m live) :
    Watched config (endState (step m)) (m.liveAfter live) := by
  obtain ⟨grounded, config'⟩ := endures_step m h.grounded
  refine ⟨grounded, config'.trans h.config, ?_⟩
  unfold liveAfter
  by_cases raises : ∃ fault raised, Raises m fault raised
  · obtain ⟨fault, raised, raises⟩ := raises
    obtain ⟨grounded', noted, -, -, -⟩ := raises.found h.grounded
    rw [raises.deliveryDepth_eq, raises.step_eq, prepare_trapDepth (endState _)]
    rcases grounded'.delivery_cases fault with
      ⟨-, eq⟩ | ⟨idle, ⟨-, eq⟩ | ⟨e, m', -, eq, depth, late⟩ | ⟨kind, m', eq, late, -⟩⟩
    · rw [eq, endState_error, noted]
      exact h.live_toList raised.depth
    · rw [eq, endState_error, noted]
      exact h.live_toList raised.depth
    · -- the call of the handler failed, so the trap is over when the next instruction starts
      rw [eq, endState_error, late, depth, h.noted, ← noted, idle]
      simp [succeeded, Option.filter]
    · -- the trap is over at once if the host ran the handler
      have none_ : live = [] := by rw [h.noted, ← noted, idle, Option.toList_none]
      rw [eq, endState_ok, late, none_, Option.toList_filter]
      rfl
  · obtain ⟨uncalled, noted⟩ := h.grounded.step_quiet fun fault raised raised' =>
      raises ⟨fault, raised, raised'⟩
    rw [uncalled, noted]
    exact h.live_toList _

theorem Trapped.watched (run : Trapped config m live) : Watched config m live := by
  induction run with
  | boot quiet booted => exact watched_of_boot (unstarted_create _ _ _ _ _ quiet) rfl rfl booted
  | step _ ih => exact ih.step
  | observe host _ ih => exact ⟨ih.grounded.observe host, ih.config, ih.noted⟩

theorem Watched.live_eq_nil (h : Watched config m live) :
    live = [] ↔ m.prepare.trapDepth = none := by
  rw [h.noted, Option.toList_eq_nil_iff]

/-- While a handler is active none is called, and it is active until the depth has dropped back. -/
theorem Watched.liveAfter_eq (h : Watched config m live) {d : Nat} (active : d ∈ live) :
    d < m.depth ∧
      m.liveAfter live = if (endState (Machine.step m)).depth ≤ d then [] else live := by
  have noted : m.prepare.trapDepth = some d := by
    rw [h.noted] at active
    exact Option.mem_toList.1 active
  have single : live = [d] := by
    rw [h.noted, noted]
    rfl
  -- While a handler runs no fault is delivered: it panics instead.
  have uncalled : m.deliveryDepth = none := by
    by_cases raises : ∃ fault raised, Raises m fault raised
    · obtain ⟨fault, raised, raises⟩ := raises
      obtain ⟨grounded', noted', -⟩ := raises.found h.grounded
      rw [raises.deliveryDepth_eq, raises.step_eq]
      rcases grounded'.delivery_cases fault with ⟨-, eq⟩ | ⟨idle, -⟩
      · rw [eq]
        rfl
      · rw [noted', noted] at idle
        cases idle
    · exact (h.grounded.step_quiet fun fault raised raised' => raises ⟨fault, raised, raised'⟩).1
  refine ⟨?_, ?_⟩
  · rw [prepare_trapDepth, Option.filter_eq_some_iff] at noted
    exact of_decide_eq_true noted.2
  · unfold liveAfter
    rw [uncalled, single]
    by_cases back : (endState (Machine.step m)).depth ≤ d
    · have handled : ¬ d < (endState (Machine.step m)).depth := Nat.not_lt.2 back
      simp [back, handled]
    · have still : d < (endState (Machine.step m)).depth := Nat.not_le.1 back
      simp [back, still]

/-! ## Small runs -/

/-- A machine and its active handlers after some steps. -/
def watch : Nat → Machine → List Nat → Machine × List Nat
  | 0, m, live => (m, live)
  | n + 1, m, live => watch n (endState (step m)) (m.liveAfter live)

theorem Trapped.steps (run : Trapped config m live) (n : Nat) :
    Trapped config (watch n m live).1 (watch n m live).2 := by
  induction n generalizing m live with
  | zero => exact run
  | succ n ih => exact ih run.step

/-- A small system that runs for some steps. -/
def watchedFor (n : Nat) (segments : List SegmentSpec) : Machine × List Nat :=
  watch n (started segments) []

theorem trapped_watched {segments : List SegmentSpec} (n : Nat) (h : starts segments = true) :
    Trapped default (watchedFor n segments).1 (watchedFor n segments).2 := by
  have booted := (boot_of_starts h).2
  obtain ⟨storage, created⟩ : ∃ storage,
      holding segments = create storage default default default none := ⟨_, rfl⟩
  have bound : create storage default default default none =
      (create storage default default default none).withBound
        (create storage default default default none).bound := rfl
  rw [created, bound] at booted
  have hosted := (fresh_create storage default default default none).hosted
  exact (Trapped.boot hosted.quietly booted).steps n

/-- The stop of a computation that does not succeed. -/
def stopOf : EStateM.Result Stop Machine Unit → Option Stop
  | .ok _ _ => none
  | .error stop _ => some stop

theorem raises_of_stop {r : EStateM.Result Stop Machine Unit} (running : m.halted = false)
    (deliverable : fault.Deliverable) (hr : executeNext m.prepare = r)
    (stopped : stopOf r = some (.trap fault)) : Raises m fault (endState r).counted := by
  cases r with
  | ok u m' => cases stopped
  | error stop m' =>
    cases stopped
    exact ⟨running, deliverable, m', hr, rfl⟩

/-! ## Traps nest -/

/-- At most one handler is active at a time.  A fault that is raised while one is active is fatal, and
no frame is made; any other fault is handed to the handler, unless there is none or its call fails. -/
theorem trap_nesting (run : Trapped config m live) (enabled : config.deliverTraps = true) :
    live.length ≤ 1 ∧
    (∀ d ∈ live, d < m.depth ∧
      m.liveAfter live = if (endState (step m)).depth ≤ d then [] else live) ∧
    ∀ fault raised, Raises m fault raised →
      (live ≠ [] → step m = .error (.panic (.whileHandling fault)) raised ∧
        raised.depth ≤ m.depth) ∧
      (live = [] →
        ((∃ count, raised.segments.procedureCount raised.memory 0 = .ok count ∧
            count < handlerProcedure) ∧
          step m = .error (.trap fault) raised) ∨
        (∃ e m', call 0 handlerProcedure (raised.announced fault) = .error e m' ∧
          step m = .error (.trap e) m' ∧ m'.depth = raised.depth) ∨
        ∃ kind m', step m = .ok () m' ∧ Delivered fault m.nextAddress raised kind m' ∧
          m.liveAfter live = if kind = .entered then [raised.depth] else []) := by
  have watched := run.watched
  refine ⟨?_, fun d active => watched.liveAfter_eq active, ?_⟩
  · rw [watched.noted]
    cases m.prepare.trapDepth <;> simp
  intro fault raised raises
  obtain ⟨grounded, noted, config', address, low⟩ := raises.found watched.grounded
  rw [raises.step_eq]
  -- Whether a handler is active decides between a panic and a delivery, and at most one is.
  rcases grounded.delivery_cases fault with ⟨active, eq⟩ | ⟨idle, outcome⟩
  · refine ⟨fun _ => ⟨eq, low⟩, fun none_ => ?_⟩
    rw [noted, watched.live_eq_nil.1 none_] at active
    cases active
  · have none_ : live = [] := watched.live_eq_nil.2 (noted.symm.trans idle)
    refine ⟨fun some_ => absurd none_ some_, fun _ => ?_⟩
    rcases outcome with ⟨missing, eq⟩ | ⟨e, m', called, eq, depth, -⟩ | ⟨kind, m', eq, -, delivered⟩
    · refine .inl ⟨missing ?_, eq⟩
      rw [config', watched.config]
      exact enabled
    · exact .inr (.inl ⟨e, m', called, eq, depth⟩)
    · refine .inr (.inr ⟨kind, m', eq, address ▸ delivered, ?_⟩)
      unfold liveAfter
      rw [raises.deliveryDepth_eq, raises.step_eq, eq, none_, endState_ok]
      cases kind with
      | entered =>
        rw [(delivered.entered rfl).2]
        simp [succeeded]
      | finished =>
        rw [(delivered.finished rfl).2]
        simp [succeeded]

/-- A program that divides by zero twice, and whose handler returns. -/
def retrying : List SegmentSpec :=
  [{ number := 0
     name := "KERNEL"
     procedures :=
       [{ level := 1
          body := some
            { code := [1, 0, Opcode.dvi.code, 1, 0, Opcode.modi.code, Opcode.xit.code] } },
         { level := 1, body := some { code := [Opcode.rnp.code, 0] } }] }]

/-- The machine before the second division. -/
def retryingTrace : Machine × List Nat :=
  watchedFor 6 retrying

/-- What the second division does. -/
def retryingDivision : EStateM.Result Stop Machine Unit :=
  executeNext retryingTrace.1.prepare

theorem retryingTrace_run :
    starts retrying = true ∧ (watchedFor 3 retrying).2 = [1] ∧ retryingTrace.2 = [] ∧
      retryingTrace.1.halted = false ∧ stopOf retryingDivision = some (.trap .divideByZero) ∧
      (endState retryingDivision).counted.depth = 1 ∧ (endState (step retryingTrace.1)).depth = 2 ∧
      succeeded (step retryingTrace.1) = true := by
  decide +kernel

/-- The handler of the first division has returned, so the second one is delivered too. -/
theorem trap_nesting_retrying :
    (watchedFor 3 retrying).2 = [1] ∧ ∃ m raised m', Trapped default m [] ∧
      Raises m .divideByZero raised ∧ step m = .ok () m' ∧
      Delivered .divideByZero m.nextAddress raised .entered m' ∧ m.liveAfter [] = [1] := by
  obtain ⟨starts, handling, left, running, stopped, depth, risen, delivered⟩ := retryingTrace_run
  have run : Trapped default retryingTrace.1 [] := left ▸ trapped_watched 6 starts
  have raises : Raises retryingTrace.1 .divideByZero (endState retryingDivision).counted :=
    raises_of_stop running ⟨nofun, nofun⟩ rfl stopped
  have ended := ((trap_nesting run rfl).2.2 _ _ raises).2 rfl
  rcases ended with ⟨-, failed⟩ | ⟨e, m', -, failed, -⟩ | ⟨kind, m', eq, traps, active⟩
  · rw [failed] at delivered
    cases delivered
  · rw [failed] at delivered
    cases delivered
  · rw [eq, endState_ok] at risen
    cases kind with
    | entered =>
      rw [if_pos rfl, depth] at active
      exact ⟨handling, _, _, m', run, raises, eq, traps, active⟩
    | finished =>
      -- the depth has risen, so the host did not run the handler
      have same := (traps.finished rfl).2.symm.trans risen
      rw [depth] at same
      cases same

/-- A program that divides by zero, and whose handler returns from a base procedure that it is not. -/
def slipping : List SegmentSpec :=
  [{ number := 0
     name := "KERNEL"
     procedures :=
       [{ level := 1, body := some { code := [1, 0, Opcode.dvi.code, Opcode.xit.code] } },
         { level := 1, body := some { code := [Opcode.rbp.code, 0] } }] }]

/-- The handler is about to return. -/
def slippingTrace : Machine × List Nat :=
  watchedFor 3 slipping

/-- What the return of the handler does. -/
def slippingReturn : EStateM.Result Stop Machine Unit :=
  executeNext slippingTrace.1.prepare

theorem slippingTrace_run :
    starts slipping = true ∧ slippingTrace.2 = [1] ∧ slippingTrace.1.halted = false ∧
      stopOf slippingReturn = some (.trap (.system .stackUnderflow)) ∧
      (endState slippingReturn).counted.depth = 1 ∧
      (endState slippingReturn).counted.hasHandler = true ∧
      stopOf (step slippingTrace.1) = some (.panic (.whileHandling (.system .stackUnderflow))) := by
  decide +kernel

/-- A fault of the very return that leaves the handler is fatal, although the depth has dropped back
to the one at which the handler was called by then. -/
theorem fault_of_leaving_is_fatal :
    ∃ m raised, Trapped default m [1] ∧ (default : Config).deliverTraps = true ∧
      Raises m (.system .stackUnderflow) raised ∧ raised.depth = 1 ∧ raised.hasHandler = true ∧
      stopOf (step m) = some (.panic (.whileHandling (.system .stackUnderflow))) := by
  obtain ⟨starts, active, running, stopped, depth, handler, fatal⟩ := slippingTrace_run
  have run : Trapped default slippingTrace.1 [1] := active ▸ trapped_watched 3 starts
  exact ⟨_, _, run, rfl, raises_of_stop running ⟨nofun, nofun⟩ rfl stopped, depth, handler, fatal⟩

end Machine
end PSystem
