import PSystem.Proofs.CallTracking

/-!
# What instructions do to the calls

Every instruction takes a course (`Course`) from the calls before it to the calls after it, as long as
the program leaves the headers of active frames alone and releases no segment that it did not get
(`Tracked.course_executeNext`).  The lemmas follow the shape of the instructions: operands come first
(`Tracked.course_bind`), and then there is a call, a return, a standard procedure or work.
-/

namespace PSystem

namespace Machine

variable {α : Type} {m m' m₁ m₂ : Machine} {calls calls' calls₁ : List Call} {c : Call}
  {n segment procedure : UInt8} {jtab : Address}

/-! ## The bottom of the evaluation stack -/

/-- The bottom of the evaluation stack is kept, if procedures that are bound to the host keep it. -/
def Caps (m m' : Machine) : Prop :=
  (∀ b ∈ m.bound, Keeps Store.Works b.run) →
    m'.bound = m.bound ∧ (m.store.Capped → m'.store.Capped)

instance : IsPreorder Machine Caps where
  refl _ _ := ⟨rfl, id⟩
  trans _ _ _ h h' hosted := by
    obtain ⟨bound, capped⟩ := h hosted
    obtain ⟨bound', capped'⟩ := h' (bound ▸ hosted)
    exact ⟨bound'.trans bound, capped' ∘ capped⟩

instance (priority := low) caps_of_works {ε : Type} (x : EStateM ε Machine α)
    [works : Keeps Works x] : Keeps Caps x :=
  works.mono fun _ _ h _ => ⟨h.quiet.bound, h.store.capped⟩

/-- Dropping words that are on the stack does not go past its bottom. -/
theorem capped_drop {s : Store} {bytes : Word} (capped : s.Capped)
    (enough : bytes.toNat ≤ s.depth * 2) : Store.Capped { s with sp := s.sp + bytes } := by
  obtain ⟨sum, within⟩ := toNat_drop enough
  unfold Store.Capped at capped ⊢
  rw [UInt16.lt_iff_toNat_lt] at capped ⊢
  change s.sp.toNat < 0xFFF2 at capped
  show (s.sp + bytes).toNat < 0xFFF2
  omega

instance caps_moveParameters (segment procedure : UInt8) (frame : Address) (bytes : Word) :
    Keeps Caps (moveParameters segment procedure frame bytes) := by
  constructor
  intro m
  unfold moveParameters
  rw [get_bind_apply]
  dsimp only
  split
  · exact Std.Refl.refl m
  rename_i enough
  rcases reading_bind_cases (rfl : (reading _ >>= _) m = _) with ⟨e, -, hr⟩ | ⟨parameters, -, hr⟩
  · rw [hr]
    exact Std.Refl.refl m
  -- With the stack as full as was checked, dropping the copied words keeps it within its capacity.
  rw [← hr]
  rcases bind_cases (rfl : (onMemory (Memory.writeBytes (Frame.word frame 1) parameters) >>= _) m =
    _) with ⟨e, m', hw, hr⟩ | ⟨u, m₁, hw, hr⟩
  · rw [hr]
    have works : Works m m' := Keeps.of_error hw
    exact fun _ => ⟨works.quiet.bound, works.store.capped⟩
  · rw [← hr]
    obtain ⟨memory, -, rfl⟩ := onMemory_eq_ok.1 hw
    refine fun _ => ⟨rfl, fun capped => ?_⟩
    exact capped_drop (s := (m.withMemory memory).store) capped (Nat.not_lt.1 enough)

instance caps_callBound (segment procedure : UInt8) : Keeps Caps (callBound segment procedure) := by
  constructor
  intro m hosted
  rcases callBound_cases segment procedure m with ⟨e, h⟩ | ⟨b, member, -, h⟩
  · rw [h]
    exact ⟨rfl, id⟩
  · rw [h]
    have run := hosted b member
    exact (caps_of_works (onStore b.run)).related m hosted

instance caps_writeHeader (frame link : Address) : Keeps Caps (writeHeader frame link) := by
  constructor
  intro m
  rw [writeHeader_eq]
  exact (caps_of_works (onMemory (Memory.writeWords frame _))).related m

instance caps_settle (segment : UInt8) (jtab : Address) (p : Attributes) (frame : Address) :
    Keeps Caps (settle segment jtab p frame) := by
  have registers {f : Machine → Machine} (h : ∀ m, (f m).bound = m.bound ∧ (f m).store = m.store) :
      Keeps Caps (modify f : Run Machine PUnit) :=
    Keeps.modify fun m _ => ⟨(h m).1, by rw [(h m).2]; exact id⟩
  have entered := registers
    (f := fun m =>
      { m with
        psp := frame, mp := frame, seg := segment, jtab := jtab, ipcBase := p.entry, ipc := 0
        depth := m.depth + 1 }) fun _ => ⟨rfl, rfl⟩
  have based := registers (f := fun m => { m with base := frame }) fun _ => ⟨rfl, rfl⟩
  have noted (f : Segment → Segment) : Keeps Caps (modifySegment segment f) :=
    registers (f := fun m => { m with segments := m.segments.modify segment f }) fun _ => ⟨rfl, rfl⟩
  unfold settle
  infer_instance

instance caps_enter (segment procedure : UInt8) (jtab : Address) :
    Keeps Caps (enter segment procedure jtab) :=
  keeps_enter segment procedure jtab

instance caps_call (segment procedure : UInt8) : Keeps Caps (call segment procedure) := by
  unfold call
  infer_instance

/-! ## Calls -/

/-- An outcome that is reached in moves, at most with a call after them, which then succeeded. -/
def Reaches {ε : Type} (m : Machine) (calls : List Call) (r : EStateM.Result ε Machine α)
    (calls' : List Call) : Prop :=
  ∃ entered, (entered = true → succeeded r = true) ∧ Ends entered m calls (endState r) calls'

theorem Moves.reaches {ε : Type} {r : EStateM.Result ε Machine α}
    (h : Moves m calls (endState r) calls') : Reaches m calls r calls' := by
  refine ⟨false, ?_, .stays h⟩
  intro none
  cases none

theorem Reaches.after {ε : Type} {r : EStateM.Result ε Machine α} (h : Moves m calls m₁ calls₁)
    (h' : Reaches m₁ calls₁ r calls') : Reaches m calls r calls' := by
  obtain ⟨entered, ok, ends⟩ := h'
  exact ⟨entered, ok, ends.after h⟩

/-- Only the state and the success of an outcome count. -/
theorem Reaches.congr {ε ε' : Type} {β : Type} {r : EStateM.Result ε Machine α}
    {r' : EStateM.Result ε' Machine β} (h : Reaches m calls r calls')
    (state : endState r' = endState r) (ok : succeeded r' = succeeded r) :
    Reaches m calls r' calls' := by
  obtain ⟨entered, success, ends⟩ := h
  exact ⟨entered, ok ▸ success, state ▸ ends⟩

theorem Reaches.course {r : EStateM.Result Stop Machine Unit} (h : Reaches m calls r calls') :
    Course m calls r calls' none := by
  obtain ⟨entered, ok, ends⟩ := h
  exact .goesOn ok ends

/-- A call that enters a procedure is noted. -/
theorem made_of_call (secure : m.Secure) (h : call segment procedure m = .ok .entered m') :
    ∃ c, callMade segment procedure m = some c ∧ Made segment c m m' := by
  rcases Machine.call_cases secure.regular secure.hosted.quietly h with
    ⟨e, m'', eq, -⟩ | ⟨calls, -, -⟩ | ⟨jtab, p, m'', -, ⟨number, hn, -⟩, eq, entered⟩
  · cases eq
  · exact absurd h (not_entered_of_callsHost calls m')
  cases eq
  obtain ⟨link, hl, -⟩ := entered.header
  -- The call that is noted reads its number and attributes back through the procedure register,
  -- which the frame has just set.
  have current : m'.jtab = jtab := by rw [entered.registers]
  refine ⟨
    { activation := m'.current, number, attributes := p, link, base := m.base, resume := m.ipc
      sp := m'.store.sp }, ?_, ?_⟩
  · unfold callMade
    rw [h]
    dsimp only
    rw [current, hn, Attributes.read_eq_ok.2 entered.attributes]
    show (do
      let link ← (m.staticLinkFor p.level).toOption
      return ({ activation := m'.current, number, attributes := p, link, base := m.base
                resume := m.ipc, sp := m'.store.sp } : Call) : Option Call) = _
    rw [hl]
    rfl
  · refine ⟨?_, rfl, ?_, hl, rfl, rfl, rfl⟩
    · show Entered p segment m'.jtab m m'
      rw [current]
      exact entered
    · show AttributeTable.number m.memory m'.jtab = _
      rw [current]
      exact hn

theorem callMade_of_not_entered (h : ∀ m', call segment procedure m ≠ .ok .entered m') :
    callMade segment procedure m = none := by
  unfold callMade
  cases hc : call segment procedure m with
  | error e m' => rfl
  | ok kind m' =>
    cases kind with
    | entered => exact absurd hc (h m')
    | finished => rfl

/-- A call that makes no frame is work. -/
theorem Tracked.work_of_call (h : Tracked m calls)
    (host : m.CallsHost segment procedure →
      m.HeadersIn (endState (call segment procedure m)).memory)
    (unmade : ∀ m', call segment procedure m ≠ .ok .entered m') :
    Move m calls (endState (call segment procedure m)) calls := by
  have capped := ((caps_call segment procedure).related m : Caps m _) h.hosted
  have standing' : (endState (call segment procedure m)).Standing := by
    rcases h.standing.call_cases host rfl with ⟨-, standing', -⟩ | ⟨jtab, p, m', eq, -⟩
    · exact standing'
    · exact absurd eq (unmade m')
  rcases Machine.call_cases h.standing.secure.regular h.standing.secure.hosted.quietly
      (rfl : call segment procedure m = _) with
    ⟨e, m', eq, confined⟩ | ⟨calls, confined, -⟩ | ⟨jtab, p, m', -, -, eq, -⟩
  · rw [eq] at capped standing' ⊢
    exact .work (confined.quiet.works capped.2) (h.standing.upright.headers_confined confined) standing'
  · exact .work (confined.quiet.works capped.2) (host calls) standing'
  · exact absurd eq (unmade m')

theorem Tracked.reaches_call (h : Tracked m calls)
    (host : m.CallsHost segment procedure →
      m.HeadersIn (endState (call segment procedure m)).memory)
    (standing' : (endState (call segment procedure m)).Standing) :
    Reaches m calls (call segment procedure m)
      ((callMade segment procedure m).toList ++ calls) := by
  by_cases entered : ∃ m', call segment procedure m = .ok .entered m'
  · obtain ⟨m', called⟩ := entered
    obtain ⟨c, noted, made⟩ := made_of_call h.standing.secure called
    rw [noted]
    rw [called] at standing' ⊢
    exact ⟨true, fun _ => rfl, .enters (.refl m calls) made standing' rfl⟩
  · rw [not_exists] at entered
    rw [callMade_of_not_entered entered]
    exact (Moves.one (h.work_of_call host entered)).reaches

/-- The segment that an external call brought in is still there after a call that makes no frame, so
it can be let go. -/
theorem left_of_unmade (standing : m.Standing) {loaded : Machine}
    (load : loadSegment segment m = .ok () loaded)
    (host : loaded.CallsHost segment procedure →
      loaded.HeadersIn (endState (call segment procedure loaded)).memory)
    (unmade : ∀ m', call segment procedure loaded ≠ .ok .entered m') :
    ∃ m', leaveSegment segment (endState (call segment procedure loaded)) = .ok () m' := by
  rcases leaveSegment_cases (rfl : leaveSegment segment (endState (call segment procedure loaded)) = _)
    with ⟨-, absent⟩ | ⟨s, -, -, left⟩
  rotate_left
  · exact ⟨_, left⟩
  exfalso
  rcases standing.loadSegment_cases load with ⟨e, eq⟩ | ⟨_, eq, there, -, -, -, -, uses₁⟩
  · cases eq
  cases eq
  rcases there.call_cases host rfl with ⟨-, -, -, -, uses⟩ | ⟨jtab, p, m', entered, -⟩
  · obtain ⟨s, hs, resident⟩ := resident_of_useCount (m := endState _) (n := segment) (by
      rw [uses, uses₁, if_pos rfl]
      exact Nat.succ_pos _)
    rw [absent s hs] at resident
    cases resident
  · exact unmade m' entered

theorem Tracked.reaches_callExternal (h : Tracked m calls)
    (host : m.ReachesHost segment procedure →
      m.HeadersIn (endState (callExternal segment procedure m)).memory) :
    Reaches m calls (callExternal segment procedure m)
      ((externalCallMade segment procedure m).toList ++ calls) := by
  have standing' : (endState (callExternal segment procedure m)).Standing :=
    (balances_callExternal host h.standing).1
  rcases callExternal_ends (rfl : callExternal segment procedure m = _) with
    ⟨e, m', away, load, failed⟩ | ⟨loaded, brought, ends⟩
  · rw [externalCallMade_of_failed away load, failed]
    rcases h.standing.loadSegment_cases load with ⟨e', eq⟩ | ⟨m'', eq, -⟩
    · cases eq
      exact (Moves.refl m calls).reaches
    · cases eq
  -- Bringing the segment in is itself a move, so what follows starts from calls that are still
  -- tracked.
  have loading : Moves m calls loaded calls := by
    rcases brought with ⟨-, load⟩ | ⟨-, rfl⟩
    · have loads : Move m calls loaded calls := .load load
      exact .one loads
    · exact .refl loaded calls
  have there := h.moves loading
  rw [externalCallMade_of_brings brought]
  rcases ends with ⟨m', called, entered⟩ | ⟨unmade, ended⟩
  · obtain ⟨c, noted, made⟩ := made_of_call there.standing.secure called
    rw [entered] at standing' ⊢
    rw [noted]
    exact ⟨true, fun _ => rfl, .enters loading made standing' rfl⟩
  · -- No frame was made: the segment is let go of again, which is the last move.
    have kept := h.standing.upright.headersIn_brought brought ended host
    have worked := loading.step (there.work_of_call kept unmade)
    rw [callMade_of_not_entered unmade]
    refine Moves.reaches ?_
    rw [ended] at standing' ⊢
    by_cases away : m.BringsIn segment
    · obtain ⟨m', left⟩ := left_of_unmade h.standing (brought.load away) kept unmade
      rw [letGo_of_bringsIn away, left] at standing' ⊢
      exact worked.step (.leave away.2 left standing')
    · rw [letGo_of_here away]
      exact worked

/-! ## Operands -/

/-- Fetching and popping is work. -/
theorem Silent.moves (silent : Silent m m₁) (works : Works m m₁) (standing : m.Standing)
    (active : 0 < m.depth) : Moves m calls m₁ calls :=
  .one (.work works (fun _ _ _ _ => by rw [silent.memory]) (silent.standing active standing))

/-- Operands that are fetched or popped before something else. -/
theorem Tracked.course_bind {x : Run Machine α} {f : α → Exec Unit} {returning : Option Bool}
    [hs : Keeps Silent x] [hw : Keeps Works x] (h : Tracked m calls) (active : 0 < m.depth)
    (failed : ∀ e m₁, x m = .error e m₁ → calls' = calls ∧ returning = none)
    (done : ∀ a m₁, x m = .ok a m₁ → Silent m m₁ → Tracked m₁ calls → 0 < m₁.depth →
      Course m₁ calls (f a m₁) calls' returning) :
    Course m calls (((liftM x : Exec α) >>= f) m) calls' returning := by
  rcases liftM_bind_cases (rfl : ((liftM x : Exec α) >>= f) m = _) with
    ⟨e, m₁, hx, hr⟩ | ⟨a, m₁, hx, hr⟩
  · obtain ⟨same, rfl⟩ := failed e m₁ hx
    have moves : Moves m calls m₁ calls :=
      (hs.of_error hx).moves (hw.of_error hx) h.standing active
    rw [same, hr]
    exact moves.reaches.course
  · have silent : Silent m m₁ := hs.of_ok hx
    have moves : Moves m calls m₁ calls := silent.moves (hw.of_ok hx) h.standing active
    rw [← hr]
    exact (done a m₁ hx silent (h.moves moves) (silent.depth ▸ active)).after moves silent.memory

/-! ## Standard procedures -/

theorem Tracked.course_exitNamed (h : Tracked m calls) (active : 0 < m.depth) :
    Course m calls (exitNamed m) (m.callsExited calls) none := by
  unfold callsExited
  apply h.course_bind active
  · intro e m₁ failed
    rw [failed]
    exact ⟨rfl, rfl⟩
  intro procedure m₁ first _ h₁ active₁
  rw [first]
  dsimp only
  apply h₁.course_bind active₁
  · intro e m₂ failed
    rw [failed]
    exact ⟨rfl, rfl⟩
  intro segment m₂ second _ h₂ active₂
  rw [second]
  exact (Moves.one (.exit segment.toUInt8 procedure.toUInt8 active₂)).reaches.course

theorem Tracked.course_getseg (h : Tracked m calls) (active : 0 < m.depth) :
    Course m calls (perform .getseg m) calls none := by
  apply h.course_bind active
  · exact fun _ _ _ => ⟨rfl, rfl⟩
  intro w m₁ _ _ h₁ _
  have moves : Moves m₁ calls (endState (loadSegment w.toUInt8 m₁)) calls := by
    rcases h₁.standing.loadSegment_cases (rfl : loadSegment w.toUInt8 m₁ = _) with
      ⟨e, failed⟩ | ⟨m₂, loaded, -⟩
    · rw [failed]
      exact .refl m₁ calls
    · have loading : Move m₁ calls m₂ calls := .load loaded
      rw [loaded]
      exact .one loading
  rw [← endState_liftM] at moves
  exact moves.reaches.course

theorem Tracked.course_relseg (h : Tracked m calls) (active : 0 < m.depth)
    (standing' : (endState (perform .relseg m)).Standing) :
    Course m calls (perform .relseg m) calls none := by
  have unfolded : perform .relseg m = ((liftM pop : Exec Word) >>= fun w =>
      liftM (if w.toUInt8 ≠ 0 then leaveSegment w.toUInt8 else pure ())) m :=
    liftM_bind_apply pop _ m
  rw [unfolded] at standing' ⊢
  apply h.course_bind active
  · exact fun _ _ _ => ⟨rfl, rfl⟩
  intro w m₁ popped _ h₁ _
  rw [liftM_bind_of_ok popped, endState_liftM] at standing'
  suffices moves : Moves m₁ calls (endState
      ((if w.toUInt8 ≠ 0 then leaveSegment w.toUInt8 else pure () : Run Machine Unit) m₁)) calls by
    rw [← endState_liftM] at moves
    exact moves.reaches.course
  -- Segment 0 is not let go of: then the instruction only pops its operand.
  by_cases kernel : w.toUInt8 = 0
  · simp only [kernel, ne_eq, not_true_eq_false, if_false]
    exact .refl m₁ calls
  · simp only [kernel, ne_eq, not_false_eq_true, if_true] at standing' ⊢
    rcases leaveSegment_cases (rfl : leaveSegment w.toUInt8 m₁ = _) with
      ⟨⟨e, failed⟩, -⟩ | ⟨s, -, -, left⟩
    · rw [failed]
      exact .refl m₁ calls
    · rw [left] at standing' ⊢
      exact .one (.leave kernel left standing')

/-- An instruction that stores nothing in headers is work. -/
theorem Tracked.course_works {x : Exec Unit} (works : Keeps Works x) (h : Tracked m calls)
    (active : 0 < m.depth) (kept : m.HeadersIn (endState (x m)).memory) :
    Course m calls (x m) calls none := by
  have standing' := (balances_of_quiet (quiet_of_works x) active kept h.standing).1
  exact (Moves.one (.work (works.related m) kept standing')).reaches.course

theorem Tracked.course_perform (h : Tracked m calls) (active : 0 < m.depth)
    (procedure : StandardProcedure)
    (kept : procedure.manages = false → m.HeadersIn (endState (perform procedure m)).memory)
    (standing' : (endState (perform procedure m)).Standing) :
    Course m calls (perform procedure m)
      (if procedure = .exit then m.callsExited calls else calls) none := by
  by_cases plain : procedure.manages = false
  · have other : procedure ≠ .exit := by
      rintro rfl
      cases plain
    rw [if_neg other]
    exact h.course_works (works_perform procedure plain) active (kept plain)
  · cases procedure with
    | exit => exact h.course_exitNamed active
    | getseg => exact h.course_getseg active
    | relseg => exact h.course_relseg active standing'
    | _ => exact absurd rfl plain

/-! ## Returns -/

/-- Handing over results is work, and the outermost return is noted. -/
theorem Tracked.moves_handOver (h : Tracked m calls) (values : List Word) :
    Moves m calls (endState (handOver values false m)) calls := by
  have works : Keeps Works (liftM (onStore (Store.pushBlock values)) : Exec Unit) := inferInstance
  have beside := (beside_onStore (Store.pushBlock values)).related m
  have balances := (balances_pushBlock values).related m h.standing
  have pushed : Move m calls (endState (onStore (Store.pushBlock values) m)) calls := by
    have worked := works.related m
    rw [endState_liftM] at worked
    exact .work worked (h.standing.upright.headers_beside fun x low start top =>
      beside.bytes x low start top) balances.1
  rw [handOver_plain]
  rcases liftM_bind_cases (rfl : ((liftM (onStore (Store.pushBlock values)) : Exec Unit) >>= _) m =
    _) with ⟨e, m₁, failed, hr⟩ | ⟨u, m₁, done, hr⟩
  · rw [failed] at pushed
    rw [hr]
    exact .one pushed
  · rw [done] at pushed
    rw [← hr]
    refine .step (.one pushed) (.note ?_)
    show Noted m₁ (if m₁.depth = 0 then { m₁ with halted := true } else m₁)
    split <;> rfl

/-- A way back and moves in the caller. -/
theorem GoesBack.course {base : Bool} {r : EStateM.Result Stop Machine Unit}
    (h : GoesBack base m m₁ m₂)
    (panics : ∀ cause s, base = true → restoreBase m₁ = .error (.panic cause) s →
      ∃ s', r = .error (.panic cause) s')
    (moves : Moves m₂ calls.tail (endState r) calls') : Course m calls r calls' (some base) := by
  refine .goesBack (.refl m calls) rfl h panics ?_ (.stays moves)
  intro none
  cases none

theorem Tracked.course_returnFrom (h : Tracked m calls) (active : 0 < m.depth) (results : UInt8)
    (base : Bool) : Course m calls (returnFrom results base m)
      (if m.getsBack results then calls.tail else calls)
      (if m.getsBack results then some base else none) := by
  have caller := h.standing.upright.readCaller active
  obtain ⟨m₁, resumed, standing₁, -⟩ := h.standing.resume active
  rcases returnFrom_cases (rfl : returnFrom results base m = _) with
    ⟨e, eq, unread | unread⟩ | ⟨caller', values, hc, hv, outcome⟩
  · cases caller.symm.trans unread
  · have stays : m.getsBack results = false := by
      unfold getsBack
      rw [caller, unread]
    simp only [stays, Bool.false_eq_true, if_false]
    rw [eq]
    exact (Moves.refl m calls).reaches.course
  cases caller.symm.trans hc
  rcases outcome with ⟨e, m', stuck, -⟩ | ⟨m₁', resumed', handed⟩
  · cases resumed.symm.trans stuck
  cases resumed.symm.trans resumed'
  have goes : m.getsBack results = true := by
    unfold getsBack
    rw [caller, hv]
    dsimp only
    rw [resumed]
    rfl
  simp only [goes, if_true]
  -- the base register is taken from the stack before results are pushed
  have standing₂ : (if base then endState (restoreBase m₁) else m₁).Standing := by
    cases base with
    | false => exact standing₁
    | true =>
      have balances : Keeps Balances restoreBase := inferInstance
      exact (balances.related m₁ standing₁).1
  have back : GoesBack base m m₁ _ := ⟨active, resumed, rfl, standing₂⟩
  have h₂ := h.back back
  rw [← handed]
  cases base with
  | false => exact back.course (fun _ _ no => nomatch no) (h₂.moves_handOver values)
  | true =>
    simp only [if_true] at back h₂
    rw [handOver_base]
    rcases bind_cases (rfl : (restoreBase >>= fun _ => handOver values false) m₁ = _) with
      ⟨stop, m₂, failed, hr⟩ | ⟨u, m₂, restored, hr⟩
    · rw [failed] at back
      rw [hr]
      refine back.course (fun cause s _ panics => ?_) (.refl m₂ _)
      cases failed.symm.trans panics
      exact ⟨_, rfl⟩
    · rw [restored] at back h₂
      rw [← hr]
      refine back.course (fun cause s _ panics => ?_) (h₂.moves_handOver values)
      cases restored.symm.trans panics

/-! ## Instructions -/

theorem Tracked.course_callHere (h : Tracked m calls) (active : 0 < m.depth)
    (kept : m.StoresBy (.table .clp) → m.HeadersIn (endState (callHere m)).memory) :
    Course m calls ((liftM callHere : Exec Unit) m) (m.callsBy calls (.table .clp)) none := by
  have standing' := (balances_callHere active kept h.standing).1
  unfold callHere
  rw [liftM_bind_apply]
  unfold callsBy
  apply h.course_bind active
  · intro e m₁ failed
    rw [failed]
    exact ⟨rfl, rfl⟩
  intro procedure m₁ fetched silent h₁ _
  rw [fetched]
  dsimp only
  obtain ⟨state, ok⟩ := callHere_rest procedure m₁
  have whole : endState (callHere m) = endState (call m₁.seg procedure m₁) :=
    (congrArg endState (bind_of_ok fetched)).trans state
  rw [whole] at kept standing'
  have reached : Reaches m₁ calls (call m₁.seg procedure m₁) _ := h₁.reaches_call
    (fun host => silent.headersIn (kept ⟨procedure, m₁, fetched, host⟩)) standing'
  exact (reached.congr ((endState_liftM _ _).trans state) ((succeeded_liftM _ _).trans ok)).course

theorem Tracked.course_cxp (h : Tracked m calls) (active : 0 < m.depth)
    (kept : m.StoresBy (.table .cxp) → m.HeadersIn (endState (executeTable .cxp m)).memory) :
    Course m calls (executeTable .cxp m) (m.callsBy calls (.table .cxp)) none := by
  unfold callsBy
  -- The two operands are fetched one after the other; either fetch can fail, and then nothing is
  -- called.
  apply h.course_bind active
  · intro e m₁ failed
    rw [failed]
    exact ⟨rfl, rfl⟩
  intro segment m₁ first silent₁ h₁ active₁
  rw [first]
  dsimp only
  apply h₁.course_bind active₁
  · intro e m₂ failed
    rw [failed]
    exact ⟨rfl, rfl⟩
  intro procedure m₂ second silent₂ h₂ _
  rw [second]
  dsimp only
  have silent : Silent m m₂ := IsTrans.trans _ _ _ silent₁ silent₂
  have whole : executeTable .cxp m = (liftM (callExternal segment procedure) : Exec Unit) m₂ :=
    (liftM_bind_of_ok first).trans (liftM_bind_of_ok second)
  rw [whole, endState_liftM] at kept
  have reached : Reaches m₂ calls (callExternal segment procedure m₂) _ := h₂.reaches_callExternal
    fun host => silent.headersIn (kept ⟨segment, m₁, procedure, m₂, first, second, host⟩)
  exact (reached.congr (endState_liftM _ _) (succeeded_liftM _ _)).course

theorem Tracked.course_return (h : Tracked m calls) (active : 0 < m.depth) (base : Bool) :
    Course m calls ((do returnFrom (← fetchByte) base : Exec Unit) m)
      (if m.returns then calls.tail else calls) (if m.returns then some base else none) := by
  -- When the operand cannot be fetched nothing returns, and no call is left.
  cases fetched : fetchByte m with
  | error e m₁ =>
    have stays : m.returns = false := by
      unfold returns
      rw [fetched]
    have silent : Silent m m₁ := Keeps.of_error fetched
    have works : Works m m₁ := Keeps.of_error fetched
    have moves : Moves m calls m₁ calls := silent.moves works h.standing active
    have ended : (do returnFrom (← fetchByte) base : Exec Unit) m = .error (.trap e) m₁ :=
      liftM_bind_of_error fetched
    simp only [stays, Bool.false_eq_true, if_false]
    rw [ended]
    exact moves.reaches.course
  | ok results m₁ =>
    have goes : m.returns = m₁.getsBack results := by
      unfold returns
      rw [fetched]
    have silent : Silent m m₁ := Keeps.of_ok fetched
    have works : Works m m₁ := Keeps.of_ok fetched
    have moves : Moves m calls m₁ calls := silent.moves works h.standing active
    have ended : (do returnFrom (← fetchByte) base : Exec Unit) m = returnFrom results base m₁ :=
      liftM_bind_of_ok fetched
    rw [ended, goes]
    exact ((h.moves moves).course_returnFrom (silent.depth ▸ active) results base).after moves
      silent.memory

theorem Tracked.course_callStandard (h : Tracked m calls) (active : 0 < m.depth)
    (kept : m.StoresBy (.table .csp) → m.HeadersIn (endState (callStandard m)).memory)
    (standing' : (endState (callStandard m)).Standing) :
    Course m calls (callStandard m) (m.callsBy calls (.table .csp)) none := by
  unfold callsBy
  apply h.course_bind active
  · intro e m₁ failed
    rw [failed]
    exact ⟨rfl, rfl⟩
  intro code m₁ fetched silent h₁ active₁
  have ended : callStandard m = _ := liftM_bind_of_ok fetched
  rw [ended] at kept standing'
  rw [fetched]
  dsimp only
  -- A code with no procedure traps before anything is done.
  cases found : StandardProcedure.ofCode? code with
  | none =>
    simp only [reduceCtorEq, if_false]
    exact (Moves.refl m₁ calls).reaches.course
  | some procedure =>
    simp only [found] at kept standing'
    have named : (some procedure = some StandardProcedure.exit) = (procedure = .exit) := by
      rw [Option.some.injEq]
    simp only [named]
    exact h₁.course_perform active₁ procedure
      (fun plain => silent.headersIn (kept ⟨code, m₁, procedure, fetched, found, plain⟩)) standing'

theorem Tracked.course_executeTable (h : Tracked m calls) (active : 0 < m.depth) (op : Opcode)
    (kept : m.StoresBy (.table op) → m.HeadersIn (endState (executeTable op m)).memory)
    (standing' : (endState (executeTable op m)).Standing) :
    Course m calls (executeTable op m) (m.callsBy calls (.table op))
      (m.returningBy (.table op)) := by
  have here (kept : m.StoresBy (.table .clp) →
      m.HeadersIn (endState ((liftM callHere : Exec Unit) m)).memory) :
      Course m calls ((liftM callHere : Exec Unit) m) (m.callsBy calls (.table .clp)) none := by
    rw [endState_liftM] at kept
    exact h.course_callHere active kept
  by_cases plain : op.transfers = false
  · have stays : m.callsBy calls (.table op) = calls ∧ m.returningBy (.table op) = none := by
      cases op with
      | clp | cgp | cip | cbp | cxp | rnp | rbp | csp => cases plain
      | _ => exact ⟨rfl, rfl⟩
    rw [stays.1, stays.2]
    exact h.course_works (works_executeTable op plain) active (kept (storesBy_of_quiet plain))
  · cases op with
    | clp | cgp | cip | cbp => exact here kept
    | cxp => exact h.course_cxp active kept
    | rnp => exact h.course_return active false
    | rbp => exact h.course_return active true
    | csp => exact h.course_callStandard active kept standing'
    | _ => exact absurd rfl plain

theorem Tracked.course_execute (h : Tracked m calls) (active : 0 < m.depth) (opcode : UInt8)
    (kept : m.StoresBy (Encoding.ofCode opcode) → m.HeadersIn (endState (execute opcode m)).memory)
    (standing' : (endState (execute opcode m)).Standing) :
    Course m calls (execute opcode m) (m.callsBy calls (Encoding.ofCode opcode))
      (m.returningBy (Encoding.ofCode opcode)) := by
  unfold execute at kept standing' ⊢
  revert kept standing'
  cases Encoding.ofCode opcode with
  | shortConstant n | shortLocal n | shortGlobal n | shortIndirect n =>
    intro kept _
    exact h.course_works inferInstance active (kept trivial)
  | unused code =>
    intro kept _
    exact h.course_works (Keeps.throw _) active (kept trivial)
  | table op =>
    intro kept standing'
    exact h.course_executeTable active op kept standing'

theorem Tracked.course_executeNext (h : Tracked m calls)
    (kept : m.Stores → m.HeadersIn (endState (executeNext m)).memory)
    (standing' : (endState (executeNext m)).Standing) :
    Course m calls (executeNext m) (m.callsNext calls) m.returningNext := by
  unfold callsNext returningNext
  cases fetched : fetchByte m with
  | error e m₁ =>
    have ended : executeNext m = _ := liftM_bind_of_error fetched
    rw [ended]
    -- at the outermost level there is nothing to fetch
    rcases Nat.eq_zero_or_pos m.depth with outermost | active
    · cases fetched.symm.trans (h.standing.upright.fetchByte_idle outermost)
      exact (Moves.refl m calls).reaches.course
    · have silent : Silent m m₁ := Keeps.of_error fetched
      have works : Works m m₁ := Keeps.of_error fetched
      have moves : Moves m calls m₁ calls := silent.moves works h.standing active
      exact moves.reaches.course
  | ok opcode m₁ =>
    have active := h.standing.upright.active_of_fetchByte fetched
    have silent : Silent m m₁ := Keeps.of_ok fetched
    have works : Works m m₁ := Keeps.of_ok fetched
    have moves : Moves m calls m₁ calls := silent.moves works h.standing active
    have ended : executeNext m = _ := liftM_bind_of_ok fetched
    rw [ended] at kept standing' ⊢
    refine Course.after moves silent.memory ?_
    exact (h.moves moves).course_execute (silent.depth ▸ active) opcode
      (fun stores => silent.headersIn (kept ⟨opcode, m₁, fetched, stores⟩)) standing'

end Machine
end PSystem
