import PSystem.Proofs.CodeImmutability

/-!
# What lasts through an instruction

What the table says of a segment on disk is fixed when the table is made from the dictionary: loads,
releases and calls change use counts and addresses only, and no other instruction changes the table.
So every step keeps the origins of all segments (`sameOrigins_step`).

An instruction does not touch what is bound to the host or the record of the run either, and what was
written to the console stays there (`Lasts`).  Loads, calls and returns leave the console alone
altogether (`Mute`).
-/

namespace PSystem

/-- Where a segment lies on disk: its unit, its first block and its length. -/
def Segment.origin (s : Segment) : Word × Word × Word :=
  (s.unit, s.block, s.size)

namespace Machine

variable {ε α : Type} {m m' : Machine} {n : UInt8}

/-- Every segment still comes from where it came. -/
def SameOrigins (m m' : Machine) : Prop :=
  ∀ n, (m'.segments.get? n).map Segment.origin = (m.segments.get? n).map Segment.origin

instance : IsPreorder Machine SameOrigins where
  refl _ _ := rfl
  trans _ _ _ h h' n := (h' n).trans (h n)

theorem SameOrigins.of_table (h : m'.segments = m.segments) : SameOrigins m m' :=
  fun n => by rw [h]

/-- What no instruction takes away. -/
structure Lasts (m m' : Machine) : Prop where
  origins : SameOrigins m m'
  console : m.console.Continues m'.console
  bound : m'.bound = m.bound
  instructions : m'.instructions = m.instructions
  history : m'.history = m.history

instance : IsPreorder Machine Lasts where
  refl m := ⟨Std.Refl.refl m, .refl _, rfl, rfl, rfl⟩
  trans _ _ _ h h' := ⟨IsTrans.trans _ _ _ h.origins h'.origins, h.console.trans h'.console,
    h'.bound.trans h.bound, h'.instructions.trans h.instructions, h'.history.trans h.history⟩

/-- Any other part of the machine may change. -/
theorem Lasts.of_same (segments : m'.segments = m.segments) (console : m'.console = m.console)
    (bound : m'.bound = m.bound) (instructions : m'.instructions = m.instructions)
    (history : m'.history = m.history) : Lasts m m' :=
  ⟨.of_table segments, console ▸ .refl _, bound, instructions, history⟩

/-- The same, of what has nothing to do with the console. -/
structure Mute (m m' : Machine) : Prop extends Lasts m m' where
  silent : m'.console = m.console

instance : IsPreorder Machine Mute where
  refl m := ⟨Std.Refl.refl m, rfl⟩
  trans _ _ _ h h' := ⟨IsTrans.trans _ _ _ h.toLasts h'.toLasts, h'.silent.trans h.silent⟩

theorem Mute.of_same (segments : m'.segments = m.segments) (console : m'.console = m.console)
    (bound : m'.bound = m.bound) (instructions : m'.instructions = m.instructions)
    (history : m'.history = m.history) : Mute m m' :=
  ⟨.of_same segments console bound instructions history, console⟩

theorem Silent.mute (h : Silent m m') : Mute m m' := by
  rw [h.rest]
  exact .of_same rfl rfl rfl rfl rfl

instance (priority := low) mute_of_silent (x : EStateM ε Machine α) [silent : Keeps Silent x] :
    Keeps Mute x :=
  silent.mono fun _ _ => Silent.mute

instance (priority := low) lasts_of_mute (x : EStateM ε Machine α) [mute : Keeps Mute x] :
    Keeps Lasts x :=
  mute.mono fun _ _ => Mute.toLasts

instance (priority := low) sameOrigins_of_lasts (x : EStateM ε Machine α) [lasts : Keeps Lasts x] :
    Keeps SameOrigins x :=
  lasts.mono fun _ _ => Lasts.origins

instance : Reportable Lasts where
  store _ _ _ := .of_same rfl rfl rfl rfl rfl
  rest _ _ _ _ more := ⟨.of_table rfl, more, rfl, rfl, rfl⟩
  report _ _ := .of_same rfl rfl rfl rfl rfl

/-- A change of an entry that leaves its origin alone. -/
theorem mute_modifySegment (n : UInt8) (f : Segment → Segment)
    (same : ∀ s, (f s).origin = s.origin) : Keeps Mute (modifySegment n f) := by
  apply Keeps.modify
  intro m
  refine ⟨⟨fun k => ?_, .refl _, rfl, rfl, rfl⟩, rfl⟩
  show ((m.segments.modify n f).get? k).map Segment.origin = _
  rw [SegmentTable.get?_modify]
  split
  · rw [Option.map_map]
    exact congrArg (fun g => Option.map g _) (funext same)
  · rfl

instance mute_onStore (x : Run Store α) : Keeps Mute (onStore x) := by
  constructor
  intro m
  unfold onStore
  cases x m.store with
  | ok a s => exact .of_same rfl rfl rfl rfl rfl
  | error e s => exact .of_same rfl rfl rfl rfl rfl

instance mute_onMemory (x : Run Memory α) : Keeps Mute (onMemory x) :=
  mute_onStore _

instance mute_push (w : Word) : Keeps Mute (push w) :=
  mute_onStore _

instance mute_protect (start stop : Address) (on : Bool) : Keeps Mute (protect start stop on) :=
  mute_onMemory _

/-! ## Loads and releases -/

instance mute_lower (base : Address) :
    Keeps Mute (modify fun m => { m with psp := base } : Run Machine PUnit) :=
  Keeps.modify fun _ => .of_same rfl rfl rfl rfl rfl

instance mute_loadSegment (n : UInt8) : Keeps Mute (loadSegment n) := by
  have used (n : UInt8) : Keeps Mute (modifySegment n fun s => { s with useCount := 1 }) :=
    mute_modifySegment n _ fun _ => rfl
  have counted : Keeps Mute (modifySegment n fun s => { s with useCount := s.useCount + 1 }) :=
    mute_modifySegment n _ fun _ => rfl
  have placed (n : UInt8) (base : Address) :
      Keeps Mute (modifySegment n fun s => { s with codeBase := base }) :=
    mute_modifySegment n _ fun _ => rfl
  have brought (s : Segment) : Keeps Mute (bringIn s) := by
    unfold bringIn
    refine Keeps.seq inferInstance fun m => Keeps.seq inferInstance fun base => ?_
    exact Keeps.seq inferInstance fun bytes => Keeps.seq inferInstance fun _ => inferInstance
  unfold loadSegment
  infer_instance

instance mute_relocate (resident : Address) (delta : Word) (n : Nat) (slot : Address) :
    Keeps Mute (relocate resident delta n slot) := by
  induction n generalizing slot with
  | zero => exact Keeps.pure ()
  | succ n ih =>
    unfold relocate
    infer_instance

instance mute_loadExtension : Keeps Mute loadExtension := by
  have placed (e : Extension) (base : Address) : Keeps Mute
      (modifySegment 0 fun s => { s with extension := some { e with base := some base } }) :=
    mute_modifySegment 0 _ fun _ => rfl
  unfold loadExtension
  refine Keeps.seq inferInstance fun m => Keeps.seq inferInstance fun count => ?_
  refine Keeps.seq inferInstance fun s => Keeps.seq inferInstance fun first => ?_
  cases s.extension with
  | none => exact Keeps.throw _
  | some e =>
    dsimp only
    split
    · exact Keeps.pure _
    · refine Keeps.seq inferInstance fun base => Keeps.seq inferInstance fun bytes => ?_
      refine Keeps.seq inferInstance fun _ => Keeps.seq inferInstance fun _ => ?_
      refine Keeps.seq inferInstance fun _ => Keeps.seq inferInstance fun _ => ?_
      infer_instance

instance mute_unloadSegment (n : UInt8) : Keeps Mute (unloadSegment n) := by
  have counted : Keeps Mute (modifySegment n fun s => { s with useCount := s.useCount - 1 }) :=
    mute_modifySegment n _ fun _ => rfl
  unfold unloadSegment
  infer_instance

instance mute_reclaim : Keeps Mute reclaim :=
  Keeps.modify fun _ => .of_same rfl rfl rfl rfl rfl

instance mute_leaveSegment (n : UInt8) : Keeps Mute (leaveSegment n) := by
  unfold leaveSegment
  infer_instance

instance mute_releaseSegment : Keeps Mute releaseSegment := by
  unfold releaseSegment
  infer_instance

/-! ## Calls and returns -/

instance mute_callBound (segment procedure : UInt8) : Keeps Mute (callBound segment procedure) := by
  constructor
  intro m
  rcases callBound_cases segment procedure m with ⟨e, h⟩ | ⟨b, -, -, h⟩
  · rw [h]
    exact Std.Refl.refl m
  · rw [h]
    exact (mute_onStore b.run).related m

instance mute_moveParameters (segment procedure : UInt8) (frame : Address) (bytes : Word) :
    Keeps Mute (moveParameters segment procedure frame bytes) := by
  unfold moveParameters
  infer_instance

instance mute_writeHeader (frame link : Address) : Keeps Mute (writeHeader frame link) := by
  unfold writeHeader
  infer_instance

instance mute_settle (segment : UInt8) (jtab : Address) (p : Attributes) (frame : Address) :
    Keeps Mute (settle segment jtab p frame) := by
  have based : Keeps Mute (modify fun m => { m with base := frame } : Run Machine PUnit) :=
    Keeps.modify fun _ => .of_same rfl rfl rfl rfl rfl
  have framed : Keeps Mute (modifySegment segment fun s => { s with dataBase := frame }) :=
    mute_modifySegment segment _ fun _ => rfl
  have entered : Keeps Mute (modify fun m =>
      { m with
        psp := frame, mp := frame, seg := segment, jtab := jtab, ipcBase := p.entry, ipc := 0
        depth := m.depth + 1 } : Run Machine PUnit) :=
    Keeps.modify fun _ => .of_same rfl rfl rfl rfl rfl
  unfold settle
  infer_instance

instance mute_enter (segment procedure : UInt8) (jtab : Address) :
    Keeps Mute (enter segment procedure jtab) :=
  keeps_enter segment procedure jtab

instance mute_call (segment procedure : UInt8) : Keeps Mute (call segment procedure) := by
  unfold call
  infer_instance

instance mute_callHere : Keeps Mute callHere := by
  unfold callHere
  infer_instance

instance mute_callExternal (segment procedure : UInt8) :
    Keeps Mute (callExternal segment procedure) := by
  constructor
  intro m
  have leaving : Keeps Mute (m.letGo segment) := keeps_letGo fun _ => inferInstance
  have brings {loaded : Machine} (brought : m.Brings segment loaded) : Mute m loaded :=
    brought.related
  rcases callExternal_ends (rfl : callExternal segment procedure m = _) with
    ⟨e, m', -, load, failed⟩ | ⟨loaded, brought, ⟨m', called, entered⟩ | ⟨-, ended⟩⟩
  · rw [failed]
    exact (mute_loadSegment segment).of_error load
  · rw [entered]
    exact IsTrans.trans _ _ _ (brings brought) ((mute_call segment procedure).of_ok called)
  · rw [ended]
    exact IsTrans.trans _ _ _ (brings brought)
      (IsTrans.trans _ _ _ ((mute_call segment procedure).related loaded) (leaving.related _))

theorem mute_afterRelease (m : Machine) (n : UInt8) (s : Segment) : Mute m (m.afterRelease n s) := by
  have counted : Mute m (endState (modifySegment n Segment.countDown m)) :=
    (mute_modifySegment n Segment.countDown fun _ => rfl).related m
  exact ⟨⟨counted.origins, .refl _, rfl, rfl, rfl⟩, rfl⟩

instance mute_resume (caller : Caller) : Keeps Mute (resume caller) :=
  keeps_resume (fun _ => .of_same rfl rfl rfl rfl rfl) (fun _ _ => .of_same rfl rfl rfl rfl rfl)
    (fun m n s _ _ _ => mute_afterRelease m n s) fun _ => .of_same rfl rfl rfl rfl rfl

instance mute_restoreBase : Keeps Mute restoreBase :=
  keeps_restoreBase fun _ _ _ => .of_same rfl rfl rfl rfl rfl

instance mute_handOver (values : List Word) (baseProcedure : Bool) :
    Keeps Mute (handOver values baseProcedure) :=
  keeps_handOver (fun _ => .of_same rfl rfl rfl rfl rfl) values baseProcedure

instance mute_returnFrom (results : UInt8) (baseProcedure : Bool) :
    Keeps Mute (returnFrom results baseProcedure) :=
  keeps_returnFrom results

/-! ## Instructions -/

instance lasts_perform (procedure : StandardProcedure) : Keeps Lasts (perform procedure) := by
  by_cases quiet : procedure.manages = false
  · have moved : Keeps Lasts newBlock :=
      keeps_newBlock fun _ _ _ _ _ => .of_same rfl rfl rfl rfl rfl
    have released : Keeps Lasts releaseHeap :=
      keeps_releaseHeap fun _ _ _ _ => .of_same rfl rfl rfl rfl rfl
    exact keeps_perform procedure quiet (fun _ => moved) (fun _ => released) (works_reports procedure)
  · cases procedure with
    | exit | getseg | relseg =>
      unfold perform
      unfold exitNamed
      infer_instance
    | _ => exact absurd rfl quiet

theorem sameOrigins_perform (procedure : StandardProcedure) : Keeps SameOrigins (perform procedure) :=
  inferInstance

instance lasts_callStandard : Keeps Lasts callStandard := by
  unfold callStandard
  refine Keeps.seq inferInstance fun code => ?_
  cases StandardProcedure.ofCode? code with
  | some procedure => exact lasts_perform procedure
  | none => exact Keeps.throw _

instance lasts_executeTable (op : Opcode) : Keeps Lasts (executeTable op) := by
  by_cases quiet : op.transfers = false
  · exact works_executeTable op quiet
  · cases op with
    | clp | cgp | cip | cbp | cxp | rnp | rbp | csp =>
      unfold executeTable
      infer_instance
    | _ => exact absurd rfl quiet

instance lasts_executeNext : Keeps Lasts executeNext := by
  refine Keeps.seq inferInstance fun opcode => ?_
  unfold execute
  cases Encoding.ofCode opcode with
  | shortConstant n | shortLocal n | shortGlobal n | shortIndirect n => infer_instance
  | unused code => exact Keeps.throw _
  | table op => exact lasts_executeTable op

/-! ## Steps -/

instance lasts_deliver (fault : Fault) : Keeps Lasts (deliver fault) := by
  have noted (depth : Machine → Option Nat) :
      Keeps Lasts (modify fun m => { m with trapDepth := depth m } : Exec PUnit) :=
    Keeps.modify fun _ => .of_same rfl rfl rfl rfl rfl
  unfold deliver
  infer_instance

theorem sameOrigins_record (m : Machine) : SameOrigins m m.record := by
  rw [record_eq]
  exact .of_table rfl

instance sameOrigins_conclude (outcome : Except Stop Unit) : Keeps SameOrigins (conclude outcome) := by
  have recorded : Keeps SameOrigins (modify record : Exec PUnit) := Keeps.modify sameOrigins_record
  have halted : Keeps SameOrigins (modify fun m => { m with halted := true }.record : Exec PUnit) :=
    Keeps.modify fun m => sameOrigins_record { m with halted := true }
  unfold conclude
  split <;> infer_instance

/-- No step changes where a segment comes from. -/
theorem sameOrigins_step (m : Machine) : SameOrigins m (endState (step m)) := by
  unfold step
  by_cases halted : m.halted = true
  · simp only [if_pos halted]
    exact Std.Refl.refl m
  · simp only [if_neg halted]
    have executed : SameOrigins m (endState (executeNext m.prepare)) :=
      (lasts_executeNext.related m.prepare).origins
    have concluded (outcome : Except Stop Unit) (m' : Machine) :
        SameOrigins m' (endState (conclude outcome { m' with instructions := m'.instructions + 1 })) :=
      (sameOrigins_conclude outcome).related { m' with instructions := m'.instructions + 1 }
    cases hx : executeNext m.prepare with
    | ok u m' =>
      rw [hx] at executed
      exact IsTrans.trans _ _ _ executed (concluded _ m')
    | error stop m' =>
      rw [hx] at executed
      exact IsTrans.trans _ _ _ executed (concluded _ m')

end Machine
end PSystem
