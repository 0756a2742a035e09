import Mathlib.Logic.Relation
import PSystem.Proofs.StackLayout

/-!
# Steps of programs that leave headers alone

A program that stores nothing in the headers of its active frames may still give up segments that
it is executing.  Its steps are made of few kinds of shifts nevertheless (`Shift`), with one call
after them at most (`Passes`): that a segment is missing stops a call or a return halfway, but leaves
frames and code in order (`Upright.passes_step`).

Only RELEASE can move the heap pointer into the program stack (`ReleasesAbove`).
-/

namespace PSystem
namespace Machine

variable {α : Type} {above : Prop} {m m' m₁ m₂ : Machine} {made : List Call} {c : Call}
  {n segment procedure : UInt8} {s : Segment}

/-! ## The heap pointer -/

/-- The program stack pointer stays, and the heap pointer stays below it. -/
def Level (m m' : Machine) : Prop :=
  m'.psp = m.psp ∧ (m.heap.np ≤ m.psp → m'.heap.np ≤ m'.psp)

instance : Reportable Level where
  refl _ := ⟨rfl, id⟩
  trans _ _ _ h h' := ⟨h'.1.trans h.1, h'.2 ∘ h.2⟩
  store _ _ _ := ⟨rfl, id⟩
  rest _ _ _ _ _ := ⟨rfl, id⟩
  report _ _ := ⟨rfl, id⟩

/-- What `f` says of the machine on which an instruction, with its operands still to be fetched,
carries out a standard procedure. -/
def askedBy {β : Type} (asked : StandardProcedure) (f : Machine → Option β) (m : Machine) :
    Encoding → Option β
  | .table .csp =>
    match fetchByte m with
    | .ok code m => if StandardProcedure.ofCode? code = some asked then f m else none
    | .error _ _ => none
  | _ => none

/-- What `f` says of the machine on which the next instruction carries out a standard procedure. -/
def askedNext {β : Type} (asked : StandardProcedure) (f : Machine → Option β) (m : Machine) :
    Option β :=
  match fetchByte m with
  | .ok opcode m => m.askedBy asked f (Encoding.ofCode opcode)
  | .error _ _ => none

/-- What `f` says of the machine on which the next step carries out a standard procedure. -/
def askedIn {β : Type} (asked : StandardProcedure) (f : Machine → Option β) (m : Machine) :
    Option β :=
  if m.halted then none else m.prepare.askedNext asked f

/-- The heap pointer that RELEASE puts back. -/
def markReleased (m : Machine) : Option Address :=
  match pop m with
  | .ok a m => (m.memory.readWord a).toOption
  | .error _ _ => none

/-- In its next step the program puts back a heap pointer that lies in the program stack. -/
def ReleasesAbove (m : Machine) : Prop :=
  ∃ mark, m.askedIn .release markReleased = some mark ∧ m.psp < mark

theorem level_newBlock : Keeps Level newBlock :=
  keeps_newBlock fun _ _ _ _ given => ⟨rfl, fun _ => (Heap.np_le_of_allocate given).2.2⟩

theorem level_releaseHeap (below : ∀ mark, m.markReleased = some mark → ¬ m.psp < mark) :
    Level m (endState (releaseHeap m)) := by
  unfold markReleased at below
  rcases bind_cases (rfl : releaseHeap m = _) with ⟨e, m₁, popped, hr⟩ | ⟨a, m₁, popped, hr⟩
  · rw [hr]
    exact (works_pop (R := Level)).of_error popped
  · rw [popped] at below
    have silent : Silent m m₁ := Keeps.of_ok popped
    have psp : m₁.psp = m.psp := by rw [silent.rest]
    refine IsTrans.trans (r := Level) _ m₁ _ ((works_pop (R := Level)).of_ok popped) ?_
    rcases reading_bind_cases hr with ⟨e, -, hr⟩ | ⟨mark, read, hr⟩
    · rw [hr]
      exact Std.Refl.refl m₁
    rcases orFault_bind_cases hr with ⟨e, -, hr⟩ | ⟨heap, put, hr⟩
    · rw [hr]
      exact Std.Refl.refl m₁
    · rw [← hr]
      refine ⟨rfl, fun _ => ?_⟩
      -- The heap becomes the mark, which the caller knows to be no higher than the stack pointer.
      have np : heap.np = mark := by
        unfold Heap.release at put
        split at put
        · cases put
        · cases put
          rfl
      show heap.np ≤ m₁.psp
      rw [np, psp]
      refine UInt16.not_lt.1 (below mark ?_)
      show (m₁.memory.readWord a).toOption = some mark
      rw [read]
      rfl

/-! ## Shifts -/

/-- Nothing happened to frames and code. -/
structure Stays (above : Prop) (m m' : Machine) : Prop where
  upright : m'.Upright
  activations : m'.activations = m.activations
  segments : m'.segments = m.segments
  psp : m'.psp = m.psp
  depth : m'.depth = m.depth
  heap : ¬ above → m.heap.np ≤ m.psp → m'.heap.np ≤ m'.psp

/-- What can happen to frames and code between calls.  The heap pointer crosses the program stack
only if `above` holds. -/
inductive Shift (above : Prop) (m : Machine) : Machine → Prop
  | stays {m' : Machine} : Stays above m m' → Shift above m m'
  | load {m' : Machine} {n : UInt8} : loadSegment n m = .ok () m' → Shift above m m'
  | release {n : UInt8} {s : Segment} : n ≠ 0 → m.segments.get? n = some s → s.isResident = true →
    Shift above m (m.afterRelease n s)
  | reclaim : Shift above m m.reclaimed
  | back {entry : Address} : 0 < m.depth → entryOf m.memory m.callerFrom.jtab = .ok entry →
    Shift above m (m.backAt m.callerFrom entry)

/-- Any number of shifts. -/
abbrev Shifts (above : Prop) : Machine → Machine → Prop :=
  Relation.ReflTransGen (Shift above)

/-- Shifts, and one call after them at most. -/
inductive Passes (above : Prop) (m m' : Machine) : (made : List Call) → Prop
  | goesOn : Shifts above m m' → Passes above m m' []
  | enters {m₁ m₂ : Machine} {segment : UInt8} {c : Call} :
    Shifts above m m₁ → Made segment c m₁ m₂ → Noted m₂ m' → Passes above m m' [c]

theorem Upright.backAt (upright : m.Upright) (active : 0 < m.depth) {entry : Address}
    (found : entryOf m.memory m.callerFrom.jtab = .ok entry) :
    (m.backAt m.callerFrom entry).Upright ∧
      m.activations = m.current :: (m.backAt m.callerFrom entry).activations := by
  obtain ⟨n, depth⟩ : ∃ n, m.depth = n + 1 := ⟨m.depth - 1, by omega⟩
  have less : m.depth - 1 = n := by omega
  have settles : Settles m (m.backAt m.callerFrom entry) :=
    Settles.of_same rfl rfl rfl rfl rfl rfl
  have secure := (settles upright.secure).1
  have rooted := upright.rooted
  rw [depth] at rooted
  obtain ⟨low, -, -, -, -, rest⟩ := rooted
  have caller : (m.backAt m.callerFrom entry).current = m.current.caller m.memory := rfl
  have split_ : m.activations = m.current :: (m.backAt m.callerFrom entry).activations :=
    (upright.chain_back depth less caller rfl fun _ => rfl).1
  refine ⟨upright.back depth secure less rfl rfl (fun _ => rfl) (fun some_ => ?_) (fun out => ?_),
    split_⟩
  · -- a caller that is something has a frame above the current one
    cases n with
    | zero => exact absurd (congrArg Activation.frame (show _ = Activation.nothing from rest)) some_
    | succ n =>
      have above := rest.1
      show m.psp.toNat ≤ (m.current.caller m.memory).frame.toNat
      omega
  · obtain ⟨entry', found', zero⟩ := upright.exists_entry active
    cases found.symm.trans found'
    exact ⟨rfl, zero (by omega)⟩

theorem Shift.upright (upright : m.Upright) (h : Shift above m m') : m'.Upright := by
  cases h with
  | stays stays => exact stays.upright
  | load loaded =>
    rcases upright.loadSegment_cases loaded with ⟨e, failed⟩ | ⟨_, eq, upright', -⟩
    · cases failed
    · cases eq
      exact upright'
  | release other hs resident => exact (upright.afterRelease hs resident other).1
  | reclaim => exact upright.reclaimed.1
  | back active found => exact (upright.backAt active found).1

theorem Shifts.upright (upright : m.Upright) (h : Shifts above m m') : m'.Upright := by
  induction h with
  | refl => exact upright
  | tail _ shift ih => exact shift.upright ih

theorem Passes.after (h : Shifts above m m₁) (h' : Passes above m₁ m' made) :
    Passes above m m' made := by
  cases h' with
  | goesOn shifts => exact .goesOn (h.trans shifts)
  | enters shifts entered noted => exact .enters (h.trans shifts) entered noted

/-! ## Work -/

theorem Upright.stays_of_quiet (upright : m.Upright) (quiet : Quiet m m') (active : 0 < m.depth)
    (links : Activation.Rooted m'.memory m.depth m.psp.toNat m.current ∧
      Activation.chain m'.memory m.depth m.current = m.activations)
    (level : ¬ above → Level m m') : Stays above m m' := by
  have current : m'.current = m.current := by
    unfold Machine.current
    rw [quiet.mp, quiet.seg, quiet.jtab]
  obtain ⟨upright', same⟩ := upright.carried ((Settles.of_quiet quiet) upright.secure).1 quiet.depth
    current (fun _ => quiet.psp ▸ upright.psp_le active)
    (fun outermost => absurd outermost (by omega)) links
  exact ⟨upright', same, quiet.segments, quiet.psp, quiet.depth, fun free => (level free).2⟩

theorem Upright.stays_of_beside (upright : m.Upright) (beside : Beside m m')
    (settles : Settles m m') (level : Level m m') : Stays above m m' := by
  obtain ⟨upright', same⟩ := upright.carried (settles upright.secure).1 beside.depth beside.current
    (fun active => beside.psp ▸ upright.psp_le active) (fun _ => ⟨beside.ipc, beside.ipcBase⟩)
    (upright.rooted.beside beside.order beside.bytes)
  exact ⟨upright', same, beside.segments, beside.psp, beside.depth, fun _ => level.2⟩

theorem Upright.stays_of_silent (upright : m.Upright) (silent : Silent m m') (active : 0 < m.depth) :
    Stays above m m' := by
  refine upright.stays_of_quiet silent.quiet active ?_ fun _ => ?_
  · rw [silent.memory]
    exact ⟨upright.rooted, rfl⟩
  · rw [silent.rest]
    exact ⟨rfl, id⟩

theorem Upright.stays_of_noted (upright : m.Upright) (noted : Noted m m') : Stays above m m' := by
  have noted : m' = _ := noted
  refine upright.stays_of_beside (Beside.of_same ?_ ?_ ?_ ?_ ?_ ?_ ?_ ?_ ?_)
    (Settles.of_same ?_ ?_ ?_ ?_ ?_ ?_) ⟨?_, ?_⟩
  all_goals
    rw [noted]
    try rfl
  exact id

theorem Upright.stays_of_observe (upright : m.Upright) (host : HostView) :
    Stays above m (m.observe host) :=
  upright.stays_of_beside (Beside.observe m host) (Settles.observe m host) ⟨rfl, id⟩

theorem Stays.shifts (h : Stays above m m') : Shifts above m m' :=
  .single (.stays h)

/-! ## Calls -/

/-- An outcome that is reached so.  There is a call only if nothing failed after it. -/
def Yields {ε : Type} (above : Prop) (m : Machine) (r : EStateM.Result ε Machine α)
    (made : List Call) : Prop :=
  (made ≠ [] → succeeded r = true) ∧ Passes above m (endState r) made

theorem Yields.of_shifts {ε : Type} {r : EStateM.Result ε Machine α}
    (h : Shifts above m (endState r)) : Yields above m r [] :=
  ⟨absurd rfl, .goesOn h⟩

theorem Yields.after {ε : Type} {r : EStateM.Result ε Machine α} (h : Shifts above m m₁)
    (h' : Yields above m₁ r made) : Yields above m r made :=
  ⟨h'.1, h'.2.after h⟩

/-- Only the state and the success of an outcome count. -/
theorem Yields.congr {ε ε' β : Type} {r : EStateM.Result ε Machine α}
    {r' : EStateM.Result ε' Machine β} (h : Yields above m r made)
    (state : endState r' = endState r) (ok : succeeded r' = succeeded r) :
    Yields above m r' made :=
  ⟨ok ▸ h.1, state ▸ h.2⟩

/-- A call that makes no frame changes nothing but bytes. -/
theorem Upright.stays_of_call (upright : m.Upright)
    (host : m.CallsHost segment procedure →
      m.HeadersIn (endState (call segment procedure m)).memory)
    (unmade : ∀ m', call segment procedure m ≠ .ok .entered m') :
    Stays above m (endState (call segment procedure m)) := by
  rcases upright.call_cases host rfl with ⟨-, upright', same, S, confined⟩ | ⟨jtab, p, m', eq, -⟩
  · have rest := confined.rest
    refine ⟨upright', same, ?_, ?_, ?_, fun _ => ?_⟩
    all_goals
      rw [rest]
    exact id
  · exact absurd eq (unmade m')

theorem Upright.yields_call (upright : m.Upright)
    (host : m.CallsHost segment procedure →
      m.HeadersIn (endState (call segment procedure m)).memory) :
    Yields above m (call segment procedure m) (callMade segment procedure m).toList := by
  by_cases entered : ∃ m', call segment procedure m = .ok .entered m'
  · obtain ⟨m', called⟩ := entered
    obtain ⟨c, noted, made⟩ := made_of_call upright.secure called
    rw [noted, called]
    exact ⟨fun _ => rfl, .enters .refl made rfl⟩
  · rw [not_exists] at entered
    rw [callMade_of_not_entered entered]
    exact .of_shifts (upright.stays_of_call host entered).shifts

/-- What leaving a segment does, however it ends. -/
theorem shifts_leaveSegment (other : n ≠ 0) :
    Shifts above m (endState (leaveSegment n m)) := by
  rcases leaveSegment_cases (rfl : leaveSegment n m = _) with
    ⟨⟨e, failed⟩, -⟩ | ⟨s, hs, resident, left⟩
  · rw [failed]
    exact .refl
  · rw [left]
    exact .tail (.single (.release other hs resident)) .reclaim

theorem Upright.shifts_loadSegment (upright : m.Upright) :
    Shifts above m (endState (loadSegment n m)) := by
  rcases upright.loadSegment_cases (rfl : loadSegment n m = _) with
    ⟨e, failed⟩ | ⟨m', loaded, -⟩
  · rw [failed]
    exact .refl
  · rw [loaded]
    exact .single (.load loaded)

theorem Upright.yields_callExternal (upright : m.Upright)
    (host : m.ReachesHost segment procedure →
      m.HeadersIn (endState (callExternal segment procedure m)).memory) :
    Yields above m (callExternal segment procedure m)
      (externalCallMade segment procedure m).toList := by
  rcases callExternal_ends (rfl : callExternal segment procedure m = _) with
    ⟨e, m', away, load, failed⟩ | ⟨loaded, brought, ends⟩
  · have loading : Shifts above m (endState (loadSegment segment m)) := upright.shifts_loadSegment
    rw [load] at loading
    rw [externalCallMade_of_failed away load, failed]
    exact .of_shifts loading
  obtain ⟨there, loading⟩ : loaded.Upright ∧ Shifts above m loaded := by
    rcases brought with ⟨-, load⟩ | ⟨-, rfl⟩
    · rcases upright.loadSegment_cases load with ⟨e, eq⟩ | ⟨_, eq, there, -⟩
      · cases eq
      · cases eq
        exact ⟨there, .single (.load load)⟩
    · exact ⟨upright, .refl⟩
  rw [externalCallMade_of_brings brought]
  rcases ends with ⟨m', called, entered⟩ | ⟨unmade, ended⟩
  · obtain ⟨c, noted, made⟩ := made_of_call there.secure called
    rw [noted, entered]
    exact ⟨fun _ => rfl, .enters loading made rfl⟩
  · -- Without a frame the segment that was brought in is let go of again, and no call is yielded.
    have kept := upright.headersIn_brought brought ended host
    have called := loading.trans (there.stays_of_call kept unmade).shifts
    rw [callMade_of_not_entered unmade]
    refine .of_shifts ?_
    rw [ended]
    by_cases away : m.BringsIn segment
    · rw [letGo_of_bringsIn away]
      exact called.trans (shifts_leaveSegment away.2)
    · rw [letGo_of_here away]
      exact called

/-! ## Standard procedures -/

/-- Operands that are fetched or popped before something else. -/
theorem Upright.yields_bind {β : Type} {x : Run Machine β} {f : β → Exec Unit}
    [silent : Keeps Silent x] (upright : m.Upright) (active : 0 < m.depth)
    (failed : ∀ e m₁, x m = .error e m₁ → made = [])
    (done : ∀ b m₁, x m = .ok b m₁ → Silent m m₁ → m₁.Upright → 0 < m₁.depth →
      Yields above m₁ (f b m₁) made) :
    Yields above m (((liftM x : Exec β) >>= f) m) made := by
  rcases liftM_bind_cases (rfl : ((liftM x : Exec β) >>= f) m = _) with
    ⟨e, m₁, hx, hr⟩ | ⟨b, m₁, hx, hr⟩
  · rw [hr, failed e m₁ hx]
    exact .of_shifts (upright.stays_of_silent (silent.of_error hx) active).shifts
  · have kept : Silent m m₁ := silent.of_ok hx
    have stays : Stays above m m₁ := upright.stays_of_silent kept active
    rw [← hr]
    exact (done b m₁ hx kept stays.upright (stays.depth ▸ active)).after stays.shifts

/-- An instruction that stores nothing in headers is work. -/
theorem Upright.yields_works {x : Exec Unit} (upright : m.Upright) (active : 0 < m.depth)
    (works : Keeps Works x) (kept : m.HeadersIn (endState (x m)).memory)
    (level : ¬ above → Level m (endState (x m))) : Yields above m (x m) [] := by
  have quiet : Quiet m (endState (x m)) := (quiet_of_works x).related m
  exact .of_shifts (upright.stays_of_quiet quiet active (upright.links quiet.memory.order kept)
    level).shifts

theorem Upright.yields_exitNamed (upright : m.Upright) (active : 0 < m.depth) :
    Yields above m (exitNamed m) [] := by
  apply upright.yields_bind active (fun _ _ _ => rfl)
  intro procedure m₁ _ _ upright₁ active₁
  apply upright₁.yields_bind active₁ (fun _ _ _ => rfl)
  intro segment m₂ _ _ upright₂ active₂
  have works := works_exitProcedure (R := Works) segment.toUInt8 procedure.toUInt8
  have level := works_exitProcedure (R := Level) segment.toUInt8 procedure.toUInt8
  exact .of_shifts (upright₂.stays_of_quiet ((quiet_of_works _).related m₂) active₂
    (upright₂.links_exitProcedure active₂) fun _ => level.related m₂).shifts

theorem Upright.yields_getseg (upright : m.Upright) (active : 0 < m.depth) :
    Yields above m (perform .getseg m) [] := by
  apply upright.yields_bind active (fun _ _ _ => rfl)
  intro w m₁ _ _ upright₁ _
  refine .of_shifts ?_
  rw [endState_liftM]
  exact upright₁.shifts_loadSegment

theorem Upright.yields_relseg (upright : m.Upright) (active : 0 < m.depth) :
    Yields above m (perform .relseg m) [] := by
  have unfolded : perform .relseg m = ((liftM pop : Exec Word) >>= fun w =>
      liftM (if w.toUInt8 ≠ 0 then leaveSegment w.toUInt8 else pure ())) m :=
    liftM_bind_apply pop _ m
  rw [unfolded]
  apply upright.yields_bind active (fun _ _ _ => rfl)
  intro w m₁ _ _ _ _
  refine .of_shifts ?_
  rw [endState_liftM]
  split
  · exact shifts_leaveSegment ‹_›
  · exact .refl

theorem level_perform (procedure : StandardProcedure) (plain : procedure.manages = false)
    (below : ∀ mark, procedure = .release → m.markReleased = some mark → ¬ m.psp < mark) :
    Level m (endState (perform procedure m)) := by
  by_cases releases : procedure = .release
  · subst releases
    show Level m (endState ((liftM releaseHeap : Exec Unit) m))
    rw [endState_liftM]
    exact level_releaseHeap fun mark => below mark rfl
  · exact (keeps_perform procedure plain (fun _ => level_newBlock)
      (fun here => absurd here releases) (works_reports procedure)).related m

theorem Upright.yields_perform (upright : m.Upright) (active : 0 < m.depth)
    (procedure : StandardProcedure)
    (kept : procedure.manages = false → m.HeadersIn (endState (perform procedure m)).memory)
    (below : ¬ above → ∀ mark, procedure = .release → m.markReleased = some mark →
      ¬ m.psp < mark) : Yields above m (perform procedure m) [] := by
  by_cases plain : procedure.manages = false
  · exact upright.yields_works active (works_perform procedure plain) (kept plain)
      fun free => level_perform procedure plain (below free)
  · cases procedure with
    | exit => exact upright.yields_exitNamed active
    | getseg => exact upright.yields_getseg active
    | relseg => exact upright.yields_relseg active
    | _ => exact absurd rfl plain

/-! ## Returns -/

/-- The way back to the caller is taken, also if the segment that is left is missing. -/
theorem Upright.shifts_resume (upright : m.Upright) (active : 0 < m.depth) :
    Shifts above m (endState (resume m.callerFrom m)) := by
  obtain ⟨entry, found, -⟩ := upright.exists_entry active
  have back : Shifts above m (m.backAt m.callerFrom entry) := .single (.back active found)
  rcases resume_cases (rfl : resume m.callerFrom m = _) with
    ⟨e, fault, -⟩ | ⟨entry', found', outcome⟩
  · cases found.symm.trans fault
  cases found.symm.trans found'
  rcases outcome with ⟨-, eq⟩ | ⟨leaves, ⟨⟨e, eq⟩, -⟩ | ⟨s, hs, resident, eq⟩⟩
  · rw [eq]
    exact back.tail .reclaim
  · rw [eq]
    exact back
  · rw [eq]
    exact (back.tail (.release leaves.2 hs resident)).tail .reclaim

/-- Work on the evaluation stack and on the base register. -/
def Drifts (above : Prop) (m m' : Machine) : Prop :=
  m.Upright → Shifts above m m'

instance : IsPreorder Machine (Drifts above) where
  refl _ _ := .refl
  trans _ _ _ h h' upright := (h upright).trans (h' ((h upright).upright upright))

instance drifts_of_beside {ε : Type} (x : EStateM ε Machine α) [beside : Keeps Beside x]
    [settles : Keeps Settles x] [level : Keeps Level x] : Keeps (Drifts above) x :=
  ⟨fun m upright =>
    (upright.stays_of_beside (beside.related m) (settles.related m) (level.related m)).shifts⟩

instance level_restoreBase : Keeps Level restoreBase :=
  keeps_restoreBase fun _ _ _ => ⟨rfl, id⟩

instance drifts_handOver (values : List Word) (baseProcedure : Bool) :
    Keeps (Drifts above) (handOver values baseProcedure) := by
  have pushed (values : List Word) := beside_onStore (Store.pushBlock values)
  have restored : Keeps (Drifts above) restoreBase := drifts_of_beside _
  have halting (m : Machine) : Noted m { m with halted := true } := rfl
  exact keeps_handOver
    (fun m upright => (upright.stays_of_noted (halting m)).shifts) values baseProcedure

theorem Upright.yields_returnFrom (upright : m.Upright) (active : 0 < m.depth) (results : UInt8)
    (baseProcedure : Bool) : Yields above m (returnFrom results baseProcedure m) [] := by
  have resumed : Shifts above m (endState (resume m.callerFrom m)) := upright.shifts_resume active
  refine .of_shifts ?_
  rcases returnFrom_cases (rfl : returnFrom results baseProcedure m = _) with
    ⟨e, eq, -⟩ | ⟨caller, values, hc, -, outcome⟩
  · rw [eq]
    exact .refl
  cases (upright.readCaller active).symm.trans hc
  rcases outcome with ⟨e, m₁, failed, eq⟩ | ⟨m₁, back, eq⟩
  · rw [failed] at resumed
    rw [eq]
    exact resumed
  · rw [back] at resumed
    rw [← eq]
    exact resumed.trans ((drifts_handOver values baseProcedure).related m₁ (resumed.upright upright))

/-! ## Instructions -/

theorem Upright.yields_callHere (upright : m.Upright) (active : 0 < m.depth)
    (kept : m.StoresBy (.table .clp) → m.HeadersIn (endState (callHere m)).memory) :
    Yields above m ((liftM callHere : Exec Unit) m) (m.callsBy [] (.table .clp)) := by
  unfold callHere
  rw [liftM_bind_apply]
  unfold callsBy
  apply upright.yields_bind active
  · intro e m₁ failed
    rw [failed]
  intro procedure m₁ fetched silent upright₁ _
  rw [fetched]
  dsimp only
  rw [List.append_nil]
  obtain ⟨state, ok⟩ := callHere_rest procedure m₁
  have whole : endState (callHere m) = endState (call m₁.seg procedure m₁) :=
    (congrArg endState (bind_of_ok fetched)).trans state
  rw [whole] at kept
  exact (upright₁.yields_call fun host =>
    silent.headersIn (kept ⟨procedure, m₁, fetched, host⟩)).congr
      ((endState_liftM _ _).trans state) ((succeeded_liftM _ _).trans ok)

theorem Upright.yields_cxp (upright : m.Upright) (active : 0 < m.depth)
    (kept : m.StoresBy (.table .cxp) → m.HeadersIn (endState (executeTable .cxp m)).memory) :
    Yields above m (executeTable .cxp m) (m.callsBy [] (.table .cxp)) := by
  unfold callsBy
  -- Two operands are fetched; a fetch that fails yields nothing.
  apply upright.yields_bind active
  · intro e m₁ failed
    rw [failed]
  intro segment m₁ first silent₁ upright₁ active₁
  rw [first]
  dsimp only
  apply upright₁.yields_bind active₁
  · intro e m₂ failed
    rw [failed]
  intro procedure m₂ second silent₂ upright₂ _
  rw [second]
  dsimp only
  have silent : Silent m m₂ := IsTrans.trans _ _ _ silent₁ silent₂
  have whole : executeTable .cxp m = (liftM (callExternal segment procedure) : Exec Unit) m₂ :=
    (liftM_bind_of_ok first).trans (liftM_bind_of_ok second)
  rw [whole, endState_liftM] at kept
  rw [List.append_nil]
  exact (upright₂.yields_callExternal fun host => silent.headersIn
    (kept ⟨segment, m₁, procedure, m₂, first, second, host⟩)).congr
      (endState_liftM _ _) (succeeded_liftM _ _)

theorem callsBy_csp (m : Machine) : m.callsBy [] (.table .csp) = [] := by
  have none (m : Machine) : m.callsExited [] = [] := by
    unfold callsExited
    split
    · split
      · split <;> rfl
      · rfl
    · rfl
  show (match fetchByte m with
    | .ok code m => if StandardProcedure.ofCode? code = some .exit then m.callsExited [] else []
    | .error _ _ => []) = []
  split
  · split
    · exact none _
    · rfl
  · rfl

theorem Upright.yields_callStandard (upright : m.Upright) (active : 0 < m.depth)
    (kept : m.StoresBy (.table .csp) → m.HeadersIn (endState (callStandard m)).memory)
    (below : ¬ above → ∀ mark, m.askedBy .release markReleased (.table .csp) = some mark →
      ¬ m.psp < mark) :
    Yields above m (callStandard m) (m.callsBy [] (.table .csp)) := by
  rw [callsBy_csp]
  unfold askedBy at below
  apply upright.yields_bind active (fun _ _ _ => rfl)
  intro code m₁ fetched silent upright₁ active₁
  have ended : callStandard m = _ := liftM_bind_of_ok fetched
  rw [ended] at kept
  rw [fetched] at below
  cases found : StandardProcedure.ofCode? code with
  | none => exact .of_shifts .refl
  | some procedure =>
    simp only [found] at kept below ⊢
    refine upright₁.yields_perform active₁ procedure
      (fun plain => silent.headersIn (kept ⟨code, m₁, procedure, fetched, found, plain⟩)) ?_
    rintro free mark rfl released
    have psp : m₁.psp = m.psp := by rw [silent.rest]
    rw [psp]
    exact below free mark ((if_pos rfl).trans released)

theorem Upright.yields_executeTable (upright : m.Upright) (active : 0 < m.depth) (op : Opcode)
    (kept : m.StoresBy (.table op) → m.HeadersIn (endState (executeTable op m)).memory)
    (below : ¬ above → ∀ mark, m.askedBy .release markReleased (.table op) = some mark →
      ¬ m.psp < mark) :
    Yields above m (executeTable op m) (m.callsBy [] (.table op)) := by
  by_cases plain : op.transfers = false
  · have none : m.callsBy [] (.table op) = [] := by
      cases op with
      | clp | cgp | cip | cbp | cxp | rnp | rbp | csp => cases plain
      | _ => rfl
    rw [none]
    exact upright.yields_works active (works_executeTable op plain)
      (kept (storesBy_of_quiet plain)) fun _ => (works_executeTable (R := Level) op plain).related m
  · -- The four calls within a segment are one case and the two returns another.
    have here (kept : m.StoresBy (.table .clp) →
        m.HeadersIn (endState ((liftM callHere : Exec Unit) m)).memory) :
        Yields above m ((liftM callHere : Exec Unit) m) (m.callsBy [] (.table .clp)) := by
      rw [endState_liftM] at kept
      exact upright.yields_callHere active kept
    have back (base : Bool) : Yields above m ((do returnFrom (← fetchByte) base : Exec Unit) m)
        (if m.returns then [] else []) := by
      rw [ite_self]
      exact upright.yields_bind active (fun _ _ _ => rfl)
        fun results m₁ _ _ upright₁ active₁ => upright₁.yields_returnFrom active₁ results base
    cases op with
    | clp | cgp | cip | cbp => exact here kept
    | cxp => exact upright.yields_cxp active kept
    | rnp | rbp => exact back _
    | csp => exact upright.yields_callStandard active kept below
    | _ => exact absurd rfl plain

theorem Upright.yields_execute (upright : m.Upright) (active : 0 < m.depth) (opcode : UInt8)
    (kept : m.StoresBy (Encoding.ofCode opcode) → m.HeadersIn (endState (execute opcode m)).memory)
    (below : ¬ above → ∀ mark, m.askedBy .release markReleased (Encoding.ofCode opcode) = some mark →
      ¬ m.psp < mark) :
    Yields above m (execute opcode m) (m.callsBy [] (Encoding.ofCode opcode)) := by
  unfold execute at kept ⊢
  revert kept below
  cases Encoding.ofCode opcode with
  | shortConstant n | shortLocal n | shortGlobal n | shortIndirect n =>
    intro kept _
    exact upright.yields_works active inferInstance (kept trivial)
      fun _ => Keeps.related (R := Level) m
  | unused code =>
    intro kept _
    exact .of_shifts .refl
  | table op =>
    intro kept below
    exact upright.yields_executeTable active op kept below

theorem Upright.yields_executeNext (upright : m.Upright)
    (kept : m.Stores → m.HeadersIn (endState (executeNext m)).memory)
    (below : ¬ above → ∀ mark, m.askedNext .release markReleased = some mark → ¬ m.psp < mark) :
    Yields above m (executeNext m) (m.callsNext []) := by
  unfold callsNext
  unfold askedNext at below
  cases fetched : fetchByte m with
  | error e m₁ =>
    have ended : executeNext m = _ := liftM_bind_of_error fetched
    rw [ended]
    refine .of_shifts ?_
    -- at the outermost level there is nothing to fetch
    rcases Nat.eq_zero_or_pos m.depth with outermost | active
    · cases fetched.symm.trans (upright.fetchByte_idle outermost)
      exact .refl
    · have silent : Silent m m₁ := Keeps.of_error fetched
      exact (upright.stays_of_silent silent active).shifts
  | ok opcode m₁ =>
    have active := upright.active_of_fetchByte fetched
    have silent : Silent m m₁ := Keeps.of_ok fetched
    have stays : Stays above m m₁ := upright.stays_of_silent silent active
    have ended : executeNext m = _ := liftM_bind_of_ok fetched
    rw [ended] at kept ⊢
    rw [fetched] at below
    refine Yields.after stays.shifts ?_
    exact stays.upright.yields_execute (stays.depth ▸ active) opcode
      (fun stores => silent.headersIn (kept ⟨opcode, m₁, fetched, stores⟩))
      fun free mark released => stays.psp ▸ below free mark released

/-! ## Traps and steps -/

theorem Yields.noted {ε : Type} {a : α} (upright : m.Upright)
    (h : Yields above m (.ok a m₁ : EStateM.Result ε _ _) made) (noted : Noted m₁ m₂) :
    Yields above m (.ok a m₂ : EStateM.Result ε _ _) made := by
  refine ⟨fun _ => rfl, ?_⟩
  cases h.2 with
  | goesOn shifts =>
    exact .goesOn (shifts.trans ((Shifts.upright upright shifts).stays_of_noted noted).shifts)
  | enters shifts entered noted' => exact .enters shifts entered (noted'.trans noted)

theorem Upright.shifts_recordTrap (upright : m.Upright) (fault : Fault) :
    Shifts above m (endState (onMemory (Syscom.recordTrap fault m.currentAddress m.mp) m)) := by
  have drifts : Keeps (Drifts above)
      (onMemory (Syscom.recordTrap fault m.currentAddress m.mp)) := drifts_of_beside _
  exact drifts.related m upright

theorem Upright.yields_deliver (upright : m.Upright) (fault : Fault) :
    Yields above m (deliver fault m) (if succeeded (deliver fault m) then
      callMade 0 handlerProcedure (m.announced fault) else none).toList := by
  have recording : Shifts above m _ := upright.shifts_recordTrap fault
  rcases deliver_cases fault m with
    ⟨-, eq⟩ | ⟨-, -, eq⟩ | ⟨-, -, -, ⟨e, m₁, recorded, eq⟩ | ⟨-, eq⟩⟩
  · rw [eq]
    exact .of_shifts .refl
  · rw [eq]
    exact .of_shifts .refl
  · rw [recorded] at recording
    rw [eq]
    exact .of_shifts recording
  · -- Announcing a fault records it in memory and notes its depth; only then is the handler called.
    have noting : Noted (endState (onMemory (Syscom.recordTrap fault m.currentAddress m.mp) m))
        (m.announced fault) := rfl
    have announcing : Shifts above m (m.announced fault) :=
      recording.trans ((recording.upright upright).stays_of_noted noting).shifts
    have there := announcing.upright upright
    have called : Yields above (m.announced fault) (call 0 handlerProcedure (m.announced fault)) _ :=
      there.yields_call fun host => by
        rw [call_unbound there.secure.hosted host (by decide)]
        exact fun _ _ _ _ => rfl
    obtain ⟨state, ok, noted⟩ := deliver_handed eq
    rw [noted]
    exact (called.congr state ok).after announcing

theorem Upright.yields_conclude (upright : m.Upright) (stop : Stop) :
    Yields above m (conclude (.error stop) m) (handlerCall m stop).toList := by
  have nothing : Yields above m (.ok () m : EStateM.Result Stop _ _) [] := .of_shifts .refl
  cases stop with
  | panic cause => exact .of_shifts .refl
  | boot failure => exact .of_shifts .refl
  | endless => exact .of_shifts .refl
  | trap fault =>
    -- A halt and a breakpoint are noted in the machine; every other fault is delivered.
    by_cases deliverable : fault.Deliverable
    · have delivered : Yields above m (deliver fault m) _ := upright.yields_deliver fault
      rw [conclude_trap deliverable, handlerCall_trap deliverable]
      rcases bind_cases (rfl : (deliver fault >>= fun _ => modify record) m = _) with
        ⟨e, m₁, failed, hr⟩ | ⟨u, m₁, done, hr⟩
      · rw [failed] at delivered ⊢
        rw [hr]
        exact delivered
      · rw [done] at delivered ⊢
        rw [← hr]
        exact delivered.noted upright (noted_record m₁)
    · cases fault with
      | halt =>
        have halted : Noted m { m with halted := true } := rfl
        exact nothing.noted upright (halted.trans (noted_record _))
      | breakpoint line => exact .of_shifts (upright.stays_of_noted (noted_record m)).shifts
      | _ => exact absurd ⟨nofun, nofun⟩ deliverable

/-- A step that leaves headers alone is made of shifts, with the call that it makes after them. -/
theorem Upright.passes_step (upright : m.Upright) (kept : m.LeavesHeaders) :
    Passes m.ReleasesAbove m (endState (step m)) (m.callsAfter []) := by
  unfold step callsAfter
  by_cases halted : m.halted = true
  · simp only [if_pos halted]
    exact .goesOn .refl
  · simp only [if_neg halted]
    have headers := kept (by simpa using halted)
    have preparing : Stays m.ReleasesAbove m m.prepare := upright.stays_of_noted rfl
    have executed : Yields m.ReleasesAbove m.prepare (executeNext m.prepare) _ :=
      preparing.upright.yields_executeNext headers fun free mark released below =>
        free ⟨mark, (if_neg halted).trans released, below⟩
    refine Passes.after preparing.shifts ?_
    cases hx : executeNext m.prepare with
    | ok u m₁ =>
      rw [hx] at executed
      have counted : Noted m₁ { m₁ with instructions := m₁.instructions + 1 } := rfl
      exact (executed.noted preparing.upright (counted.trans (noted_record _))).2
    | error stop m₁ =>
      rw [hx] at executed
      -- an instruction that failed made no call
      have unmade : m.prepare.callsNext [] = [] := by
        by_contra made
        cases executed.1 made
      rw [unmade] at executed ⊢
      have counted : Noted m₁ { m₁ with instructions := m₁.instructions + 1 } := rfl
      obtain ⟨-, shifts⟩ := executed
      cases shifts with
      | goesOn shifts =>
        have stays : Stays m.ReleasesAbove m₁ { m₁ with instructions := m₁.instructions + 1 } :=
          (shifts.upright preparing.upright).stays_of_noted counted
        have concluded : Yields m.ReleasesAbove _ _ _ := stays.upright.yields_conclude stop
        dsimp only
        rw [List.append_nil]
        exact (concluded.2.after stays.shifts).after shifts

end Machine
end PSystem
