import Mathlib.Data.Fintype.Card
import Mathlib.Data.Fintype.Pigeonhole
import PSystem.Proofs.ExitUnwinding
import PSystem.Proofs.HeapBounds

/-!
# Which steps finish

All loops of the machine but one are over operands, lists or bits.  The one is the search of EXIT,
which follows the dynamic links that it finds in memory: it ends at a frame of the procedure, at a
frame without a caller or at an address that cannot be read, and if links run in a circle without
any of these it does not end.  There are no other steps that do not finish (`step_finishes_iff`).

An address space is small, so a search that has not ended after 65536 frames goes on for ever
(`endless_of_long`), which is what the bound on the walk of the machine stands for.  As long as a
program leaves the headers of frames alone, links lead outward and all steps finish
(`Visits.step_finishes`).
-/

namespace PSystem

/-! ## Following links -/

section Links

variable {α : Type} {next : α → Option α} {a b : α} {i n : Nat}

/-- Where `n` links lead, if there are so many. -/
def linked (next : α → Option α) : Nat → α → Option α
  | 0, a => some a
  | n + 1, a => (next a).bind (linked next n)

/-- Each link leads to another one. -/
def Endless (next : α → Option α) (a : α) : Prop :=
  ∀ n, (linked next n a).isSome

theorem linked_add : linked next (i + n) a = (linked next i a).bind (linked next n) := by
  induction i generalizing a with
  | zero => rw [Nat.zero_add, linked, Option.bind_some]
  | succ i ih =>
    rw [Nat.add_right_comm, linked, linked, Option.bind_assoc]
    exact congrArg (next a).bind (funext fun b => ih)

theorem linked_of_le (h : (linked next n a).isSome) (le : i ≤ n) : (linked next i a).isSome := by
  obtain ⟨k, rfl⟩ := Nat.exists_eq_add_of_le le
  rw [linked_add] at h
  exact Option.isSome_of_isSome_bind h

/-- Links that lead to an endless walk are one. -/
theorem Endless.of_linked (there : linked next i a = some b) (h : Endless next b) :
    Endless next a := by
  intro n
  have further : (linked next (i + n) a).isSome := by
    rw [linked_add, there]
    exact h n
  exact linked_of_le further (Nat.le_add_left n i)

/-- Links that lead back go round for ever. -/
theorem endless_of_circle (positive : 0 < i) (back : linked next i a = some a) :
    Endless next a := by
  intro n
  induction n using Nat.strong_induction_on with
  | _ n ih =>
    -- within a round there are links, and after it the walk is where it was
    by_cases within : n ≤ i
    · exact linked_of_le (Option.isSome_of_eq_some back) within
    · obtain ⟨k, rfl⟩ := Nat.exists_eq_add_of_le (Nat.le_of_not_le within)
      rw [linked_add, back]
      exact ih k (by omega)

/-- Links that go on for longer than there are places lead to the same place again. -/
theorem circle_of_long {next : Address → Option Address} {a : Address}
    (long : (linked next 0x10000 a).isSome) :
    ∃ i j b, i < j ∧ linked next i a = some b ∧ linked next j a = some b := by
  have present (k : Fin 0x10001) : (linked next k a).isSome :=
    linked_of_le long (Nat.le_of_lt_succ k.isLt)
  -- among so many places two are the same
  obtain ⟨i, j, other, same⟩ := Fintype.exists_ne_map_eq_of_card_lt
    (fun k : Fin 0x10001 => ((linked next k a).get (present k)).toFin) (by simp)
  wlog less : i < j generalizing i j
  · exact this j i other.symm same.symm (lt_of_le_of_ne (not_lt.1 less) other.symm)
  obtain ⟨b, here⟩ := Option.isSome_iff_exists.1 (present i)
  obtain ⟨c, there⟩ := Option.isSome_iff_exists.1 (present j)
  obtain rfl : b = c := UInt16.toFin_inj.1 (by simpa [here, there] using same)
  exact ⟨i, j, b, less, here, there⟩

/-- A walk is endless if it comes to some place twice. -/
theorem endless_of_twice {j : Nat} (less : i < j) (here : linked next i a = some b)
    (there : linked next j a = some b) : Endless next a := by
  obtain ⟨d, rfl⟩ := Nat.exists_eq_add_of_lt less
  refine .of_linked here (endless_of_circle (Nat.succ_pos d) ?_)
  rw [Nat.add_assoc, linked_add, here] at there
  exact there

theorem endless_of_long {next : Address → Option Address} {a : Address}
    (long : (linked next 0x10000 a).isSome) : Endless next a := by
  obtain ⟨i, j, b, less, here, there⟩ := circle_of_long long
  exact endless_of_twice less here there

end Links

namespace Machine

variable {m m' : Machine} {memory : Memory} {segment procedure : UInt8} {fuel : Nat} {mp : Address}
  {found : List (Address × Address)}

/-! ## The search of EXIT -/

/-- A search for an activation of a procedure among the callers, from a frame on. -/
structure ExitSearch where
  memory : Memory
  segment : UInt8
  procedure : UInt8
  start : Address

namespace ExitSearch

/-- The frame at which the search goes on after the one at `mp`. -/
def next (search : ExitSearch) (mp : Address) : Option Address :=
  match exitLook search.memory search.segment search.procedure mp with
  | .ok (_, next) => next
  | .error _ => none

/-- The frame that the search comes to after `n` others. -/
def after (search : ExitSearch) (n : Nat) : Option Address :=
  linked search.next n search.start

/-- The search does not come to an end. -/
def Endless (search : ExitSearch) : Prop :=
  ∀ n, (search.after n).isSome

/-- The walk of the machine gives up only if the search goes on for so long. -/
theorem exitFrames_endless (search : ExitSearch) :
    exitFrames search.memory search.segment search.procedure fuel mp found = .error .endless ↔
      (linked search.next fuel mp).isSome := by
  -- the walk takes one link for each unit of fuel
  induction fuel generalizing mp found with
  | zero => simp [exitFrames, linked]
  | succ fuel ih =>
    rw [exitFrames, linked, next]
    cases exitLook search.memory search.segment search.procedure mp with
    | error e => simp
    | ok look =>
      obtain ⟨jtab, _ | mp'⟩ := look
      · simp
      · exact ih

/-- The search does not end if it comes to a frame for the second time, and only then. -/
theorem endless_iff (search : ExitSearch) :
    search.Endless ↔ ∃ i j mp, i < j ∧ search.after i = some mp ∧ search.after j = some mp :=
  ⟨fun endless => circle_of_long (endless 0x10000),
    fun ⟨_, _, _, less, here, there⟩ => endless_of_twice less here there⟩

/-- A search ends soon or not at all. -/
theorem endless_or_ends (search : ExitSearch) :
    search.Endless ∨ ∃ n ≤ 0x10000, search.after n = none := by
  by_cases long : (search.after 0x10000).isSome
  · exact .inl (endless_of_long long)
  · exact .inr ⟨0x10000, Nat.le_refl _, Option.not_isSome_iff_eq_none.1 long⟩

/-- So the bound of the machine's walk cuts off no search that ends. -/
theorem exitFrames_endless_iff (search : ExitSearch) :
    exitFrames search.memory search.segment search.procedure longestChain search.start [] =
      .error .endless ↔ search.Endless := by
  rw [exitFrames_endless]
  constructor
  · intro long
    exact endless_of_long (linked_of_le long (Nat.le_succ 0x10000))
  · intro endless
    exact endless longestChain

end ExitSearch

/-- The search that EXIT makes, the procedure being named by the two top words, unless it is the
current one. -/
def exitSearch (m : Machine) : Option ExitSearch :=
  match pop m with
  | .error _ _ => none
  | .ok procedure m =>
    match pop m with
    | .error _ _ => none
    | .ok segment m =>
      match isTarget m.memory segment.toUInt8 procedure.toUInt8 m.seg m.jtab with
      | .ok false => some ⟨m.memory, segment.toUInt8, procedure.toUInt8, m.mp⟩
      | _ => none

/-! ## Computations that finish -/

section Finishes

variable {α β : Type}

/-- A computation has not come to an end. -/
def hangs : EStateM.Result Stop Machine α → Bool
  | .error .endless _ => true
  | _ => false

@[simp]
theorem hangs_ok (a : α) : hangs (.ok a m) = false := rfl

@[simp]
theorem hangs_trap (fault : Fault) :
    hangs (.error (.trap fault) m : EStateM.Result Stop Machine α) = false := rfl

theorem hangs_error {stop : Stop} :
    hangs (.error stop m : EStateM.Result Stop Machine α) = true ↔ stop = .endless := by
  cases stop <;> simp [hangs]

/-- A computation comes to an end on all machines. -/
class Finishes (x : Exec α) : Prop where
  ends : ∀ m, hangs (x m) = false

namespace Finishes

instance pure (a : α) : Finishes (pure a) :=
  ⟨fun _ => rfl⟩

instance get : Finishes get :=
  ⟨fun _ => rfl⟩

instance set (m : Machine) : Finishes (set m) :=
  ⟨fun _ => rfl⟩

instance modify (f : Machine → Machine) : Finishes (modify f) :=
  ⟨fun _ => rfl⟩

instance trap (fault : Fault) : Finishes (throw (.trap fault) : Exec α) :=
  ⟨fun _ => rfl⟩

instance panic (cause : PanicCause) : Finishes (throw (.panic cause) : Exec α) :=
  ⟨fun _ => rfl⟩

/-- A computation that either succeeds or faults comes to an end. -/
instance raising (x : Run Machine α) : Finishes (liftM x : Exec α) := by
  constructor
  intro m
  cases h : x m with
  | ok a m' => rw [raising_of_ok h, hangs_ok]
  | error e m' => rw [raising_of_error h, hangs_trap]

instance bind (x : Exec α) (f : α → Exec β) [hx : Finishes x] [hf : ∀ a, Finishes (f a)] :
    Finishes (x >>= f) := by
  constructor
  intro m
  rcases bind_cases (rfl : (x >>= f) m = _) with ⟨e, m', h, hr⟩ | ⟨a, m', h, hr⟩
  · have first := hx.ends m
    rw [h] at first
    rw [hr, Bool.eq_false_iff, ne_eq, hangs_error]
    rintro rfl
    cases first
  · rw [← hr]
    exact (hf a).ends m'

instance ite (c : Prop) [Decidable c] (x y : Exec α) [Finishes x] [Finishes y] :
    Finishes (if c then x else y) := by
  split <;> infer_instance

end Finishes

instance finishes_restoreBase : Finishes restoreBase := by
  unfold restoreBase
  infer_instance

instance finishes_handOver (values : List Word) (baseProcedure : Bool) :
    Finishes (handOver values baseProcedure) := by
  unfold handOver
  infer_instance

instance finishes_returnFrom (results : UInt8) (baseProcedure : Bool) :
    Finishes (returnFrom results baseProcedure) := by
  show Finishes (do
    let frame := (← get).mp
    let caller ← reading (readCaller · frame)
    let values ← reading (frameWords · frame results.toNat)
    resume caller
    handOver values baseProcedure : Exec Unit)
  infer_instance

instance finishes_deliver (fault : Fault) : Finishes (deliver fault) := by
  unfold deliver
  infer_instance

/-- All standard procedures but EXIT finish. -/
theorem finishes_perform {procedure : StandardProcedure} (other : procedure ≠ .exit) :
    Finishes (perform procedure) := by
  cases procedure with
  | exit => exact absurd rfl other
  | _ =>
    unfold perform
    infer_instance

/-- All instructions but calls of standard procedures finish. -/
theorem finishes_executeTable {op : Opcode} (other : op ≠ .csp) : Finishes (executeTable op) := by
  cases op with
  | csp => exact absurd rfl other
  | _ =>
    unfold executeTable
    infer_instance

end Finishes

/-! ## Steps -/

/-- What comes of a computation that may fault depends on what follows. -/
theorem hangs_raising_bind {α β : Type} (x : Run Machine α) (f : α → Exec β) :
    hangs (((liftM x : Exec α) >>= f) m) =
      match x m with
      | .ok a m' => hangs (f a m')
      | .error _ _ => false := by
  cases h : x m with
  | ok a m' => rw [liftM_bind_of_ok h]
  | error e m' => rw [liftM_bind_of_error h, hangs_trap]

/-- EXIT hangs in its search only. -/
theorem hangs_exitProcedure :
    hangs (exitProcedure segment procedure m) = true ↔
      isTarget m.memory segment procedure m.seg m.jtab = .ok false ∧
        ExitSearch.Endless ⟨m.memory, segment, procedure, m.mp⟩ := by
  rw [← ExitSearch.exitFrames_endless_iff]
  cases target : isTarget m.memory segment procedure m.seg m.jtab with
  | error e =>
    have stopped : exitProcedure segment procedure m = _ :=
      (get_bind_apply _ m).trans (liftM_bind_of_error (reading_of_error
        (f := (isTarget · segment procedure m.seg m.jtab)) target))
    simp [stopped]
  | ok here =>
    rw [exitProcedure_eq target]
    cases walk : exitWalk m segment procedure here with
    | ok frames =>
      -- what follows the walk can only fault
      dsimp only
      rw [Finishes.ends]
      cases here with
      | true => simp
      | false =>
        have found : exitFrames m.memory segment procedure longestChain m.mp [] = _ := walk
        simp [found]
    | error stop =>
      cases here with
      | true => cases walk
      | false =>
        have found : exitFrames m.memory segment procedure longestChain m.mp [] = _ := walk
        simp [found, hangs_error]

theorem hangs_exitNamed :
    hangs (exitNamed m) = true ↔ ∃ search, m.exitSearch = some search ∧ search.Endless := by
  rw [exitNamed, hangs_raising_bind]
  unfold exitSearch
  cases pop m with
  | error e m₁ => simp
  | ok procedure m₁ =>
    dsimp only
    rw [hangs_raising_bind]
    cases pop m₁ with
    | error e m₂ => simp
    | ok segment m₂ =>
      dsimp only
      rw [hangs_exitProcedure]
      cases isTarget m₂.memory segment.toUInt8 procedure.toUInt8 m₂.seg m₂.jtab with
      | error e => simp
      | ok here => cases here <;> simp

theorem hangs_callStandard :
    hangs (callStandard m) = true ↔
      ∃ search, m.askedBy .exit exitSearch (.table .csp) = some search ∧ search.Endless := by
  rw [callStandard, hangs_raising_bind]
  unfold askedBy
  cases fetchByte m with
  | error e m₁ => simp
  | ok code m₁ =>
    dsimp only
    cases StandardProcedure.ofCode? code with
    | none => exact iff_of_false Bool.false_ne_true (by simp)
    | some procedure =>
      by_cases exits : procedure = .exit
      · subst exits
        exact hangs_exitNamed
      · have finishes := finishes_perform exits
        simp [finishes.ends, exits]

theorem hangs_execute {opcode : UInt8} :
    hangs (execute opcode m) = true ↔
      ∃ search, m.askedBy .exit exitSearch (Encoding.ofCode opcode) = some search ∧
        search.Endless := by
  unfold execute
  cases Encoding.ofCode opcode with
  | shortConstant n | shortLocal n | shortGlobal n | shortIndirect n | unused code =>
    simp [Finishes.ends, askedBy]
  | table op =>
    by_cases standard : op = .csp
    · subst standard
      exact hangs_callStandard
    · have finishes := finishes_executeTable standard
      have unasked : m.askedBy .exit exitSearch (.table op) = none := by
        unfold askedBy
        split
        · exact absurd (Encoding.table.inj ‹_›) standard
        · rfl
      simp [finishes.ends, unasked]

theorem hangs_executeNext :
    hangs (executeNext m) = true ↔
      ∃ search, m.askedNext .exit exitSearch = some search ∧ search.Endless := by
  rw [executeNext, hangs_raising_bind]
  unfold askedNext
  cases fetchByte m with
  | error e m₁ => simp
  | ok opcode m₁ => exact hangs_execute

/-- What follows an instruction finishes if the instruction does. -/
theorem hangs_conclude {stop : Stop} :
    hangs (conclude (.error stop) m) = true ↔ stop = .endless := by
  cases stop with
  | panic cause | boot failure | endless => simp [conclude, hangs]
  | trap fault =>
    have finishes : Finishes (conclude (.error (.trap fault))) := by
      cases fault <;>
        unfold conclude <;>
        infer_instance
    simp [finishes.ends]

/-- The machine hangs in a step if the step makes EXIT search without end. -/
theorem hangs_step :
    hangs (step m) = true ↔
      ∃ search, m.askedIn .exit exitSearch = some search ∧ search.Endless := by
  unfold askedIn
  cases halted : m.halted with
  | true => simp [step, halted]
  | false =>
    rw [if_neg Bool.false_ne_true, ← hangs_executeNext]
    cases executed : executeNext m.prepare with
    | ok u m₁ => simp [step_of_ok halted executed]
    | error stop m₁ => rw [step_of_error halted executed, hangs_conclude, hangs_error]

/-- A step finishes unless it makes EXIT search a chain of frames that has no end, because it leads to
one of its frames again.  All other searches have come to an end after 65536 frames. -/
theorem step_finishes_iff :
    (hangs (step m) = false ↔
      ∀ search, m.askedIn .exit exitSearch = some search → ¬ search.Endless) ∧
    ∀ search : ExitSearch,
      (search.Endless ↔ ∃ i j mp, i < j ∧ search.after i = some mp ∧ search.after j = some mp) ∧
      (¬ search.Endless → ∃ n ≤ 0x10000, search.after n = none) := by
  refine ⟨?_, fun search => ⟨search.endless_iff, search.endless_or_ends.resolve_left⟩⟩
  rw [Bool.eq_false_iff, ne_eq, hangs_step]
  simp only [not_exists, not_and]

/-! ## Frames that calls have made -/

/-- EXIT finishes on frames that are linked. -/
theorem Framed.hangs_exitProcedure (framed : m.Framed) :
    hangs (exitProcedure segment procedure m) = false := by
  rw [exitProcedure_eq framed.isTarget]
  rcases Activation.innermost_or_none m.memory segment procedure m.activations with
    ⟨k, first⟩ | none
  · rw [framed.exitWalk_found first]
    dsimp only
    rw [Finishes.ends]
  · rw [framed.exitWalk_none none]
    rfl

theorem Framed.hangs_exitNamed (framed : m.Framed) : hangs (exitNamed m) = false := by
  rw [exitNamed, hangs_raising_bind]
  cases popped : pop m with
  | error e m₁ => rfl
  | ok procedure m₁ =>
    dsimp only
    rw [hangs_raising_bind]
    cases popped' : pop m₁ with
    | error e m₂ => rfl
    | ok segment m₂ =>
      have silent : Silent m m₁ := Keeps.of_ok popped
      have silent' : Silent m₁ m₂ := Keeps.of_ok popped'
      exact ((framed.of_silent silent).of_silent silent').hangs_exitProcedure

/-- All steps of a program that leaves headers alone finish. -/
theorem Visits.step_finishes {rule : Machine → Prop} {active made : List Call}
    (run : Visits rule m active made) : hangs (Machine.step m) = false := by
  rw [Bool.eq_false_iff, ne_eq, hangs_step]
  rintro ⟨search, asked, endless⟩
  obtain ⟨-, m₁, silent, searched, -⟩ := askedIn_eq_some asked
  -- without an active procedure there is no instruction to fetch
  have running : 0 < m.depth := by
    refine Nat.pos_of_ne_zero fun outermost => ?_
    have noted : Noted m m.prepare := rfl
    have stays : Stays True m m.prepare := run.headersApart.1.upright.stays_of_noted noted
    unfold askedIn askedNext at asked
    rw [stays.upright.fetchByte_idle outermost] at asked
    split at asked <;> cases asked
  have framed : m.prepare.Framed :=
    let framed := run.framed running
    ⟨framed.active, framed.rooted, framed.free⟩
  have hanging := hangs_exitNamed.2 ⟨search, searched, endless⟩
  rw [(framed.of_silent silent).hangs_exitNamed] at hanging
  cases hanging

/-! ## Frames that a program has linked in a circle -/

/-- A procedure that makes its frame the caller of itself and then leaves a procedure that there is
not. -/
def circling : List SegmentSpec :=
  [{ number := 0
     name := "KERNEL"
     procedures :=
       [{ level := 1, body := some { code := [Opcode.clp.code, 2, Opcode.xit.code], exit := 2 } },
        { level := 1
          body := some (assembled
            (storing [(0xEFBA, 0xEFB6)] ++ exiting ++ [.op Opcode.rnp.code, .byte 0])) }] }]

/-- The machine when EXIT is next. -/
def circlingMachine : Machine :=
  endState (runFor 6 (started circling))

theorem circling_run :
    starts circling = true ∧ succeeded (runFor 6 (started circling)) = true ∧
      (circlingMachine.askedIn .exit exitSearch).any
        (fun search => search.next search.start == some search.start) = true := by
  decide +kernel

/-- A program can keep the machine in one step for ever. -/
theorem exit_runs_in_circle :
    starts circling = true ∧ succeeded (runFor 6 (started circling)) = true ∧
      ∃ search, circlingMachine.askedIn .exit exitSearch = some search ∧ search.Endless ∧
        hangs (step circlingMachine) = true := by
  obtain ⟨starts, runs, circle⟩ := circling_run
  obtain ⟨search, asked, back⟩ := (Option.any_eq_true _ _).1 circle
  -- the walk is too long to be evaluated, but its first link leads back
  have endless : search.Endless :=
    endless_of_circle Nat.one_pos (by simpa [linked] using back)
  exact ⟨starts, runs, search, asked, endless, hangs_step.2 ⟨search, asked, endless⟩⟩

end Machine
end PSystem
