import PSystem.Proofs.OrdinaryFaults
import PSystem.Proofs.Origins
import PSystem.Proofs.Traps

/-!
# What is recorded of a run

A history that is offered snapshots one after the other has the first ones, in their order and without
gaps, as many as fit within its limit (`History.Holds`).  A machine offers one when it has started and
one after each instruction, whichever way the step ends as long as it succeeds or ends at a breakpoint
(`record_step`).  So along a run the history holds the snapshots of the states, and what was written to
the console of any of them is the beginning of what was written to the last (`Ran.filmed`).
-/

namespace PSystem

/-! ## Histories -/

namespace History

variable {limit : Nat} {given : List Snapshot} {h : History}

/-- A history to which the given snapshots were added, the oldest first. -/
structure Holds (limit : Nat) (given : List Snapshot) (h : History) : Prop where
  bounded : h.limit = limit
  kept : h.snapshots.toList = given.take h.length
  used : h.used = (h.snapshots.toList.map Snapshot.estimatedSize).sum
  within : h.used ≤ limit
  all : h.full = false → h.length = given.length
  ended : h.full = true →
    ∃ next, given[h.length]? = some next ∧ limit < h.used + next.estimatedSize

theorem holds_nil (limit : Nat) : Holds limit [] { limit := limit } where
  bounded := rfl
  kept := rfl
  used := rfl
  within := Nat.zero_le _
  all _ := rfl
  ended := nofun

/-- Nothing is added after the first snapshot that did not fit. -/
theorem Holds.record (held : Holds limit given h) (s : Snapshot) :
    Holds limit (given ++ [s]) (h.record s) := by
  unfold History.record
  cases full : h.full with
  | true =>
    -- the snapshot that ended the history stays the next one, whatever is offered after it
    obtain ⟨next, offered, large⟩ := held.ended full
    have inside : h.length < given.length := (List.getElem?_eq_some_iff.1 offered).1
    rw [if_pos rfl]
    refine { held with kept := ?_, all := ?_, ended := ?_ }
    · rw [List.take_append_of_le_length (Nat.le_of_lt inside)]
      exact held.kept
    · rw [full]
      exact nofun
    · intro _
      exact ⟨next, (List.getElem?_append_left inside).trans offered, large⟩
  | false =>
    have all := held.all full
    have kept : h.snapshots.toList = given := by
      rw [held.kept, all, List.take_length]
    rw [if_neg Bool.false_ne_true]
    -- all that was offered is held, so a snapshot that does not fit is the next one
    by_cases large : h.limit < h.used + s.estimatedSize
    · rw [if_pos large]
      rw [held.bounded] at large
      refine { held with kept := ?_, all := nofun, ended := fun _ => ⟨s, ?_, large⟩ }
      · show h.snapshots.toList = (given ++ [s]).take h.length
        rw [all, List.take_left, kept]
      · show (given ++ [s])[h.length]? = some s
        rw [all, List.getElem?_concat_length]
    · rw [if_neg large]
      have length : (h.snapshots.push s).size = (given ++ [s]).length := by
        rw [Array.size_push, List.length_append, ← all]
        rfl
      rw [held.bounded, Nat.not_lt] at large
      refine ⟨held.bounded, ?_, ?_, large, fun _ => length, nofun⟩
      · show (h.snapshots.push s).toList = (given ++ [s]).take (h.snapshots.push s).size
        rw [length, List.take_length, Array.toList_push, kept]
      · show h.used + s.estimatedSize = ((h.snapshots.push s).toList.map Snapshot.estimatedSize).sum
        rw [Array.toList_push, List.map_append, List.sum_append, held.used]
        rfl

theorem Holds.length_le (held : Holds limit given h) : h.length ≤ given.length := by
  cases full : h.full with
  | true =>
    obtain ⟨next, offered, -⟩ := held.ended full
    exact Nat.le_of_lt (List.getElem?_eq_some_iff.1 offered).1
  | false => exact Nat.le_of_eq (held.all full)

end History

namespace Machine

variable {m m' : Machine} {stop : Stop} {unit : Word} {file : String} {fresh : Machine}
  {states : List Machine} {limit : Nat}

/-! ## Snapshots -/

/-- Keeping a record makes no difference to what is recorded. -/
theorem snapshot_record (m : Machine) : m.record.snapshot = m.snapshot := by
  rw [record_eq]
  rfl

theorem history_record {h : History} (kept : m.history = some h) :
    m.record.history = some (h.record m.snapshot) := by
  unfold record
  simp only [kept]
  cases full : h.full with
  | true => simp [kept, History.record, full]
  | false => simp

/-! ## Steps -/

theorem Lasts.counted (h : Lasts m m') : Lasts m.counted m'.counted :=
  ⟨h.origins, h.console, h.bound, congrArg (· + 1) h.instructions, h.history⟩

/-- The stop of an instruction is recorded if the machine may go on. -/
theorem record_conclude (unbound : ∀ b ∈ m.bound, b.procedure ≠ handlerProcedure)
    (goes : mayGoOn (conclude (.error stop) m) = true) :
    ∃ m₁, endState (conclude (.error stop) m) = m₁.record ∧ Lasts m m₁ := by
  cases stop with
  | panic cause | boot failure | endless => cases goes
  | trap fault =>
    by_cases deliverable : fault.Deliverable
    -- the delivery has succeeded: it does not end at a breakpoint, and after any other error the
    -- machine may not go on
    · rw [conclude_trap deliverable] at goes ⊢
      have taken : mayGoOn (deliver fault m) = true := by
        rcases bind_cases (rfl : (deliver fault >>= fun _ => modify record) m = _) with
          ⟨e, m₁, failed, eq⟩ | ⟨u, m₁, done, -⟩
        · rw [failed, ← eq]
          exact goes
        · rw [done]
          rfl
      obtain ⟨m₁, delivered⟩ := mayGoOn_deliver deliverable unbound taken
      rw [bind_of_ok delivered]
      exact ⟨m₁, rfl, Keeps.of_ok delivered⟩
    · cases fault with
      | halt => exact ⟨{ m with halted := true }, rfl, .of_same rfl rfl rfl rfl rfl⟩
      | breakpoint line => exact ⟨m, rfl, Std.Refl.refl m⟩
      | _ => exact absurd ⟨nofun, nofun⟩ deliverable

/-- A step of a machine that has not halted counts one instruction and ends in a state that was
recorded. -/
theorem record_step (running : m.halted = false)
    (unbound : ∀ b ∈ m.bound, b.procedure ≠ handlerProcedure) (goes : mayGoOn (step m) = true) :
    ∃ m₁, endState (step m) = m₁.record ∧ Lasts m.counted m₁ := by
  have prepared : Lasts m m.prepare := .of_same rfl rfl rfl rfl rfl
  have executed : Lasts m (endState (executeNext m.prepare)) :=
    IsTrans.trans _ _ _ prepared (Keeps.related _)
  cases hx : executeNext m.prepare with
  | ok u m' =>
    rw [hx] at executed
    rw [step_of_ok running hx]
    exact ⟨m'.counted, rfl, executed.counted⟩
  | error stop m' =>
    rw [hx] at executed
    rw [step_of_error running hx] at goes ⊢
    have same : m'.counted.bound = m.bound := executed.bound
    obtain ⟨m₁, ended, lasts⟩ := record_conclude (fun b hb => unbound b (same ▸ hb)) goes
    exact ⟨m₁, ended, IsTrans.trans _ _ _ executed.counted lasts⟩

/-! ## Starting -/

/-- The state after booting was recorded, and up to then nothing was executed or written. -/
theorem record_boot (booted : boot unit file fresh = .ok () m) :
    ∃ m₁ : Machine, m = m₁.record ∧ m₁.console = fresh.console ∧ m₁.bound = fresh.bound ∧
      m₁.instructions = fresh.instructions ∧ m₁.history = fresh.history := by
  obtain ⟨m₁, kind, m₂, loaded, called, rfl⟩ := boot_stages booted
  obtain ⟨block, dictionary, memory, kernel, m₀, -, -, -, -, -, -, brought, extended⟩ :=
    loadSystem_stages loaded
  have start : Mute (prepared fresh memory (SegmentTable.ofDictionary dictionary unit block)) m₀ :=
    Keeps.of_ok brought
  have finish : Mute m₀ m₁ := by
    rcases extended with ⟨-, rfl⟩ | ⟨base, -, extended⟩
    · exact Std.Refl.refl m₁
    · exact Keeps.of_ok extended
  have mute := IsTrans.trans _ _ _ start (IsTrans.trans _ _ _ finish (Keeps.of_ok called))
  exact ⟨m₂, rfl, mute.silent, mute.bound, mute.instructions, mute.history⟩

/-! ## Runs -/

/-- A boot, and steps none of which ends in an error other than a breakpoint, with the states on the way:
the one after the boot, and the one after each instruction that was executed since. -/
inductive Ran (unit : Word) (file : String) (fresh : Machine) : Machine → List Machine → Prop
  | boot {m : Machine} : boot unit file fresh = .ok () m → Ran unit file fresh m [m]
  | instruction {m : Machine} {states : List Machine} : Ran unit file fresh m states →
      m.halted = false → mayGoOn (step m) = true →
      Ran unit file fresh (endState (step m)) (states ++ [endState (step m)])
  /-- A machine that has halted executes nothing. -/
  | rest {m : Machine} {states : List Machine} : Ran unit file fresh m states → m.halted = true →
      Ran unit file fresh (endState (step m)) states
  /-- Between two instructions the host may show something else, of which no state is recorded. -/
  | observe {m : Machine} {states : List Machine} (host : HostView) : Ran unit file fresh m states →
      Ran unit file fresh (m.observe host) states

/-- What a recorded run has left in the machine. -/
structure Filmed (limit : Nat) (fresh m : Machine) (states : List Machine) : Prop where
  unbound : ∀ b ∈ m.bound, b.procedure ≠ handlerProcedure
  history : ∃ h, m.history = some h ∧ h.Holds limit (states.map snapshot)
  counted : states.length = m.instructions + 1
  numbered : ∀ (i : Nat) (state : Machine), states[i]? = some state → state.instructions = i
  silent : ∀ state : Machine, states[0]? = some state → state.console = fresh.console
  console : ∀ state ∈ states, state.console.Continues m.console

/-- An element of a list with one more at the end is an old one or the new one. -/
theorem getElem?_concat_eq_some {α : Type} {l : List α} {a b : α} {i : Nat}
    (found : (l ++ [b])[i]? = some a) : l[i]? = some a ∨ i = l.length ∧ a = b := by
  rcases Nat.lt_trichotomy i l.length with before | rfl | after
  · rw [List.getElem?_append_left before] at found
    exact .inl found
  · rw [List.getElem?_concat_length] at found
    exact .inr ⟨rfl, (Option.some.inj found).symm⟩
  · rw [List.getElem?_eq_none (by rw [List.length_append, List.length_singleton]; omega)] at found
    cases found

theorem filmed_boot (unbound : ∀ b ∈ fresh.bound, b.procedure ≠ handlerProcedure)
    (idle : fresh.instructions = 0) (empty : fresh.history = some { limit := limit })
    (booted : boot unit file fresh = .ok () m) : Filmed limit fresh m [m] := by
  obtain ⟨m₁, rfl, console, bound, instructions, history⟩ := record_boot booted
  have holds := (History.holds_nil limit).record m₁.snapshot
  have kept := history_record (history.trans empty)
  -- Booting executes no instruction and prints nothing, so its record is the first of the film.
  have zero : m₁.record.instructions = 0 := by
    rw [record_eq]
    exact instructions.trans idle
  have same : m₁.record.console = fresh.console := by
    rw [record_eq]
    exact console
  refine ⟨?_, ⟨_, kept, ?_⟩, ?_, ?_, ?_, ?_⟩
  · rw [record_eq]
    exact fun b hb => unbound b (bound ▸ hb)
  · rw [List.map_singleton, snapshot_record]
    exact holds
  · rw [zero]
    rfl
  · intro i state found
    rcases @getElem?_concat_eq_some _ [] _ _ _ found with none | ⟨rfl, rfl⟩
    · cases none
    · exact zero
  · rintro state found
    cases found
    exact same
  · intro state member
    rw [List.mem_singleton.1 member]
    exact .refl _

/-- One more instruction is one more state, which is offered to the history. -/
theorem Filmed.instruction (h : Filmed limit fresh m states) (running : m.halted = false)
    (goes : mayGoOn (step m) = true) :
    Filmed limit fresh (endState (step m)) (states ++ [endState (step m)]) := by
  obtain ⟨m₁, ended, lasts⟩ := record_step running h.unbound goes
  obtain ⟨history, kept, holds⟩ := h.history
  have kept' := history_record (lasts.history.trans kept)
  -- One instruction has been counted more, so the new state is numbered by its place at the end.
  have number : m₁.record.instructions = states.length := by
    rw [record_eq, h.counted]
    exact lasts.instructions
  have more : m.console.Continues m₁.record.console := by
    rw [record_eq]
    exact lasts.console
  rw [ended]
  refine ⟨?_, ⟨_, kept', ?_⟩, ?_, ?_, ?_, ?_⟩
  · rw [record_eq]
    exact fun b hb => h.unbound b (lasts.bound ▸ hb)
  · rw [List.map_append, List.map_singleton, snapshot_record]
    exact holds.record m₁.snapshot
  · rw [List.length_append, number]
    rfl
  · intro i state found
    rcases getElem?_concat_eq_some found with old | ⟨rfl, rfl⟩
    · exact h.numbered i state old
    · exact number
  · intro state found
    have first : 0 < states.length := by
      rw [h.counted]
      exact Nat.succ_pos _
    rw [List.getElem?_append_left first] at found
    exact h.silent state found
  · intro state member
    rcases List.mem_append.1 member with old | new
    · exact (h.console state old).trans more
    · rw [List.mem_singleton.1 new]
      exact .refl _

theorem Filmed.rest (h : Filmed limit fresh m states) (halted : m.halted = true) :
    Filmed limit fresh (endState (step m)) states := by
  have stays : step m = .ok () m := by
    unfold step
    rw [halted]
    rfl
  rw [stays]
  exact h

theorem Ran.filmed (run : Ran unit file fresh m states)
    (unbound : ∀ b ∈ fresh.bound, b.procedure ≠ handlerProcedure)
    (idle : fresh.instructions = 0) (empty : fresh.history = some { limit := limit }) :
    Filmed limit fresh m states := by
  induction run with
  | boot booted => exact filmed_boot unbound idle empty booted
  | instruction _ running goes ih => exact ih.instruction running goes
  | rest _ halted ih => exact ih.rest halted
  | observe host _ ih =>
    exact ⟨ih.unbound, ih.history, ih.counted, ih.numbered, ih.silent, ih.console⟩

end Machine
end PSystem
