import PSystem.Proofs.Visits

/-!
# Heap and program stack

The heap pointer stays at or below the program stack pointer, whatever moves the two: a block of NEW,
a frame and a segment that is loaded all have to fit between them, and the program stack pointer is
reclaimed only upward.  The one exception is RELEASE, which checks its mark against the start of the
heap only: a mark above the program stack pointer puts the heap pointer into the program stack
(`heap_below_stack_iff`).
-/

namespace PSystem
namespace Machine

variable {β : Type} {m m' m₁ : Machine} {active made : List Call} {asked : StandardProcedure}
  {f : Machine → Option β} {b : β}

/-! ## Standard procedures that are asked for -/

theorem askedBy_eq_some {encoding : Encoding} (h : m.askedBy asked f encoding = some b) :
    encoding = .table .csp ∧ ∃ code m₁, fetchByte m = .ok code m₁ ∧
      StandardProcedure.ofCode? code = some asked ∧ f m₁ = some b := by
  unfold askedBy at h
  split at h
  · split at h
    · rename_i code m₁ fetched
      split at h
      · rename_i found
        exact ⟨rfl, code, m₁, fetched, found, h⟩
      · cases h
    · cases h
  · cases h

/-- A step that asks for a standard procedure carries it out, with operands fetched before. -/
theorem askedIn_eq_some (h : m.askedIn asked f = some b) : m.halted = false ∧
    ∃ m₁, Silent m.prepare m₁ ∧ f m₁ = some b ∧ executeNext m.prepare = perform asked m₁ := by
  unfold askedIn at h
  split at h
  · cases h
  rename_i running
  refine ⟨by simpa using running, ?_⟩
  unfold askedNext at h
  cases fetched : fetchByte m.prepare with
  | error e m₁ =>
    rw [fetched] at h
    cases h
  | ok opcode m₁ =>
    rw [fetched] at h
    obtain ⟨encoded, code, m₂, fetched', found, answer⟩ := askedBy_eq_some h
    have first : Silent m.prepare m₁ := Keeps.of_ok fetched
    have second : Silent m₁ m₂ := Keeps.of_ok fetched'
    refine ⟨m₂, IsTrans.trans _ _ _ first second, answer, ?_⟩
    have run : executeNext m.prepare = execute opcode m₁ := liftM_bind_of_ok fetched
    have csp : execute opcode = callStandard := by
      unfold execute
      rw [encoded]
      rfl
    have standard : callStandard m₁ = _ := liftM_bind_of_ok fetched'
    rw [run, csp, standard]
    simp only [found]

/-! ## Blocks -/

/-- The address and the words of the block that NEW gives. -/
def blockGiven (m : Machine) : Option (Address × Word) :=
  match pop m with
  | .ok words m =>
    match pop m with
    | .ok _ m => (m.heap.allocate words m.psp).toOption.map fun given => (given.1, words)
    | .error _ _ => none
  | .error _ _ => none

/-- NEW takes the words and the address of a variable from the stack, moves the heap pointer and
stores the address of the block in the variable. -/
theorem blockGiven_eq_some {a : Address} {words : Word} (h : m.blockGiven = some (a, words)) :
    ∃ pointer heap m₁, Silent m m₁ ∧ m.heap.allocate words m.psp = .ok (a, heap) ∧
      newBlock m = onMemory (Memory.writeWord pointer a) { m₁ with heap := heap } := by
  unfold blockGiven at h
  cases first : pop m with
  | error e m₁ =>
    rw [first] at h
    cases h
  | ok w m₁ =>
    rw [first] at h
    dsimp only at h
    cases second : pop m₁ with
    | error e m₂ =>
      rw [second] at h
      cases h
    | ok pointer m₂ =>
      rw [second] at h
      dsimp only at h
      have silent₁ : Silent m m₁ := Keeps.of_ok first
      have silent₂ : Silent m₁ m₂ := Keeps.of_ok second
      have silent : Silent m m₂ := IsTrans.trans _ _ _ silent₁ silent₂
      -- The two pops leave the heap and the stack pointer alone, so the block is the one the
      -- machine would give.
      have heap : m₂.heap = m.heap := by rw [silent.rest]
      have psp : m₂.psp = m.psp := by rw [silent.rest]
      cases given : m₂.heap.allocate w m₂.psp with
      | error e =>
        rw [given] at h
        cases h
      | ok block =>
        rw [given] at h
        cases h
        have run : newBlock m = _ := (bind_of_ok first).trans (bind_of_ok second)
        refine ⟨pointer, block.2, m₂, silent, heap ▸ psp ▸ given, ?_⟩
        rw [run, get_bind_apply, given]
        rfl

/-- A block of NEW lies right above the heap and does not reach the program stack.  If its address
could be stored, the heap ends where it ends. -/
theorem block_bounds {a : Address} {words : Word}
    (h : m.askedIn .new blockGiven = some (a, words)) :
    a = m.heap.np ∧ a.toNat + 2 * words.toNat ≤ m.psp.toNat ∧
      (succeeded (executeNext m.prepare) = true →
        (endState (step m)).heap.np.toNat = a.toNat + 2 * words.toNat) := by
  obtain ⟨running, m₁, silent, given, run⟩ := askedIn_eq_some h
  obtain ⟨pointer, heap, m₂, silent', allocated, eq⟩ := blockGiven_eq_some given
  have same : m₁.heap = m.heap ∧ m₁.psp = m.psp := by
    rw [silent.rest]
    exact ⟨rfl, rfl⟩
  rw [same.1, same.2] at allocated
  obtain ⟨start, stop, room⟩ := Heap.np_le_of_allocate allocated
  have room := UInt16.le_iff_toNat_le.1 room
  rw [start]
  refine ⟨rfl, by omega, fun stored => ?_⟩
  have whole : executeNext m.prepare = (liftM newBlock : Exec Unit) m₁ := run
  rw [whole, succeeded_liftM, eq] at stored
  obtain ⟨memory, -, written⟩ := onMemory_eq_ok.1 (eq_ok_of_succeeded stored)
  have executed : executeNext m.prepare = .ok () _ := whole.trans
    (raising_of_ok (eq.trans (eq_ok_of_succeeded stored)))
  unfold step
  rw [if_neg (by rw [running]; exact Bool.false_ne_true), executed, written]
  show (record _).heap.np.toNat = _
  rw [record_eq]
  exact stop

/-! ## Marks -/

/-- RELEASE with a mark in the heap or above it puts the heap pointer there. -/
theorem step_of_release {mark : Address} (h : m.askedIn .release markReleased = some mark)
    (low : Heap.start ≤ mark) :
    (endState (step m)).heap.np = mark ∧ (endState (step m)).psp = m.psp := by
  obtain ⟨running, m₁, silent, read, run⟩ := askedIn_eq_some h
  unfold markReleased at read
  cases popped : pop m₁ with
  | error e m₂ =>
    rw [popped] at read
    cases read
  | ok a m₂ =>
    rw [popped] at read
    dsimp only at read
    cases word : m₂.memory.readWord a with
    | error e =>
      rw [word] at read
      cases read
    | ok w =>
      rw [word] at read
      cases read
      have silent' : Silent m₁ m₂ := Keeps.of_ok popped
      have psp : m₂.psp = m.psp := by rw [silent'.rest, silent.rest]; rfl
      -- The mark is not below the start of the heap, so the heap takes it.
      have put : Heap.release mark = .ok ⟨mark⟩ := if_neg (UInt16.not_lt.2 low)
      have released : releaseHeap m₁ = .ok () { m₂ with heap := ⟨mark⟩ } := by
        refine (bind_of_ok popped).trans ((bind_of_ok (reading_of_ok
          (f := (·.readWord a)) word)).trans ?_)
        rw [put]
        rfl
      have executed : executeNext m.prepare = .ok () _ := run.trans (raising_of_ok released)
      unfold step
      rw [if_neg (by rw [running]; exact Bool.false_ne_true), executed]
      show (record _).heap.np = mark ∧ (record _).psp = m.psp
      rw [record_eq]
      exact ⟨rfl, psp⟩

instance (m : Machine) : Decidable m.ReleasesAbove :=
  decidable_of_iff (∃ mark ∈ m.askedIn .release markReleased, m.psp < mark) Iff.rfl

/-! ## Runs -/

theorem Upright.psp_le_reclaimed (upright : m.Upright) : m.psp ≤ m.reclaimed.psp := by
  show m.psp ≤ min m.frameFloor m.residentFloor
  rw [SegmentTable.min_eq_ite]
  split
  · exact upright.psp_le_frameFloor
  · exact upright.secure.layout.psp_le_floor

/-- Nothing but a mark moves the heap pointer into the program stack. -/
theorem kept_heap : Kept False fun m _ _ => m.heap.np ≤ m.psp where
  stays _ stays below := stays.heap id below
  load := by
    intro m m' n _ _ placed loaded below
    rcases loadSegment_outcome placed.upright.secure.layout loaded with
      ⟨e, failed⟩ | ⟨s, hs, ⟨resident, eq⟩ | ⟨absent, base, bytes, memory, brought, eq⟩⟩
    · cases failed
    · cases eq
      exact below
    · cases eq
      exact brought.room
  release _ _ _ _ below := below
  reclaim placed below := UInt16.le_trans below placed.upright.psp_le_reclaimed
  back _ _ _ below := below
  made := by
    intro m m' segment c _ _ _ made _
    have registers := made.entered.registers
    rw [registers]
    exact made.entered.room

theorem start_heap {unit : Word} {file : String} {fresh loaded : Machine} (hfresh : fresh.Fresh)
    (fits : SystemFits fresh unit file) (loading : loadSystem unit file fresh = .ok () loaded) :
    loaded.heap.np ≤ loaded.psp := by
  have there := loaded_of_loadSystem hfresh fits loading
  obtain ⟨part, p, placed, lowest⟩ := there.lowest
  have heap : loaded.heap = Heap.empty := by
    rw [there.rest]
    exact hfresh.heap
  rw [heap, ← lowest]
  exact (there.read part p placed).1

/-- As long as no mark above the program stack pointer is released, the heap lies below the program
stack, with all its frames and code, and so does every block that NEW gives.  The next step keeps
this up exactly if it does not release such a mark. -/
theorem heap_below_stack_iff (run : Visits (fun m => ¬ m.ReleasesAbove) m active made) :
    Heap.start ≤ m.heap.np ∧ m.heap.np ≤ m.psp ∧
    (∀ c ∈ active, m.psp ≤ c.frame) ∧
    (∀ part p, m.segments.placement? part = some p → m.psp ≤ p.base) ∧
    (∀ a words, m.askedIn .new blockGiven = some (a, words) →
      a = m.heap.np ∧ a.toNat + 2 * words.toNat ≤ m.psp.toNat ∧
      (succeeded (executeNext m.prepare) = true →
        (endState (step m)).heap.np.toNat = a.toNat + 2 * words.toNat)) ∧
    (m.LeavesHeaders →
      ((endState (step m)).heap.np ≤ (endState (step m)).psp ↔ ¬ m.ReleasesAbove)) := by
  obtain ⟨placed, below⟩ := run.kept kept_heap start_heap fun _ free => free
  have layout := placed.upright.secure.layout
  refine ⟨layout.heap, below, ?_, layout.above, fun a words => block_bounds, fun headers => ?_⟩
  · intro c hc
    exact UInt16.le_iff_toNat_le.2 (placed.upright.rooted.of_mem (placed.mem hc)).1
  · constructor
    · rintro after ⟨mark, released, above⟩
      have low := UInt16.le_trans layout.heap (UInt16.le_trans below (UInt16.le_of_lt above))
      obtain ⟨np, psp⟩ := step_of_release released low
      rw [np, psp] at after
      exact absurd above (UInt16.not_lt.2 after)
    · intro free
      exact (@Kept.step _ _ _ made _ kept_heap placed headers free below).2

/-- A main program that gets a block of four words. -/
def reserving : List SegmentSpec :=
  [{ number := 0
     name := "KERNEL"
     procedures :=
       [{ level := 1
          dataBytes := 2
          body := some
            { code := [Opcode.lla.code, 1, 4, Opcode.csp.code, StandardProcedure.new.code,
                Opcode.xit.code] } }] }]

/-- The main program before it asks for the block. -/
def reservingVisit : Machine × List Call × List Call :=
  let calls := (callMade 0 1 (unstarted reserving)).toList
  visit 2 (started reserving) calls calls

theorem reservingVisit_run :
    starts reserving = true ∧
    keepsTo (fun m => decide (¬ m.ReleasesAbove)) 2 (started reserving) = true ∧
    reservingVisit.2.1.length = 1 ∧ keepsHeaders reservingVisit.1 = true ∧
    reservingVisit.1.askedIn .new blockGiven = some (0x100, 4) ∧
    ¬ reservingVisit.1.ReleasesAbove ∧ succeeded (executeNext reservingVisit.1.prepare) = true := by
  decide +kernel

theorem heap_below_stack_reserving :
    ∃ m active made, Visits (fun m => ¬ m.ReleasesAbove) m active made ∧ active.length = 1 ∧
      m.askedIn .new blockGiven = some (0x100, 4) ∧ (∀ c ∈ active, m.psp ≤ c.frame) ∧
      (endState (step m)).heap.np.toNat = 0x108 ∧
      (endState (step m)).heap.np ≤ (endState (step m)).psp := by
  obtain ⟨starts, kept, active, headers, block, free, stored⟩ := reservingVisit_run
  have run := (visits_started _ starts).steps (fun m => of_decide_eq_true) kept
  obtain ⟨-, -, frames, -, blocks, next⟩ := heap_below_stack_iff run
  exact ⟨_, _, _, run, active, block, frames, (blocks _ _ block).2.2 stored,
    (next (leavesHeaders_of_keepsHeaders headers)).2 free⟩

/-- A main program that releases the heap up to a word of its own header: the evaluation stack
pointer, which lies above the program stack. -/
def releasing : List SegmentSpec :=
  [{ number := 0
     name := "KERNEL"
     procedures :=
       [{ level := 1
          body := some
            { code := [Opcode.lla.code, 0, Opcode.csp.code, StandardProcedure.release.code,
                Opcode.xit.code] } }] }]

theorem releasing_run :
    starts releasing = true ∧ keepsTo (fun _ => true) 2 (started releasing) = true ∧
    (visit 2 (started releasing) (callMade 0 1 (unstarted releasing)).toList
      (callMade 0 1 (unstarted releasing)).toList).1.psp <
    (visit 2 (started releasing) (callMade 0 1 (unstarted releasing)).toList
      (callMade 0 1 (unstarted releasing)).toList).1.heap.np := by
  decide +kernel

/-- Heap and program stack cross, although no step of the program stores anything. -/
theorem released_heap_crosses :
    ∃ m active made, Visits (fun _ => True) m active made ∧ m.psp < m.heap.np := by
  obtain ⟨starts, kept, crossed⟩ := releasing_run
  exact ⟨_, _, _, (visits_started _ starts).steps (fun _ _ => trivial) kept, crossed⟩

end Machine
end PSystem
