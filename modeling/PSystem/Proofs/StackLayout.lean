import PSystem.Proofs.CallRuns

/-!
# The layout of the program stack

The program stack holds frames and segments side by side: a segment that is brought in lies below the
frame of the procedure that asked for it, and stays there when that procedure has returned.
`Stacked` says that frames lie above one another, that no frame overlaps a piece of code, and that
the program stack pointer is at the lowest of them all.  It holds along every run (`stack_layout`).
-/

namespace PSystem
namespace Machine

variable {m m' m₁ : Machine} {calls calls' rest : List Call} {c : Call} {n segment : UInt8}
  {low low' : Nat} {base : Bool}

/-! ## Frames above one another -/

/-- The frames of calls lie above one another in the program stack, from `low` on upward. -/
def Rising : (low : Nat) → List Call → Prop
  | low, [] => low ≤ 0xF000
  | low, c :: rest => low ≤ c.frame.toNat ∧ Rising (c.frame.toNat + c.size) rest

theorem Rising.weaken (h : Rising low calls) (bound : low' ≤ low) : Rising low' calls := by
  cases calls with
  | nil => exact Nat.le_trans bound h
  | cons c rest => exact ⟨Nat.le_trans bound h.1, h.2⟩

theorem Rising.le_top (h : Rising low calls) : low ≤ 0xF000 := by
  induction calls generalizing low with
  | nil => exact h
  | cons c rest ih =>
    obtain ⟨first, rest⟩ := h
    have := ih rest
    omega

theorem Rising.of_mem (h : Rising low calls) (hc : c ∈ calls) :
    low ≤ c.frame.toNat ∧ c.frame.toNat + c.size ≤ 0xF000 := by
  induction calls generalizing low with
  | nil => cases hc
  | cons d rest ih =>
    obtain ⟨first, above⟩ := h
    rcases List.mem_cons.1 hc with rfl | hc
    · exact ⟨first, above.le_top⟩
    · have := ih above hc
      omega

theorem Rising.pairwise (h : Rising low calls) :
    calls.Pairwise fun c d => c.frame.toNat + c.size ≤ d.frame.toNat := by
  induction calls generalizing low with
  | nil => exact .nil
  | cons c rest ih => exact .cons (fun d hd => (h.2.of_mem hd).1) (ih h.2)

theorem Rising.sameFrames (h : Rising low calls) (same : List.Forall₂ Call.SameFrame calls calls') :
    Rising low calls' := by
  induction same generalizing low with
  | nil => exact h
  | cons same _ ih =>
    obtain ⟨first, above⟩ := h
    rw [Rising, same]
    exact ⟨first, ih above⟩

/-! ## Frames beside code -/

/-- The address below which the program stack pointer lies: the current frame, or the top of the
program stack if there is none. -/
def frameFloor (m : Machine) : Address :=
  if m.mp = 0 then programTop else m.mp

/-- Frames and code do not overlap, and the program stack pointer is at the lowest of both. -/
structure Stacked (m : Machine) (calls : List Call) : Prop where
  lowest : m.psp = m.frameFloor ∨ ∃ part p, m.segments.placement? part = some p ∧ p.base = m.psp
  rising : Rising m.psp.toNat calls
  apart : ∀ c ∈ calls, ∀ part p, m.segments.placement? part = some p →
    c.frame.toNat + c.size ≤ p.base.toNat ∨ p.base.toNat + p.footprint ≤ c.frame.toNat

/-- Without active frames there is no current one. -/
theorem Upright.active_of_mp (upright : m.Upright) (some_ : m.mp ≠ 0) : 0 < m.depth := by
  refine Nat.pos_of_ne_zero fun idle => some_ ?_
  have rooted := upright.rooted
  rw [idle] at rooted
  exact congrArg Activation.frame (show m.current = Activation.nothing from rooted)

theorem Upright.psp_le_frameFloor (upright : m.Upright) : m.psp ≤ m.frameFloor := by
  unfold frameFloor
  split
  · exact upright.secure.layout.top
  · rename_i some_
    exact UInt16.le_iff_toNat_le.2 (upright.psp_le (upright.active_of_mp some_))

theorem Upright.frameFloor_le (upright : m.Upright) : m.frameFloor ≤ programTop := by
  unfold frameFloor
  split
  · exact UInt16.le_refl _
  · rename_i some_
    have top := (upright.frame_bounds (upright.active_of_mp some_)).2
    rw [UInt16.le_iff_toNat_le]
    show _ ≤ 0xF000
    omega

/-- The program stack pointer is given by what lies in the program stack. -/
theorem Stacked.psp (h : Stacked m calls) (standing : m.Standing) :
    m.psp = min m.frameFloor m.residentFloor := by
  have floor : m.psp ≤ m.residentFloor := standing.secure.layout.psp_le_floor
  have frame := standing.upright.psp_le_frameFloor
  apply UInt16.le_antisymm
  · rw [SegmentTable.min_eq_ite]
    split
    · exact frame
    · exact floor
  · rcases h.lowest with at_ | ⟨part, p, placed, at_⟩
    · rw [at_]
      exact SegmentTable.min_le_left _ _
    · rw [← at_]
      exact UInt16.le_trans (SegmentTable.min_le_right _ _)
        (SegmentTable.residentFloor_le_base placed)

/-- A reclaimed program stack pointer is at the lowest frame or code. -/
theorem lowest_of_reclaimed (standing : m.Standing)
    (psp : m.psp = min m.frameFloor m.residentFloor) :
    m.psp = m.frameFloor ∨ ∃ part p, m.segments.placement? part = some p ∧ p.base = m.psp := by
  rw [SegmentTable.min_eq_ite] at psp
  split at psp
  · exact .inl psp
  · rename_i above
    rcases SegmentTable.residentFloor_eq_base (t := m.segments) programTop
        standing.secure.layout.entries.single with top | ⟨part, p, placed, eq⟩
    · have floor : m.residentFloor = programTop := top
      rw [floor] at above
      exact absurd standing.upright.frameFloor_le above
    · exact .inr ⟨part, p, placed, eq.trans psp.symm⟩

/-! ## What keeps the layout -/

theorem Tracked.current (h : Tracked m (c :: rest)) : c.activation = m.current :=
  h.placed.current

/-- The layout does not change with what does not move frames or code. -/
theorem Stacked.same (h : Stacked m calls) (psp : m'.psp = m.psp) (mp : m'.mp = m.mp)
    (placed : ∀ part, m'.segments.placement? part = m.segments.placement? part)
    (frames : List.Forall₂ Call.SameFrame calls calls') : Stacked m' calls' where
  lowest := by
    have floor : m'.frameFloor = m.frameFloor := by
      unfold frameFloor
      rw [mp]
    simp only [psp, floor, placed]
    exact h.lowest
  rising := psp ▸ h.rising.sameFrames frames
  apart := by
    intro c' hc' part p
    obtain ⟨c, hc, same⟩ := Call.mem_sameFrame frames hc'
    rw [placed, same]
    exact h.apart c hc part p

/-- The layout after the program stack pointer is reclaimed. -/
theorem Stacked.reclaimed (h : Stacked m calls) (tracked' : Tracked m' calls')
    (psp : m'.psp = min m'.frameFloor m'.residentFloor)
    (placed : ∀ part p, m'.segments.placement? part = some p →
      m.segments.placement? part = some p)
    (fewer : ∀ c ∈ calls', c ∈ calls) (rising : ∃ low, Rising low calls') : Stacked m' calls' where
  lowest := lowest_of_reclaimed tracked'.standing psp
  rising := by
    obtain ⟨low, rising⟩ := rising
    have top := UInt16.le_iff_toNat_le.1 tracked'.standing.secure.layout.top
    cases calls' with
    | nil => exact top
    | cons c rest =>
      -- the first frame is the current one
      have active : 0 < m'.depth := by
        rw [← tracked'.length]
        exact Nat.succ_pos _
      have frame : c.frame = m'.mp := congrArg Activation.frame tracked'.current
      refine ⟨?_, rising.2⟩
      rw [frame]
      exact tracked'.standing.upright.psp_le active
  apart := fun c hc part p here => h.apart c (fewer c hc) part p (placed part p here)

theorem Stacked.load (h : Stacked m calls) (standing : m.Standing)
    (loaded : loadSegment n m = .ok () m') : Stacked m' calls := by
  rcases loadSegment_outcome standing.secure.layout loaded with
    ⟨e, failed⟩ | ⟨s, hs, ⟨resident, eq⟩ | ⟨absent, base, bytes, memory, brought, eq⟩⟩
  · cases failed
  · cases eq
    refine h.same rfl rfl (SegmentTable.placement?_modify fun s' hs' => ?_)
      (Call.forall₂_refl calls)
    rw [hs] at hs'
    cases hs'
    refine ⟨?_, rfl, rfl⟩
    rw [resident]
    simp [Segment.isResident, Segment.countUp]
  · cases eq
    have number := standing.secure.layout.entries.numbered n s hs
    have other := standing.secure.other_of_absent hs absent
    have carved := brought.carved
    have table : (m.afterLoad s base memory).segments =
        m.segments.modify n (Segment.putAt base) := by
      rw [← number]
      rfl
    have place := CodeLayout.placement?_putAt base hs (fun zero => absurd zero other) absent
    have new := (place (.segment n)).trans (if_pos rfl)
    rw [← table] at new
    refine ⟨.inr ⟨.segment n, _, new, rfl⟩, ?_, ?_⟩
    · exact h.rising.weaken (by
        show base.toNat ≤ m.psp.toNat
        omega)
    · intro c hc part p placed
      rw [table, place] at placed
      split at placed
      · -- the new code ends where the lowest frame or code began
        cases placed
        right
        have above := (h.rising.of_mem hc).1
        show base.toNat + s.footprint.toNat ≤ c.frame.toNat
        omega
      · exact h.apart c hc part p placed

/-- Code that is let go leaves the rest where it is. -/
theorem Stacked.leave (h : Stacked m calls) (standing : m.Standing) (tracked' : Tracked m' calls)
    (other : n ≠ 0) (left : leaveSegment n m = .ok () m') : Stacked m' calls := by
  have settles : Settles m m' := (settles_leaveSegment other).of_ok left
  refine h.reclaimed tracked' ?_ (fun part p placed =>
    ((settles standing.secure).2 part p placed).1) (fun _ hc => hc) ⟨_, h.rising⟩
  rcases leaveSegment_cases left with ⟨⟨e, failed⟩, -⟩ | ⟨s, -, -, eq⟩
  · cases failed
  · cases eq
    rfl

theorem Stacked.move (h : Stacked m calls) (tracked : Tracked m calls) (tracked' : Tracked m' calls')
    (move : Move m calls m' calls') : Stacked m' calls' := by
  cases move with
  | note noted =>
    rw [show m' = _ from noted]
    exact h.same rfl rfl (fun _ => rfl) (Call.forall₂_refl calls)
  | observe host => exact h.same rfl rfl (fun _ => rfl) (Call.forall₂_refl calls)
  | work works =>
    have quiet := works.quiet
    exact h.same quiet.psp quiet.mp (fun _ => by rw [quiet.segments]) (Call.forall₂_refl calls)
  | exit segment procedure active =>
    have quiet : Quiet m (endState (exitProcedure segment procedure m)) :=
      (quiet_of_works (exitProcedure segment procedure)).related m
    exact h.same quiet.psp quiet.mp (fun _ => by rw [quiet.segments])
      (Move.exit segment procedure active).sameFrames
  | load loaded => exact h.load tracked.standing loaded
  | leave other left => exact h.leave tracked.standing tracked' other left

/-- A frame is made right below the program stack pointer. -/
theorem Stacked.made (h : Stacked m calls) (tracked : Tracked m calls)
    (tracked' : Tracked m' (c :: calls)) (made : Made segment c m m') :
    Stacked m' (c :: calls) := by
  have size := made.entered.size
  have registers := made.entered.registers
  have frame : c.frame = m'.mp := congrArg Activation.frame made.activation
  have psp : m'.psp = m'.mp := by rw [registers]
  have active : 0 < m'.depth := by
    rw [registers]
    exact Nat.succ_pos _
  have reach : c.frame.toNat + c.size = m.psp.toNat := by
    rw [frame]
    unfold Call.size
    omega
  have placed (part : Part) : m'.segments.placement? part = m.segments.placement? part := by
    rw [show m'.segments = if c.attributes.level ≤ 0 then
      m.segments.modify segment (Segment.withDataBase m'.mp) else m.segments by rw [registers]]
    split
    · exact SegmentTable.placement?_modify (f := Segment.withDataBase m'.mp)
        (fun _ _ => ⟨rfl, rfl, rfl⟩) part
    · rfl
  refine ⟨.inl ?_, ⟨?_, ?_⟩, ?_⟩
  · unfold frameFloor
    rw [if_neg (tracked'.standing.upright.mp_ne_zero active)]
    exact psp
  · exact Nat.le_of_eq (by rw [psp, frame])
  · rw [reach]
    exact h.rising
  · intro d hd part p here
    rw [placed] at here
    rcases List.mem_cons.1 hd with rfl | hd
    · -- all code lies at or above the old program stack pointer
      have above := UInt16.le_iff_toNat_le.1 (tracked.standing.secure.layout.above part p here)
      omega
    · exact h.apart d hd part p here

/-- A return gives up the lowest frame, and maybe code. -/
theorem Stacked.back {base : Bool} (h : Stacked m calls) (tracked : Tracked m calls)
    (tracked' : Tracked m' calls.tail) (back : GoesBack base m m₁ m') : Stacked m' calls.tail := by
  have settles : Settles m m' := by
    have resumed : Settles m m₁ := Keeps.of_ok back.resumed
    rw [back.restored]
    exact IsTrans.trans _ _ _ resumed (settles_restored base m₁)
  refine h.reclaimed tracked' ?_ (fun part p placed =>
    ((settles tracked.standing.secure).2 part p placed).1)
    (fun c hc => List.mem_of_mem_tail hc) ?_
  · rw [back.rest]
    exact (wentBack back.resumed).psp
  · cases calls with
    | nil => exact ⟨_, h.rising⟩
    | cons c rest => exact ⟨_, h.rising.2⟩

theorem preserved_stacked : Preserved Stacked where
  move tracked tracked' move h := h.move tracked tracked' move
  made tracked tracked' made h := h.made tracked tracked' made
  back tracked tracked' back h := h.back tracked tracked' back

/-! ## Runs -/

/-- Before the first call there are no frames, and the program stack pointer is at the code that was
loaded last. -/
theorem stacked_of_loaded {fresh : Machine} (loaded : Loaded fresh m) : Stacked m [] where
  lowest := .inr loaded.lowest
  rising := UInt16.le_iff_toNat_le.1 loaded.secure.layout.top
  apart := by
    intro c hc
    cases hc

/-- In the program stack, the frames of active procedures and the pieces of code that are in memory
never overlap, frames lie the higher the earlier they were made, and the program stack pointer is at
the lowest frame or piece of code. -/
theorem stack_layout {rule : Machine → List Call → Prop} {got given : UInt8 → Nat}
    (h : Traced rule m calls got given) :
    m.psp = min (if m.mp = 0 then programTop else m.mp) m.residentFloor ∧
    calls.map Call.activation = m.activations ∧
    (∀ c ∈ calls, m.psp.toNat ≤ c.frame.toNat ∧ c.frame.toNat + c.size ≤ 0xF000) ∧
    (calls.Pairwise fun c d => c.frame.toNat + c.size ≤ d.frame.toNat) ∧
    (∀ c ∈ calls, m.InCode c.activation → c.attributes.At m.memory c.jtab) ∧
    (∀ part p, m.segments.placement? part = some p →
      m.psp ≤ p.base ∧ p.base.toNat + p.footprint ≤ 0xF000) ∧
    (∀ c ∈ calls, ∀ part p, m.segments.placement? part = some p →
      c.frame.toNat + c.size ≤ p.base.toNat ∨ p.base.toNat + p.footprint ≤ c.frame.toNat) ∧
    ∀ part part' p p', part ≠ part' → m.segments.placement? part = some p →
      m.segments.placement? part' = some p' → ∀ a, p.Covers a → ¬ p'.Covers a := by
  obtain ⟨tracked, stacked⟩ :=
    h.preserved preserved_stacked fun _ loaded => stacked_of_loaded loaded
  have layout := tracked.standing.secure.layout
  refine ⟨stacked.psp tracked.standing, tracked.actives, fun c hc => stacked.rising.of_mem hc,
    stacked.rising.pairwise, fun c hc code => (tracked.told c hc code).attributes, ?_,
    stacked.apart, layout.apart⟩
  intro part p placed
  exact ⟨layout.above part p placed, layout.below part p placed⟩

/-- The main program and a procedure of an overlay that the program keeps in memory. -/
def visitingTrace : Machine × List Call :=
  trace 3 (started visiting) (callMade 0 1 (unstarted visiting)).toList

theorem visitingTrace_run :
    starts visiting = true ∧
    obeysFor (fun _ _ => true) 3 (started visiting) (callMade 0 1 (unstarted visiting)).toList =
      true ∧
    visitingTrace.2.map (fun c => (c.activation.segment, c.size)) = [(1, 14), (0, 14)] ∧
    (visitingTrace.1.segments.placement? (.segment 1)).isSome = true := by
  decide +kernel

theorem stack_layout_visiting :
    ∃ m calls got given p, Traced (fun _ _ => True) m calls got given ∧ calls.length = 2 ∧
      m.segments.placement? (.segment 1) = some p ∧
      m.psp = min (if m.mp = 0 then programTop else m.mp) m.residentFloor ∧
      (calls.Pairwise fun c d => c.frame.toNat + c.size ≤ d.frame.toNat) ∧
      ∀ c ∈ calls,
        c.frame.toNat + c.size ≤ p.base.toNat ∨ p.base.toNat + p.footprint ≤ c.frame.toNat := by
  obtain ⟨starts, obeyed, calls, resident⟩ := visitingTrace_run
  obtain ⟨got, given, run⟩ := (traced_started (fun _ _ => True) starts).steps
    (fun _ _ _ => trivial) (fun _ => Nat.le_refl 0) obeyed
  obtain ⟨p, placed⟩ := Option.isSome_iff_exists.1 resident
  obtain ⟨psp, -, -, rising, -, -, apart, -⟩ := stack_layout run
  refine ⟨_, _, got, given, p, run, ?_, placed, psp, rising, fun c hc => apart c hc _ p placed⟩
  rw [← List.length_map]
  exact congrArg List.length calls

end Machine
end PSystem
