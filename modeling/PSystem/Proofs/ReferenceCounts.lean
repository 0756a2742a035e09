import PSystem.Proofs.CodeImmutability
import PSystem.Proofs.UseCounts

/-!
# Reference counts along a run

A segment other than 0 is used by every activation that entered it from another segment, and by the
program, from GETSEG to RELSEG.  Every step of a machine keeps its use count equal to the number of
these uses, as long as the program leaves the headers of its active frames alone and releases no
more than it got (`use_counts_balanced`).  As there is room for a few thousand frames only, calls alone
do not bring a use count to its end (`Counted.useCount_lt`).
-/

namespace PSystem
namespace Machine

open Activation (entries segmentOf)

variable {m m' : Machine} {n segment procedure : UInt8} {jtab : Address} {p : Attributes}

/-! ## EXIT -/

/-- What the header of a frame says if EXIT stops there or goes on from there. -/
theorem exitLook_cases {memory : Memory} {mp jtab : Address} {next : Option Address}
    (h : exitLook memory segment procedure mp = .ok (jtab, next)) :
    ∃ seg, memory.readWord (mp + Frame.savedJtab) = .ok jtab ∧ jtab ≠ 0 ∧
      memory.readWord (mp + Frame.savedSeg) = .ok seg ∧
      (isTarget memory segment procedure seg.toUInt8 jtab = .ok true ∧ next = none ∨
        isTarget memory segment procedure seg.toUInt8 jtab = .ok false ∧
          ∃ link, next = some link ∧ memory.readWord (mp + Frame.dynamicLink) = .ok link ∧
            link ≠ 0) := by
  unfold exitLook at h
  obtain ⟨saved, hj, h⟩ := except_bind_eq_ok.1 h
  obtain ⟨seg, hs, h⟩ := except_bind_eq_ok.1 h
  by_cases outermost : saved = 0
  · rw [if_pos outermost] at h
    cases h
  rw [if_neg outermost] at h
  obtain ⟨target, ht, h⟩ := except_bind_eq_ok.1 h
  -- The search stops at the target, and only looks at the link when the frame is not it.
  cases target with
  | true =>
    cases h
    exact ⟨seg, hj, outermost, hs, .inl ⟨ht, rfl⟩⟩
  | false =>
    obtain ⟨link, hn, h⟩ := except_bind_eq_ok.1 h
    by_cases last : link = 0
    · rw [if_pos last] at h
      cases h
    · rw [if_neg last] at h
      cases h
      exact ⟨seg, hj, outermost, hs, .inr ⟨ht, link, rfl, hn, last⟩⟩

/-- What EXIT finds at a frame that it passes or stops at. -/
theorem exitFrames_cases {memory : Memory} {fuel : Nat} {mp : Address}
    {found frames : List (Address × Address)}
    (h : exitFrames memory segment procedure (fuel + 1) mp found = .ok frames) :
    ∃ jtab seg, memory.readWord (mp + Frame.savedJtab) = .ok jtab ∧ jtab ≠ 0 ∧
      memory.readWord (mp + Frame.savedSeg) = .ok seg ∧
      (isTarget memory segment procedure seg.toUInt8 jtab = .ok true ∧
          frames = (mp, jtab) :: found ∨
        isTarget memory segment procedure seg.toUInt8 jtab = .ok false ∧
          ∃ next, memory.readWord (mp + Frame.dynamicLink) = .ok next ∧ next ≠ 0 ∧
            exitFrames memory segment procedure fuel next ((mp, jtab) :: found) = .ok frames) := by
  unfold exitFrames at h
  cases look : exitLook memory segment procedure mp with
  | error e =>
    rw [look] at h
    cases h
  | ok seen =>
    obtain ⟨jtab, next⟩ := seen
    rw [look] at h
    obtain ⟨seg, hj, some_, hs, ⟨reached, rfl⟩ | ⟨missed, link, rfl, hn, valid⟩⟩ :=
      exitLook_cases look
    · cases h
      exact ⟨jtab, seg, hj, some_, hs, .inl ⟨reached, rfl⟩⟩
    · exact ⟨jtab, seg, hj, some_, hs, .inr ⟨missed, link, hn, valid, h⟩⟩

/-- EXIT passes only active frames that have a caller. -/
theorem exitFrames_mem {memory : Memory} {fuel depth low : Nat} {a : Activation}
    {found frames : List (Address × Address)}
    (unmapped : ∀ x, Heap.start ≤ x → (memory.cell x).mapped = false)
    (rooted : Activation.Rooted memory depth low a) (active : 0 < depth)
    (h : exitFrames memory segment procedure fuel a.frame found = .ok frames) :
    ∀ f ∈ frames, f ∈ found ∨ ∃ b ∈ Activation.chain memory depth a, f.1 = b.frame ∧
      (b.caller memory).jtab ≠ 0 := by
  induction fuel generalizing depth low a found with
  | zero => cases h
  | succ fuel ih =>
    cases depth with
    | zero => omega
    | succ depth =>
      obtain ⟨-, start, top, -, -, rest⟩ := rooted
      have word {i : Nat} (hi : i + 1 < 14) := readWord_above (i := i) unmapped
        (UInt16.le_iff_toNat_le.2 start : Heap.start ≤ a.frame) (by omega)
      obtain ⟨jtab, seg, hj, some_, -, outcome⟩ := exitFrames_cases h
      have saved : (a.caller memory).jtab = jtab := by
        cases (word (i := 6) (by decide)).symm.trans hj
        rfl
      have caller : (a.caller memory).jtab ≠ 0 := saved ▸ some_
      -- the frame that is looked at is active, and its caller has a table
      have here : ∀ f ∈ (a.frame, jtab) :: found, f ∈ found ∨
          ∃ b ∈ Activation.chain memory (depth + 1) a, f.1 = b.frame ∧
            (b.caller memory).jtab ≠ 0 := by
        intro f hf
        rcases List.mem_cons.1 hf with rfl | hf
        · exact .inr ⟨a, List.mem_cons_self, rfl, caller⟩
        · exact .inl hf
      rcases outcome with ⟨-, rfl⟩ | ⟨-, next, hn, -, h⟩
      · exact here
      · have linked : (a.caller memory).frame = next := by
          cases (word (i := 4) (by decide)).symm.trans hn
          rfl
        -- a caller is not nothing, so there are more frames
        have more : 0 < depth := by
          cases depth with
          | zero =>
            exfalso
            apply caller
            rw [show a.caller memory = Activation.nothing from rest]
            rfl
          | succ depth => omega
        rw [← linked] at h
        intro f hf
        rcases ih rest more h f hf with old | ⟨b, hb, same, ready⟩
        · exact here f old
        · exact .inr ⟨b, List.mem_cons_of_mem a hb, same, ready⟩

theorem confined_redirect {S : Address → Prop} (frames : List (Address × Address))
    (inside : ∀ f ∈ frames, S (f.1 + Frame.savedIpc) ∧ S (f.1 + Frame.savedIpc + 1)) :
    Keeps (Confined S) (redirect frames) := by
  induction frames with
  | nil => exact Keeps.pure ()
  | cons frame rest ih =>
    have later := ih fun f hf => inside f (List.mem_cons_of_mem frame hf)
    obtain ⟨first, second⟩ := inside frame List.mem_cons_self
    have written (w : Word) : Keeps (Confined S)
        (onMemory (Memory.writeWord (frame.1 + Frame.savedIpc) w)) :=
      confined_onMemory _ (Memory.keeps_writeWord_off first second)
    unfold redirect
    infer_instance

/-- The cells that hold where the callers of active frames go on. -/
def ResumePoints (m : Machine) (x : Address) : Prop :=
  ∃ b ∈ m.activations, (b.caller m.memory).jtab ≠ 0 ∧
    (x = b.frame + Frame.savedIpc ∨ x = b.frame + Frame.savedIpc + 1)

theorem exec_reading_cases {α β : Type} {read : Memory → Except Fault α} {k : α → Exec β}
    {r : EStateM.Result Stop Machine β} (h : ((liftM (reading read) : Exec α) >>= k) m = r) :
    (∃ e, r = .error (.trap e) m) ∨ ∃ a, k a m = r := by
  cases ha : read m.memory with
  | error e =>
    exact .inl ⟨e, h.symm.trans (liftM_bind_of_error (reading_of_error ha))⟩
  | ok a => exact .inr ⟨a, (liftM_bind_of_ok (reading_of_ok ha)).symm.trans h⟩

theorem agreesOff_exitProcedure (upright : m.Upright) (active : 0 < m.depth) :
    Memory.AgreesOff m.ResumePoints m.memory
      (endState (exitProcedure segment procedure m)).memory := by
  have same : Memory.AgreesOff m.ResumePoints m.memory m.memory := fun _ _ => rfl
  -- redirecting any of the frames that EXIT may pass
  have redirected (frames : List (Address × Address)) (exit : Address)
      (passed : ∀ f ∈ frames, ∃ b ∈ m.activations, f.1 = b.frame ∧ (b.caller m.memory).jtab ≠ 0) :
      Memory.AgreesOff m.ResumePoints m.memory
        (endState ((liftM (redirect frames) : Exec Unit)
          { m with ipc := exit - m.ipcBase })).memory := by
    rw [endState_liftM]
    have kept := confined_redirect (S := m.ResumePoints) frames (by
      intro f hf
      obtain ⟨b, hb, frame, caller⟩ := passed f hf
      rw [frame]
      exact ⟨⟨b, hb, caller, .inl rfl⟩, ⟨b, hb, caller, .inr rfl⟩⟩)
    exact (kept.related { m with ipc := exit - m.ipcBase }).off
  have finish (frames : List (Address × Address))
      (passed : ∀ f ∈ frames, ∃ b ∈ m.activations, f.1 = b.frame ∧ (b.caller m.memory).jtab ≠ 0) :
      Memory.AgreesOff m.ResumePoints m.memory (endState ((do
        let exit ← reading (AttributeTable.exit · m.jtab)
        modify fun m => { m with ipc := exit - m.ipcBase }
        redirect frames : Exec Unit) m)).memory := by
    rcases exec_reading_cases (rfl : (do
        let exit ← reading (AttributeTable.exit · m.jtab)
        modify fun m => { m with ipc := exit - m.ipcBase }
        redirect frames : Exec Unit) m = _) with ⟨e, eq⟩ | ⟨exit, eq⟩
    · rw [eq]
      exact same
    · rw [← eq]
      exact redirected frames exit passed
  unfold exitProcedure
  rw [get_bind_apply]
  rcases exec_reading_cases (rfl : ((liftM (reading (isTarget · segment procedure m.seg m.jtab)) :
      Exec Bool) >>= _) m = _) with ⟨e, eq⟩ | ⟨here, eq⟩
  · rw [eq]
    exact same
  rw [← eq]
  dsimp only
  by_cases innermost : here = true
  · rw [if_pos innermost]
    exact finish [] (by simp)
  · rw [if_neg innermost]
    cases hf : exitFrames m.memory segment procedure longestChain m.mp [] with
    | error stop => exact same
    | ok frames =>
      refine finish frames.reverse ?_
      intro f hfr
      rcases exitFrames_mem upright.secure.layout.unmapped upright.rooted active hf f
        (List.mem_reverse.1 hfr) with none | passed
      · cases none
      · exact passed

/-- Of the header of an active frame, EXIT changes only where a caller goes on. -/
theorem ResumePoints.offset (upright : m.Upright) {a : Activation} (ha : a ∈ m.activations)
    {i : Nat} (hi : i < 14) (h : m.ResumePoints (a.frame + UInt16.ofNat i)) :
    (i = 10 ∨ i = 11) ∧ (a.caller m.memory).jtab ≠ 0 := by
  obtain ⟨b, hb, caller, place⟩ := h
  obtain ⟨-, -, top⟩ := upright.rooted.of_mem ha
  obtain ⟨-, -, top'⟩ := upright.rooted.of_mem hb
  have here : (a.frame + UInt16.ofNat i).toNat = a.frame.toNat + i := toNat_add_ofNat (by omega)
  have first : (b.frame + Frame.savedIpc).toNat = b.frame.toNat + 10 :=
    toNat_add_ofNat (i := 10) (by omega)
  have second : (b.frame + Frame.savedIpc + 1).toNat = b.frame.toNat + 11 := by
    rw [UInt16.toNat_add, first, UInt16.toNat_one]
    omega
  have offset : a.frame.toNat + i = b.frame.toNat + 10 ∨
      a.frame.toNat + i = b.frame.toNat + 11 := by
    rcases place with same | same
    · exact .inl (by rw [← here, same, first])
    · exact .inr (by rw [← here, same, second])
  -- frames do not overlap, so the place is in the frame's own header
  rcases upright.rooted.apart ha hb with same | apart
  · unfold Activation.caller at caller ⊢
    rw [same] at offset ⊢
    exact ⟨by omega, caller⟩
  · omega

/-- EXIT leaves the links of the active frames as they are. -/
theorem Upright.links_exitProcedure (upright : m.Upright) (active : 0 < m.depth) :
    Activation.Rooted (endState (exitProcedure segment procedure m)).memory m.depth m.psp.toNat
        m.current ∧
      Activation.chain (endState (exitProcedure segment procedure m)).memory m.depth m.current =
        m.activations := by
  have quiet : Quiet m (endState (exitProcedure segment procedure m)) :=
    (quiet_of_works (exitProcedure segment procedure)).related m
  have off : Memory.AgreesOff m.ResumePoints m.memory
      (endState (exitProcedure segment procedure m)).memory :=
    agreesOff_exitProcedure upright active
  apply upright.rooted.congr
  intro a ha
  -- the links are not resume points, and neither is the place of the outermost caller
  refine Activation.same_of_bytes quiet.memory.order fun i hi needed => off.peekByte ?_
  intro resumes
  obtain ⟨offset, caller⟩ := resumes.offset upright ha hi
  rcases needed with low | outermost
  · omega
  · exact caller outermost

theorem balances_exitProcedure (active : 0 < m.depth) :
    Balances m (endState (exitProcedure segment procedure m)) := fun standing =>
  Balances.of_kept active ((quiet_of_works (exitProcedure segment procedure)).related m)
    (standing.upright.links_exitProcedure active) standing

theorem balances_exitNamed (active : 0 < m.depth) : Balances m (endState (exitNamed m)) := by
  apply balances_bind_of_silent active
  intro procedure m₁ _ silent₁
  apply balances_bind_of_silent (silent₁.depth ▸ active)
  intro segment m₂ _ silent₂
  exact balances_exitProcedure (silent₂.depth ▸ silent₁.depth ▸ active)

/-! ## Standard procedures -/

/-- How often a segment was asked for, if `performed` is the standard procedure that was carried
out, with the segment that it was given. -/
def tally (asked : StandardProcedure) (performed : Option (StandardProcedure × UInt8)) (s : UInt8) :
    Nat :=
  if performed = some (asked, s) then 1 else 0

/-- A standing machine was reached, and use counts moved with the entries of activations, with what
the program got and with what it gave up. -/
def Tallies (performed : Option (StandardProcedure × UInt8)) (m m' : Machine) : Prop :=
  m'.Standing ∧ ∀ s, s ≠ 0 →
    m'.useCount s + tally .relseg performed s + entries s m.activations =
      m.useCount s + tally .getseg performed s + entries s m'.activations

/-- A standard procedure, if it succeeds, with the segment that the top of the stack names. -/
def performed (procedure : StandardProcedure) (m : Machine) : Option (StandardProcedure × UInt8) :=
  match pop m with
  | .ok w _ => if succeeded (perform procedure m) then some (procedure, w.toUInt8) else none
  | .error _ _ => none

theorem tally_none (asked : StandardProcedure) (s : UInt8) : tally asked none s = 0 := rfl

theorem tally_performed_of_ne {asked procedure : StandardProcedure} (other : procedure ≠ asked)
    (m : Machine) (s : UInt8) : tally asked (performed procedure m) s = 0 := by
  unfold tally performed
  split
  · split
    · exact if_neg fun same => other (congrArg Prod.fst (Option.some.inj same))
    · rfl
  · rfl

theorem Balances.tallies {performed : Option (StandardProcedure × UInt8)} (h : Balances m m')
    (standing : m.Standing) (got : ∀ s, tally .getseg performed s = 0)
    (given : ∀ s, tally .relseg performed s = 0) : Tallies performed m m' := by
  obtain ⟨standing', moved⟩ := h standing
  refine ⟨standing', ?_⟩
  intro s other
  rw [got, given]
  exact moved s other

theorem Balances.tallies_none (h : Balances m m') (standing : m.Standing) : Tallies none m m' :=
  h.tallies standing (tally_none _) (tally_none _)

theorem Tallies.after_silent {performed : Option (StandardProcedure × UInt8)} {m₁ : Machine}
    (silent : Silent m m₁) (h : Tallies performed m₁ m') : Tallies performed m m' := by
  refine ⟨h.1, ?_⟩
  intro s other
  rw [← silent.activations, ← silent.useCount]
  exact h.2 s other

/-- How a standard procedure that takes the number of a segment starts. -/
theorem perform_segment_cases (procedure : StandardProcedure) {f : UInt8 → Run Machine Unit}
    (eq : perform procedure m = ((liftM pop : Exec Word) >>= fun w => liftM (f w.toUInt8)) m) :
    (endState (perform procedure m) = m ∧ performed procedure m = none) ∨
    ∃ n m₁, Silent m m₁ ∧ endState (perform procedure m) = endState (f n m₁) ∧
      performed procedure m = if succeeded (f n m₁) then some (procedure, n) else none := by
  rcases pop_cases m with ⟨e, failed, -⟩ | ⟨w, -, -, popped⟩
  · left
    constructor
    · rw [eq, liftM_bind_of_error failed]
      rfl
    · unfold performed
      rw [failed]
  · right
    have run : perform procedure m = _ := eq.trans (liftM_bind_of_ok popped)
    refine ⟨w.toUInt8, _, Keeps.of_ok popped, ?_, ?_⟩
    · rw [run, endState_liftM]
    · unfold performed
      rw [popped, run, succeeded_liftM]

theorem tallies_getseg (standing : m.Standing) (active : 0 < m.depth) :
    Tallies (performed .getseg m) m (endState (perform .getseg m)) := by
  rcases perform_segment_cases .getseg (m := m) (f := loadSegment) rfl with
    ⟨ended, none⟩ | ⟨n, m₁, silent, ended, got⟩
  · rw [ended, none]
    exact (Std.Refl.refl m : Balances m m).tallies_none standing
  rw [ended, got]
  refine Tallies.after_silent silent ?_
  have standing₁ := silent.standing active standing
  rcases standing₁.loadSegment_cases (rfl : loadSegment n m₁ = _) with
    ⟨e, failed⟩ | ⟨m', loaded, standing', same, -, -, -, uses⟩
  · rw [failed]
    exact (Std.Refl.refl m₁ : Balances m₁ m₁).tallies_none standing₁
  · rw [loaded]
    refine ⟨standing', ?_⟩
    intro s _
    show m'.useCount s + tally .relseg (some (.getseg, n)) s + _ =
      _ + tally .getseg (some (.getseg, n)) s + entries s m'.activations
    rw [same, uses]
    -- A load that succeeds counts up its own segment once, and the tally counts the load.
    by_cases here : s = n
    · subst here
      simp [tally]
    · simp [tally, here, Ne.symm here]

theorem tallies_relseg (standing : m.Standing) (active : 0 < m.depth)
    (spare : ∀ s, s ≠ 0 →
      entries s m.activations + tally .relseg (performed .relseg m) s ≤ m.useCount s) :
    Tallies (performed .relseg m) m (endState (perform .relseg m)) := by
  rcases perform_segment_cases .relseg (m := m)
      (f := fun n => if n ≠ 0 then leaveSegment n else pure ())
      (liftM_bind_apply pop _ m) with ⟨ended, none⟩ | ⟨n, m₁, silent, ended, given⟩
  · rw [ended, none]
    exact (Std.Refl.refl m : Balances m m).tallies_none standing
  rw [ended, given]
  rw [given] at spare
  refine Tallies.after_silent silent ?_
  have standing₁ := silent.standing active standing
  by_cases kernel : n = 0
  · -- RELSEG 0 succeeds and does nothing
    subst kernel
    refine ⟨standing₁, ?_⟩
    intro s other
    simp [tally, succeeded, Ne.symm other]
  simp only [ne_eq, kernel, not_false_eq_true, if_true] at spare ⊢
  cases left : leaveSegment n m₁ with
  | error e m' =>
    rcases leaveSegment_cases left with ⟨⟨e', eq⟩, -⟩ | ⟨s, -, -, eq⟩
    · cases eq
      exact (Std.Refl.refl m₁ : Balances m₁ m₁).tallies_none standing₁
    · cases eq
  | ok u m' =>
    -- the program has a use to give up, apart from those of activations
    have enough : entries n m₁.activations < m₁.useCount n := by
      have := spare n kernel
      rw [left] at this
      simp only [succeeded, if_true, tally] at this
      rw [silent.activations, silent.useCount]
      omega
    obtain ⟨m'', eq, standing', same, uses⟩ := standing₁.leaveSegment kernel enough
    cases left.symm.trans eq
    refine ⟨standing', ?_⟩
    intro s _
    show m'.useCount s + tally .relseg (some (.relseg, n)) s + _ =
      _ + tally .getseg (some (.relseg, n)) s + entries s m'.activations
    rw [same, uses]
    by_cases here : s = n
    · subst here
      simp only [tally, if_true]
      simp
      omega
    · simp [tally, here, Ne.symm here]

theorem tallies_perform (standing : m.Standing) (active : 0 < m.depth)
    (procedure : StandardProcedure)
    (kept : procedure.manages = false → m.HeadersIn (endState (perform procedure m)).memory)
    (spare : ∀ s, s ≠ 0 →
      entries s m.activations + tally .relseg (performed procedure m) s ≤ m.useCount s) :
    Tallies (performed procedure m) m (endState (perform procedure m)) := by
  have plain (h : Balances m (endState (perform procedure m))) (other : procedure ≠ .getseg)
      (other' : procedure ≠ .relseg) :=
    h.tallies standing (tally_performed_of_ne other m) (tally_performed_of_ne other' m)
  by_cases quiet : procedure.manages = false
  · have works := works_perform procedure quiet
    refine plain (balances_of_quiet inferInstance active (kept quiet)) ?_ ?_
    · rintro rfl
      cases quiet
    · rintro rfl
      cases quiet
  · cases procedure with
    | exit => exact plain (balances_exitNamed active) (by decide) (by decide)
    | getseg => exact tallies_getseg standing active
    | relseg => exact tallies_relseg standing active spare
    | _ => exact absurd rfl quiet

/-! ## Instructions -/

/-- The standard procedure that an instruction carries out, whose operands are still to be fetched. -/
def performedBy (m : Machine) : Encoding → Option (StandardProcedure × UInt8)
  | .table .csp =>
    match fetchByte m with
    | .ok code m' => (StandardProcedure.ofCode? code).bind (performed · m')
    | .error _ _ => none
  | _ => none

/-- The standard procedure that the next instruction carries out. -/
def performedNext (m : Machine) : Option (StandardProcedure × UInt8) :=
  match fetchByte m with
  | .ok opcode m' => m'.performedBy (Encoding.ofCode opcode)
  | .error _ _ => none

/-- An instruction, with its operands still to be fetched, stores where the program says.  Calls and
returns do not, but for calls that the host answers. -/
def StoresBy (m : Machine) : Encoding → Prop
  | .table .clp | .table .cgp | .table .cip | .table .cbp =>
    ∃ procedure m', fetchByte m = .ok procedure m' ∧ m'.CallsHost m'.seg procedure
  | .table .cxp =>
    ∃ segment m₁ procedure m₂, fetchByte m = .ok segment m₁ ∧ fetchByte m₁ = .ok procedure m₂ ∧
      m₂.ReachesHost segment procedure
  | .table .rnp | .table .rbp => False
  | .table .csp =>
    ∃ code m' procedure, fetchByte m = .ok code m' ∧
      StandardProcedure.ofCode? code = some procedure ∧ procedure.manages = false
  | _ => True

/-- The next instruction is one that may store where the program says. -/
def Stores (m : Machine) : Prop :=
  ∃ opcode m', fetchByte m = .ok opcode m' ∧ m'.StoresBy (Encoding.ofCode opcode)

theorem storesBy_of_quiet {op : Opcode} (quiet : op.transfers = false) :
    m.StoresBy (.table op) := by
  cases op with
  | clp | cgp | cip | cbp | cxp | rnp | rbp | csp => cases quiet
  | _ => trivial

theorem balances_callHere (active : 0 < m.depth)
    (kept : m.StoresBy (.table .clp) → m.HeadersIn (endState (callHere m)).memory) :
    Balances m (endState (callHere m)) := by
  apply balances_bind_of_silent active
  intro procedure m₁ fetched silent
  obtain ⟨ended, -⟩ := callHere_rest procedure m₁
  have whole : endState (callHere m) = endState (call m₁.seg procedure m₁) :=
    (congrArg endState (bind_of_ok fetched)).trans ended
  rw [ended]
  refine balances_call (.inl rfl) fun host => silent.headersIn ?_
  rw [← whole]
  exact kept ⟨procedure, m₁, fetched, host⟩

theorem tallies_callStandard (standing : m.Standing) (active : 0 < m.depth)
    (kept : m.StoresBy (.table .csp) → m.HeadersIn (endState (callStandard m)).memory)
    (spare : ∀ s, s ≠ 0 →
      entries s m.activations + tally .relseg (m.performedBy (.table .csp)) s ≤ m.useCount s) :
    Tallies (m.performedBy (.table .csp)) m (endState (callStandard m)) := by
  have silent := silent_fetchByte.related m
  unfold performedBy at spare ⊢
  cases fetched : fetchByte m with
  | error e m₁ =>
    rw [fetched] at silent
    have ended : callStandard m = _ := liftM_bind_of_error fetched
    rw [ended]
    exact (Balances.of_silent active silent).tallies_none standing
  | ok code m₁ =>
    rw [fetched] at silent spare
    change Silent m m₁ at silent
    have standing₁ := silent.standing active standing
    have ended : callStandard m = _ := liftM_bind_of_ok fetched
    rw [ended] at kept ⊢
    refine Tallies.after_silent silent ?_
    cases found : StandardProcedure.ofCode? code with
    -- Without a procedure of that code nothing is tallied and nothing done.
    | none =>
      simp only [found, Option.bind_none]
      exact (Std.Refl.refl m₁ : Balances m₁ m₁).tallies_none standing₁
    | some procedure =>
      simp only [found, Option.bind_some] at kept spare ⊢
      refine tallies_perform standing₁ (silent.depth ▸ active) procedure ?_ ?_
      · intro quiet
        exact silent.headersIn (kept ⟨code, m₁, procedure, fetched, found, quiet⟩)
      · intro s other
        rw [silent.activations, silent.useCount]
        exact spare s other

theorem balances_cxp (active : 0 < m.depth)
    (kept : m.StoresBy (.table .cxp) → m.HeadersIn (endState (executeTable .cxp m)).memory) :
    Balances m (endState (executeTable .cxp m)) := by
  apply balances_bind_of_silent active
  intro segment m₁ first silent₁
  apply balances_bind_of_silent (silent₁.depth ▸ active)
  intro procedure m₂ second silent₂
  have silent : Silent m m₂ := IsTrans.trans _ _ _ silent₁ silent₂
  have whole : executeTable .cxp m = (liftM (callExternal segment procedure) : Exec Unit) m₂ :=
    (bind_of_ok first).trans (bind_of_ok second)
  rw [whole, endState_liftM] at kept
  rw [endState_liftM]
  refine balances_callExternal fun host => silent.headersIn ?_
  exact kept ⟨segment, m₁, procedure, m₂, eq_ok_of_liftM first, eq_ok_of_liftM second, host⟩

theorem performedBy_of_ne {op : Opcode} (other : op ≠ .csp) (m : Machine) :
    m.performedBy (.table op) = none := by
  cases op with
  | csp => exact absurd rfl other
  | _ => rfl

theorem tallies_executeTable (standing : m.Standing) (active : 0 < m.depth) (op : Opcode)
    (kept : m.StoresBy (.table op) → m.HeadersIn (endState (executeTable op m)).memory)
    (spare : ∀ s, s ≠ 0 →
      entries s m.activations + tally .relseg (m.performedBy (.table op)) s ≤ m.useCount s) :
    Tallies (m.performedBy (.table op)) m (endState (executeTable op m)) := by
  -- Only GETSEG and RELSEG are tallied, and both are standard procedures.
  have plain (h : Balances m (endState (executeTable op m))) (other : op ≠ .csp) :
      Tallies (m.performedBy (.table op)) m (endState (executeTable op m)) := by
    rw [performedBy_of_ne other]
    exact h.tallies_none standing
  have here (kept : m.StoresBy (.table .clp) →
      m.HeadersIn (endState ((liftM callHere : Exec Unit) m)).memory) :
      Balances m (endState ((liftM callHere : Exec Unit) m)) := by
    rw [endState_liftM] at kept ⊢
    exact balances_callHere active kept
  by_cases quiet : op.transfers = false
  · have works := works_executeTable (R := Works) op quiet
    refine plain (balances_of_quiet inferInstance active (kept (storesBy_of_quiet quiet))) ?_
    rintro rfl
    cases quiet
  · cases op with
    | clp | cgp | cip | cbp => exact plain (here kept) (by decide)
    | cxp => exact plain (balances_cxp active kept) (by decide)
    | rnp | rbp =>
      refine plain (balances_bind_of_silent active fun results m₁ _ silent => ?_) (by decide)
      exact balances_returnFrom (silent.depth ▸ active) results _
    | csp => exact tallies_callStandard standing active kept spare
    | _ => exact absurd rfl quiet

theorem tallies_execute (standing : m.Standing) (active : 0 < m.depth) (opcode : UInt8)
    (kept : m.StoresBy (Encoding.ofCode opcode) → m.HeadersIn (endState (execute opcode m)).memory)
    (spare : ∀ s, s ≠ 0 → entries s m.activations +
      tally .relseg (m.performedBy (Encoding.ofCode opcode)) s ≤ m.useCount s) :
    Tallies (m.performedBy (Encoding.ofCode opcode)) m (endState (execute opcode m)) := by
  have quiet {x : Exec Unit} (h : Keeps Quiet x)
      (kept : True → m.HeadersIn (endState (x m)).memory) : Tallies none m (endState (x m)) :=
    (balances_of_quiet h active (kept trivial)).tallies_none standing
  unfold execute at kept ⊢
  revert kept spare
  cases Encoding.ofCode opcode with
  | shortConstant n | shortLocal n | shortGlobal n | shortIndirect n =>
    intro kept _
    exact quiet inferInstance kept
  | unused code =>
    intro kept _
    exact quiet (Keeps.throw _) kept
  | table op =>
    intro kept spare
    exact tallies_executeTable standing active op kept spare

/-- A machine with no procedure to go on with has no instruction to fetch. -/
theorem Upright.fetchByte_idle (upright : m.Upright) (outermost : m.depth = 0) :
    fetchByte m = .error (.invalidReference 0) m := by
  obtain ⟨ipc, ipcBase⟩ := upright.idle outermost
  have address : m.nextAddress = 0 := by
    unfold nextAddress
    rw [ipc, ipcBase]
    rfl
  unfold fetchByte reading
  simp only [bind_assoc, get_bind_apply, address, readByte_zero]
  rfl

theorem Upright.active_of_fetchByte (upright : m.Upright) {opcode : UInt8}
    (fetched : fetchByte m = .ok opcode m') : 0 < m.depth := by
  refine Nat.pos_of_ne_zero fun outermost => ?_
  cases fetched.symm.trans (upright.fetchByte_idle outermost)

theorem tallies_executeNext (standing : m.Standing)
    (kept : m.Stores → m.HeadersIn (endState (executeNext m)).memory)
    (spare : ∀ s, s ≠ 0 →
      entries s m.activations + tally .relseg m.performedNext s ≤ m.useCount s) :
    Tallies m.performedNext m (endState (executeNext m)) := by
  have silent := silent_fetchByte.related m
  unfold performedNext at spare ⊢
  cases fetched : fetchByte m with
  | error e m₁ =>
    have ended : executeNext m = _ := liftM_bind_of_error fetched
    rw [ended]
    -- at the outermost level the next address is 0, from where nothing is fetched
    rcases Nat.eq_zero_or_pos m.depth with outermost | active
    · cases fetched.symm.trans (standing.upright.fetchByte_idle outermost)
      exact (Std.Refl.refl m : Balances m m).tallies_none standing
    · rw [fetched] at silent
      exact (Balances.of_silent active silent).tallies_none standing
  | ok opcode m₁ =>
    have active := standing.upright.active_of_fetchByte fetched
    rw [fetched] at silent spare
    change Silent m m₁ at silent
    have ended : executeNext m = _ := liftM_bind_of_ok fetched
    rw [ended] at kept ⊢
    refine Tallies.after_silent silent ?_
    refine tallies_execute (silent.standing active standing) (silent.depth ▸ active) opcode ?_ ?_
    · intro stores
      exact silent.headersIn (kept ⟨opcode, m₁, fetched, stores⟩)
    · intro s other
      rw [silent.activations, silent.useCount]
      exact spare s other

/-! ## Traps and steps -/

/-- Writes to the communication block are beside all frames. -/
theorem beside_onMemory_low {α : Type} (x : Run Memory α) [Keeps Memory.Guarded x]
    (low : Keeps (Memory.AgreesOff (· < Heap.start)) x) : Keeps Beside (onMemory x) := by
  have confined := confined_onMemory x low
  constructor
  intro m
  have h := confined.related m
  refine ⟨h.store.memory.order, ?_, by rw [h.rest], by rw [h.rest], by rw [h.rest], by rw [h.rest],
    by rw [h.rest], by rw [h.rest], by rw [h.rest], by rw [h.rest]⟩
  intro a _ start _
  refine h.off.peekByte ?_
  rw [UInt16.lt_iff_toNat_lt]
  exact Nat.not_lt.2 start

/-- The communication block lies below the heap. -/
theorem low_recordTrap (fault : Fault) (address mp : Address) :
    Keeps (Memory.AgreesOff (· < Heap.start)) (Syscom.recordTrap fault address mp) := by
  have word {a : Address} (w : Word) (first : a < Heap.start) (second : a + 1 < Heap.start) :
      Keeps (Memory.AgreesOff (· < Heap.start)) (Memory.writeWord a w) :=
    Memory.keeps_writeWord_off first second
  have code := word (a := Syscom.errorCode) fault.code (by decide) (by decide)
  have place := word (a := Syscom.errorAddress) address (by decide) (by decide)
  have frame := word (a := Syscom.errorFrame) mp (by decide) (by decide)
  unfold Syscom.recordTrap
  cases fault.ioResult? with
  | none => infer_instance
  | some result =>
    have shown : Keeps (Memory.AgreesOff (· < Heap.start)) (Syscom.writeIoResult result) :=
      word (a := Syscom.ioResult) result (by decide) (by decide)
    infer_instance

instance beside_recordTrap (fault : Fault) (address mp : Address) :
    Keeps Beside (onMemory (Syscom.recordTrap fault address mp)) :=
  beside_onMemory_low _ (low_recordTrap fault address mp)

/-- A procedure that the host should know but does not is a fault, and nothing was done. -/
theorem call_unbound_fails (hosted : m.Hosted) (calls : m.CallsHost segment procedure)
    (other : procedure ≠ 1) : ∃ e, call segment procedure m = .error e m := by
  obtain ⟨e, failed⟩ : ∃ e, callBound segment procedure m = .error e m := by
    rcases callBound_cases segment procedure m with failed | ⟨b, mem, same, -⟩
    · exact failed
    · exact absurd (same.symm.trans (hosted b mem).1) other
  exact ⟨e, (call_of_callsHost calls).trans (bind_of_error failed)⟩

theorem call_unbound (hosted : m.Hosted) (calls : m.CallsHost segment procedure)
    (other : procedure ≠ 1) : endState (call segment procedure m) = m := by
  obtain ⟨e, failed⟩ := call_unbound_fails hosted calls other
  rw [failed]
  rfl

instance balances_callHandler : Keeps Balances (call 0 handlerProcedure) := by
  constructor
  intro m standing
  refine balances_call (.inr rfl) (fun calls => ?_) standing
  rw [call_unbound standing.secure.hosted calls (by decide)]
  exact fun _ _ _ _ => rfl

theorem beside_record (m : Machine) : Beside m m.record := by
  rw [record_eq]
  exact Beside.of_same rfl rfl rfl rfl rfl rfl rfl rfl rfl

instance balances_deliver (fault : Fault) : Keeps Balances (deliver fault) := by
  have noted (depth : Machine → Option Nat) :
      Keeps Balances (modify fun m => { m with trapDepth := depth m } : Exec PUnit) :=
    Keeps.modify fun _ => Balances.of_beside
      (Beside.of_same rfl rfl rfl rfl rfl rfl rfl rfl rfl) (Settles.of_same rfl rfl rfl rfl rfl rfl)
  unfold deliver
  infer_instance

instance balances_conclude (outcome : Except Stop Unit) : Keeps Balances (conclude outcome) := by
  have recorded : Keeps Balances (modify record : Exec PUnit) :=
    Keeps.modify fun m => Balances.of_beside (beside_record m) (settles_record m)
  have halted : Keeps Balances (modify fun m => { m with halted := true }.record : Exec PUnit) :=
    Keeps.modify fun m => IsTrans.trans _ { m with halted := true } _
      (Balances.of_beside (Beside.of_same rfl rfl rfl rfl rfl rfl rfl rfl rfl)
        (Settles.of_same rfl rfl rfl rfl rfl rfl))
      (Balances.of_beside (beside_record _) (settles_record _))
  unfold conclude
  split <;> infer_instance

theorem balances_prepare (m : Machine) : Balances m m.prepare :=
  Balances.of_beside (Beside.of_same rfl rfl rfl rfl rfl rfl rfl rfl rfl)
    (Settles.of_same rfl rfl rfl rfl rfl rfl)

/-- The standard procedure that a step carries out. -/
def performedIn (m : Machine) : Option (StandardProcedure × UInt8) :=
  if m.halted then none else m.prepare.performedNext

/-- In its next step the program stores nothing in the header of an active frame. -/
def LeavesHeaders (m : Machine) : Prop :=
  m.halted = false → m.prepare.Stores → m.HeadersIn (endState (executeNext m.prepare)).memory

theorem Tallies.trans_balances {performed : Option (StandardProcedure × UInt8)} {m₁ : Machine}
    (h : Tallies performed m m₁) (h' : Balances m₁ m') : Tallies performed m m' := by
  obtain ⟨standing, moved⟩ := h
  obtain ⟨standing', moved'⟩ := h' standing
  refine ⟨standing', ?_⟩
  intro s other
  have first := moved s other
  have second := moved' s other
  omega

theorem tallies_step (standing : m.Standing) (kept : m.LeavesHeaders)
    (spare : ∀ s, s ≠ 0 → entries s m.activations + tally .relseg m.performedIn s ≤ m.useCount s) :
    Tallies m.performedIn m (endState (step m)) := by
  unfold step
  unfold performedIn at spare ⊢
  by_cases halted : m.halted = true
  · rw [if_pos halted, if_pos halted]
    exact (Std.Refl.refl m : Balances m m).tallies_none standing
  · rw [if_neg halted] at spare
    rw [if_neg halted, if_neg halted]
    have executed : Tallies m.prepare.performedNext m _ :=
      tallies_executeNext (balances_prepare m standing).1 (kept (by simpa using halted)) spare
    -- whatever the outcome, what follows is a call of the handler at most
    have concluded (outcome : Except Stop Unit) (m' : Machine) :
        Balances m' (endState (conclude outcome { m' with instructions := m'.instructions + 1 })) :=
      IsTrans.trans _ { m' with instructions := m'.instructions + 1 } _
        (Balances.of_beside (Beside.of_same rfl rfl rfl rfl rfl rfl rfl rfl rfl)
          (Settles.of_same rfl rfl rfl rfl rfl rfl))
        ((balances_conclude outcome).related _)
    cases hx : executeNext m.prepare with
    | ok u m' =>
      rw [hx] at executed
      exact executed.trans_balances (concluded _ m')
    | error stop m' =>
      rw [hx] at executed
      exact executed.trans_balances (concluded _ m')

/-! ## Runs -/

/-- The machines that one boot and any number of steps lead to, if the program stores nothing in the
headers of active frames and releases no segment more often than it got it.  The counts are of the
uses that the program got with GETSEG and gave up with RELSEG. -/
inductive Counted : Machine → (got given : UInt8 → Nat) → Prop
  | boot {storage : Storage} {console : Console} {config : Config} {host : HostView}
      {limit : Option Nat} {unit : Word} {file : String} {m : Machine} :
      SystemFits (create storage console config host limit) unit file →
      boot unit file (create storage console config host limit) = .ok () m →
      Counted m (fun _ => 0) (fun _ => 0)
  | step {m : Machine} {got given : UInt8 → Nat} :
      Counted m got given → m.LeavesHeaders →
      (∀ s, s ≠ 0 →
        given s + tally .relseg m.performedIn s ≤ got s + tally .getseg m.performedIn s) →
      Counted (endState (step m)) (fun s => got s + tally .getseg m.performedIn s)
        (fun s => given s + tally .relseg m.performedIn s)
  /-- Between two steps the host may show something else. -/
  | observe {m : Machine} {got given : UInt8 → Nat} (host : HostView) :
      Counted m got given → Counted (m.observe host) got given

/-- The invariant of such a run. -/
structure Balanced (m : Machine) (got given : UInt8 → Nat) : Prop where
  standing : m.Standing
  uses : ∀ s, s ≠ 0 → m.useCount s + given s = entries s m.activations + got s

/-- Before the first call there is no activation, and segment 0 alone is in memory. -/
theorem standing_of_loaded {fresh : Machine} (hfresh : fresh.Fresh) (loaded : Loaded fresh m) :
    m.Standing ∧ m.activations = [] ∧ ∀ s, s ≠ 0 → m.useCount s = 0 := by
  obtain ⟨mp, -, seg, jtab, ipc, ipcBase, depth⟩ := hfresh.outermost
  have rest := loaded.rest
  have outermost : m.depth = 0 := by
    rw [rest]
    exact depth
  -- Nothing has been called yet: the chain of frames is empty and every count but the kernel's is
  -- zero.
  have none : m.activations = [] := by
    unfold activations
    rw [outermost]
    rfl
  have current : m.current = Activation.nothing := by
    rw [rest]
    show Activation.mk fresh.mp fresh.seg fresh.jtab = _
    rw [mp, seg, jtab]
    rfl
  refine ⟨⟨loaded.secure, ?_, ?_, ?_⟩, none, ?_⟩
  · rw [outermost]
    exact current
  · intro _
    rw [rest]
    exact ⟨ipc, ipcBase⟩
  · intro s _
    rw [none]
    exact Nat.zero_le _
  · intro s other
    unfold useCount
    cases hs : m.segments.get? s with
    | none => rfl
    | some segment =>
      have count := loaded.counts s segment hs
      rw [if_neg other] at count
      exact count

theorem balanced_of_boot {unit : Word} {file : String} {fresh : Machine} (hfresh : fresh.Fresh)
    (fits : SystemFits fresh unit file) (h : boot unit file fresh = .ok () m) :
    Balanced m (fun _ => 0) (fun _ => 0) := by
  obtain ⟨m₁, kind, m₂, -, loaded, called, rfl⟩ := loaded_of_boot hfresh fits h
  obtain ⟨standing, none, unused⟩ := standing_of_loaded hfresh loaded
  -- no frame is active yet that the first call could touch
  have first : Balances m₁ (endState (call 0 1 m₁)) := by
    refine balances_call (.inr rfl) fun _ a ha => ?_
    rw [none] at ha
    cases ha
  have entered : Balances m₁ m₂ := by
    rw [called] at first
    exact first
  have recorded : Balances m₂ m₂.record :=
    Balances.of_beside (beside_record m₂) (settles_record m₂)
  have booted : Balances m₁ m₂.record := IsTrans.trans _ _ _ entered recorded
  obtain ⟨standing', moved⟩ := booted standing
  refine ⟨standing', ?_⟩
  intro s other
  have := moved s other
  rw [none, unused s other] at this
  simpa [entries] using this

/-- No instruction both gets and releases a segment. -/
theorem tally_or (performed : Option (StandardProcedure × UInt8)) (s : UInt8) :
    tally .getseg performed s = 0 ∨ tally .relseg performed s = 0 := by
  by_cases gets : performed = some (.getseg, s)
  · right
    rw [gets]
    exact if_neg (by simp)
  · exact .inl (if_neg gets)

/-- A release is covered by an earlier GETSEG. -/
theorem Balanced.spare {got given : UInt8 → Nat} (h : Balanced m got given)
    (owned : ∀ s, s ≠ 0 →
      given s + tally .relseg m.performedIn s ≤ got s + tally .getseg m.performedIn s)
    (s : UInt8) (other : s ≠ 0) :
    entries s m.activations + tally .relseg m.performedIn s ≤ m.useCount s := by
  have uses := h.uses s other
  have enough := owned s other
  have covered := h.standing.covered s other
  -- the step that releases gets nothing itself
  have one := tally_or m.performedIn s
  omega

theorem Balanced.step {got given : UInt8 → Nat} (h : Balanced m got given) (kept : m.LeavesHeaders)
    (owned : ∀ s, s ≠ 0 →
      given s + tally .relseg m.performedIn s ≤ got s + tally .getseg m.performedIn s) :
    Balanced (endState (Machine.step m)) (fun s => got s + tally .getseg m.performedIn s)
      (fun s => given s + tally .relseg m.performedIn s) := by
  obtain ⟨standing', moved⟩ := tallies_step h.standing kept (h.spare owned)
  refine ⟨standing', ?_⟩
  intro s other
  have uses := h.uses s other
  have := moved s other
  omega

theorem Balanced.observe {got given : UInt8 → Nat} (h : Balanced m got given) (host : HostView) :
    Balanced (m.observe host) got given := by
  obtain ⟨standing', moved⟩ :=
    Balances.of_beside (Beside.observe m host) (Settles.observe m host) h.standing
  refine ⟨standing', ?_⟩
  intro s other
  have uses := h.uses s other
  have := moved s other
  omega

theorem balanced_of_counted {got given : UInt8 → Nat} (h : Counted m got given) :
    Balanced m got given := by
  induction h with
  | boot fits booted => exact balanced_of_boot (fresh_create _ _ _ _ _) fits booted
  | step run kept owned ih => exact ih.step kept owned
  | observe host run ih => exact ih.observe host

/-- As long as a program gets a segment less than 61165 times more often than it gives it up, one more
use can be counted in 16 bits: the frames on the program stack leave room for no more entries. -/
theorem Counted.useCount_lt {got given : UInt8 → Nat} (h : Counted m got given) {s : UInt8}
    (other : s ≠ 0) (kept : got s < given s + 61165) : m.useCount s < 65535 := by
  have balanced := balanced_of_counted h
  have uses := balanced.uses s other
  have entered := Activation.entries_le_length s m.activations
  rw [length_activations] at entered
  have frames := balanced.standing.rooted.length_le
  omega

theorem invalid_of_fetchByte {e : Fault} (h : fetchByte m = .error e m') :
    ∃ a, e = .invalidReference a := by
  rcases reading_bind_cases h with ⟨e', fault, eq⟩ | ⟨b, -, eq⟩
  · cases eq
    exact invalid_of_readByte fault
  · cases eq

/-- The instruction that returns fails only for the evaluation stack or for its operand. -/
theorem Standing.return_fault (standing : m.Standing) {opcode : UInt8} {m₁ : Machine} {e : Fault}
    (fetched : fetchByte m = .ok opcode m₁)
    (returns : Encoding.ofCode opcode = .table .rnp ∨ Encoding.ofCode opcode = .table .rbp)
    (h : executeNext m = .error (.trap e) m') : StackFault e := by
  have active := standing.upright.active_of_fetchByte fetched
  have silent₁ : Silent m m₁ := Keeps.of_ok fetched
  obtain ⟨baseProcedure, eq⟩ : ∃ baseProcedure, execute opcode =
      (do returnFrom (← fetchByte) baseProcedure : Exec Unit) := by
    unfold execute
    rcases returns with code | code
    · exact ⟨false, by rw [code]; rfl⟩
    · exact ⟨true, by rw [code]; rfl⟩
  have run : executeNext m = _ := liftM_bind_of_ok fetched
  rw [run, eq] at h
  -- The fault comes from the operand of the return or from the return itself.
  rcases bind_cases h with ⟨stop, m₂, failed, eq⟩ | ⟨results, m₂, operand, returned⟩
  · cases eq
    cases operand : fetchByte m₁ with
    | ok b m₃ => cases (raising_of_ok operand).symm.trans failed
    | error e' m₃ =>
      cases (raising_of_error operand).symm.trans failed
      exact .inr (.inr (invalid_of_fetchByte operand))
  · have silent₂ : Silent m₁ m₂ := Keeps.of_ok (eq_ok_of_liftM operand)
    have silent : Silent m m₂ := IsTrans.trans _ _ _ silent₁ silent₂
    exact (silent.standing active standing).returnFrom_fault (silent.depth ▸ active) returned

/-- Use counts are what they should be, so that every active segment is in memory and every return
can let go of the segment that it leaves. -/
theorem use_counts_balanced {got given : UInt8 → Nat} (h : Counted m got given) :
    (∀ s, s ≠ 0 → m.useCount s + given s = entries s m.activations + got s) ∧
    1 ≤ m.useCount 0 ∧
    (∀ a ∈ m.activations, ∃ s, m.segments.get? a.segment = some s ∧ s.isResident = true) ∧
    ∀ opcode m₁, fetchByte m.prepare = .ok opcode m₁ →
      Encoding.ofCode opcode = .table .rnp ∨ Encoding.ofCode opcode = .table .rbp →
      ∀ s m', executeNext m.prepare ≠ .error (.trap (.system (.releaseOfAbsent s))) m' := by
  have balanced := balanced_of_counted h
  have standing := balanced.standing
  refine ⟨balanced.uses, ?_, fun a ha => standing.resident ha, ?_⟩
  · obtain ⟨s, hs, resident⟩ := standing.secure.kernel
    have used : 0 < s.useCount := by simpa [Segment.isResident] using resident
    rw [useCount_of_get? hs]
    exact used
  · intro opcode m₁ fetched returns s m' failed
    have ready := (balances_prepare m standing).1
    rcases ready.return_fault fetched returns failed with no | no | ⟨a, no⟩
    · cases no
    · cases no
    · cases no

/-! ## A run with an overlay -/

/-- A main program that gets segment 1, and then calls its only procedure. -/
def visiting : List SegmentSpec :=
  [{ number := 0
     name := "KERNEL"
     procedures :=
       [{ level := 1
          body := some
            { code := [1, Opcode.csp.code, StandardProcedure.getseg.code, Opcode.cxp.code, 1, 1,
                Opcode.xit.code] } }] },
    { number := 1
      name := "OVERLAY"
      procedures := [{ level := 1, body := some { code := [Opcode.rnp.code, 0] } }] }]

/-- Whether the next instruction leaves the headers of active frames as they are. -/
def keepsHeaders (m : Machine) : Bool :=
  m.activations.all fun a => (List.range 14).all fun i =>
    (endState (executeNext m.prepare)).memory.peekByte (a.frame + UInt16.ofNat i) ==
      m.memory.peekByte (a.frame + UInt16.ofNat i)

theorem leavesHeaders_of_keepsHeaders (h : keepsHeaders m = true) : m.LeavesHeaders := by
  intro _ _ a ha i hi
  unfold keepsHeaders at h
  have bytes := List.all_eq_true.1 (List.all_eq_true.1 h a ha) i (List.mem_range.2 hi)
  exact eq_of_beq bytes

theorem visiting_run :
    let m₀ := started visiting
    let m₁ := endState (step m₀)
    let m₂ := endState (step m₁)
    let m₃ := endState (step m₂)
    starts visiting = true ∧ keepsHeaders m₀ = true ∧ keepsHeaders m₁ = true ∧
      keepsHeaders m₂ = true ∧ m₀.performedIn = none ∧ m₁.performedIn = some (.getseg, 1) ∧
      m₂.performedIn = none ∧ entries 1 m₃.activations = 1 := by
  decide +kernel

theorem use_counts_balanced_visiting :
    ∃ m got given, Counted m got given ∧ entries 1 m.activations = 1 ∧ got 1 = 1 ∧ given 1 = 0 ∧
      m.useCount 1 = 2 := by
  obtain ⟨starts, kept₀, kept₁, kept₂, performed₀, performed₁, performed₂, entered⟩ := visiting_run
  obtain ⟨fits, booted⟩ := boot_of_starts starts
  have run₀ : Counted (started visiting) (fun _ => 0) (fun _ => 0) := .boot fits booted
  have run₁ := run₀.step (leavesHeaders_of_keepsHeaders kept₀) fun s _ => by
    rw [performed₀]
    exact Nat.le_refl 0
  have run₂ := run₁.step (leavesHeaders_of_keepsHeaders kept₁) fun s _ => by
    rw [performed₀, performed₁]
    simp [tally]
  have run₃ := run₂.step (leavesHeaders_of_keepsHeaders kept₂) fun s _ => by
    rw [performed₀, performed₁, performed₂]
    simp [tally]
  obtain ⟨got, given, run, one, none⟩ : ∃ got given,
      Counted (endState (step (endState (step (endState (step (started visiting))))))) got given ∧
        got 1 = 1 ∧ given 1 = 0 := by
    refine ⟨_, _, run₃, ?_, ?_⟩
    · rw [performed₀, performed₁, performed₂]
      rfl
    · rw [performed₀, performed₁, performed₂]
      rfl
  -- One GETSEG and one entry from another segment: the balance gives two uses.
  have uses := (use_counts_balanced run).1 1 (by decide)
  rw [entered, one, none, Nat.add_zero] at uses
  exact ⟨_, got, given, run, entered, one, none, uses⟩

end Machine
end PSystem
