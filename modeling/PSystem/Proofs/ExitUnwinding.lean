import PSystem.Proofs.AlignedOperands
import PSystem.Proofs.ExitWalk
import PSystem.Proofs.StaticChain
import PSystem.Proofs.Visits

/-!
# EXIT unwinds to the innermost activation of a procedure

The activations of a machine are numbered from 0, the current one, outward.  EXIT looks for the first
of the procedure that it names (`Innermost`).  It sends the current procedure to its exit code, and in
the frame of each activation before that one it notes that the caller goes on at its own exit code.
Nothing else changes, and nothing at all if there is no such activation (`exit_unwinds`).

The frames have to be linked as calls link them, which they are along every run of a program that
leaves their headers alone (`Visits.framed`).  Attribute tables may lie anywhere, but EXIT has to be
able to read them, and to read them before it writes over them: otherwise it can send procedures
elsewhere (`exit_misled_by_tables`).
-/

namespace PSystem
namespace Machine

variable {m m' : Machine} {segment procedure : UInt8}

/-- EXIT leaves all activations before the innermost one that it names: the current procedure and
every caller on the way goes on at its exit code.  If no activation is of the procedure, it says so
and changes nothing. -/
theorem exit_unwinds (framed : m.Framed) :
    (∀ k, Activation.Innermost m.memory segment procedure m.activations k → m.Readable k →
      ∃ m', exitProcedure segment procedure m = .ok () m' ∧ m.Unwound k m') ∧
    ((∀ a ∈ m.activations, ¬ a.IsNamed m.memory segment procedure) →
      exitProcedure segment procedure m =
        .error (.trap (.exitFromUncalled segment procedure)) m) := by
  constructor
  · intro k first readable
    exact framed.exitProcedure_found readable first
  · intro none
    exact framed.exitProcedure_none none

/-! ## Frames that calls have made -/

/-- The headers of frames and code do not overlap. -/
def HeadersApart (m : Machine) (active : List Call) : Prop :=
  ∀ c ∈ active, ∀ part p, m.segments.placement? part = some p →
    c.frame.toNat + 14 ≤ p.base.toNat ∨ p.base.toNat + p.footprint ≤ c.frame.toNat

/-- Code that was there before is still apart from the frames. -/
theorem HeadersApart.of_settles {active : List Call} (h : m.HeadersApart active) (secure : m.Secure)
    (settles : Settles m m') : m'.HeadersApart active :=
  fun c hc part p placed => h c hc part p ((settles secure).2 part p placed).1

/-- A segment that is brought in lies below all frames. -/
theorem HeadersApart.load {active : List Call} {s : UInt8} (h : m.HeadersApart active)
    (placed : Placed m active) (loaded : loadSegment s m = .ok () m') : m'.HeadersApart active := by
  have secure := placed.upright.secure
  rcases loadSegment_outcome secure.layout loaded with
    ⟨e, failed⟩ | ⟨entry, hs, ⟨resident, eq⟩ | ⟨absent, base, bytes, memory, brought, eq⟩⟩
  · cases failed
  · cases eq
    exact h.of_settles secure (settles_countUp hs resident)
  · cases eq
    intro c hc part p there
    have number := secure.layout.entries.numbered s entry hs
    have other := secure.other_of_absent hs absent
    change (m.segments.modify entry.number (Segment.putAt base)).placement? part = some p at there
    rw [number, CodeLayout.placement?_putAt base hs (fun kernel => absurd kernel other) absent]
      at there
    split at there
    · cases there
      have above := (placed.upright.rooted.of_mem (placed.mem hc)).1
      have carved := brought.carved
      exact .inr (Nat.le_trans (Nat.le_of_eq carved) above)
    · exact h c hc part p there

/-- A new frame lies below all code. -/
theorem HeadersApart.entered {active : List Call} {c : Call} (h : m.HeadersApart active)
    (secure : m.Secure) (made : Made segment c m m') : m'.HeadersApart (c :: active) := by
  have before := h.of_settles secure (settles_entered made.entered)
  have frame : c.frame = m'.mp := congrArg Activation.frame made.activation
  have size := made.entered.size
  refine fun d hd part p placed => ?_
  rcases List.mem_cons.1 hd with rfl | hd
  · have there := (settles_entered made.entered secure).2 part p placed
    have above := UInt16.le_iff_toNat_le.1 (secure.layout.above part p there.1)
    rw [frame]
    omega
  · exact before d hd part p placed

theorem kept_headersApart (above : Prop) :
    Kept above fun m active _ => m.HeadersApart active where
  stays _ stays h c hc part p placed := h c hc part p (stays.segments ▸ placed)
  load placed loaded h := h.load placed loaded
  release placed other hs resident h :=
    h.of_settles placed.upright.secure (settles_afterRelease hs resident other)
  reclaim _ h := h
  back _ _ _ h c hc := h c (List.mem_of_mem_tail hc)
  made placed called h := h.entered placed.upright.secure called

theorem Visits.headersApart {rule : Machine → Prop} {active made : List Call}
    (run : Visits rule m active made) : Placed m active ∧ m.HeadersApart active :=
  run.kept (kept_headersApart True) (fun _ _ _ => List.forall_mem_nil _)
    fun _ _ _ => trivial

/-- Along a run of a program that leaves headers alone, the frames of active procedures are linked,
and their headers free. -/
theorem Visits.framed {rule : Machine → Prop} {active made : List Call}
    (run : Visits rule m active made) (running : 0 < m.depth) : m.Framed := by
  obtain ⟨placed, apart⟩ := run.headersApart
  have layout := placed.upright.secure.layout
  refine ⟨running, placed.upright.rooted.weaken fun _ => Nat.zero_le _, fun a ha i hi => ?_⟩
  obtain ⟨-, start, top⟩ := placed.upright.rooted.of_mem ha
  have place : (a.frame + UInt16.ofNat i).toNat = a.frame.toNat + i := toNat_add_ofNat (by omega)
  have plain : Heap.start ≤ a.frame + UInt16.ofNat i := UInt16.le_iff_toNat_le.2 (by
    rw [place]
    exact Nat.le_add_right_of_le start)
  refine ⟨ne_zero_of_start plain, layout.unmapped _ plain, ?_⟩
  -- protected cells are code, which headers do not overlap
  rw [Bool.eq_false_iff]
  intro locked
  obtain ⟨part, p, there, first, last⟩ := (layout.marked _).1 locked
  rw [← placed.actives] at ha
  obtain ⟨c, hc, rfl⟩ := List.mem_map.1 ha
  have beside := apart c hc part p there
  rw [place] at first last
  change c.frame.toNat + 14 ≤ _ ∨ _ ≤ c.frame.toNat at beside
  change _ ≤ c.frame.toNat + i at first
  change c.frame.toNat + i < _ at last
  omega

theorem Visits.readable {rule : Machine → Prop} {active made : List Call}
    (run : Visits rule m active made) (running : 0 < m.depth) (coded : m.Coded active) (k : Nat) :
    m.Readable k := by
  have placed := run.headersApart.1
  refine (run.framed running).readable_of_inCode placed.upright.secure (fun a ha => ?_) k
  rw [← placed.actives] at ha
  obtain ⟨c, hc, rfl⟩ := List.mem_map.1 ha
  exact coded c hc

/-! ## Runs -/

/-- Two procedures of an overlay that call each other. -/
def recursing : List SegmentSpec :=
  [{ number := 0
     name := "KERNEL"
     procedures :=
       [{ level := 1, body := some { code := [Opcode.cxp.code, 1, 1, Opcode.xit.code], exit := 3 } }] },
    { number := 1
      name := "OVERLAY"
      procedures :=
        [{ level := 1
           body := some { code := [Opcode.clp.code, 2, Opcode.nop.code, Opcode.rnp.code, 0], exit := 3 } },
          { level := 1
            body := some { code := [Opcode.clp.code, 1, Opcode.rnp.code, 0], exit := 2 } }] }]

/-- Each of them is active twice. -/
def recursingVisit : Machine × List Call × List Call :=
  let calls := (callMade 0 1 (unstarted recursing)).toList
  visit 4 (started recursing) calls calls

theorem recursingVisit_run :
    starts recursing = true ∧ keepsTo (fun _ => true) 4 (started recursing) = true ∧
    recursingVisit.1.depth = 5 ∧ recursingVisit.1.Coded recursingVisit.2.1 ∧
    Activation.Innermost recursingVisit.1.memory 1 1 recursingVisit.1.activations 1 ∧
    Activation.Innermost recursingVisit.1.memory 0 1 recursingVisit.1.activations 4 ∧
    ∀ a ∈ recursingVisit.1.activations, ¬ a.IsNamed recursingVisit.1.memory 1 3 := by
  decide +kernel

/-- EXIT leaves one activation of the procedure or all of them, or fails. -/
theorem exit_unwinds_recursing :
    ∃ m, m.depth = 5 ∧
      (∃ m', exitProcedure 1 1 m = .ok () m' ∧ m.Unwound 1 m') ∧
      (∃ m', exitProcedure 0 1 m = .ok () m' ∧ m.Unwound 4 m') ∧
      exitProcedure 1 3 m = .error (.trap (.exitFromUncalled 1 3)) m := by
  obtain ⟨starts, kept, deep, coded, inner, outer, other⟩ := recursingVisit_run
  have run : Visits _ recursingVisit.1 recursingVisit.2.1 recursingVisit.2.2 :=
    (visits_started (fun _ => True) starts).steps (fun _ _ => trivial) kept
  have running : 0 < recursingVisit.1.depth := by omega
  exact ⟨_, deep, (exit_unwinds (run.framed running)).1 1 inner (run.readable running coded 1),
    (exit_unwinds (run.framed running)).1 4 outer (run.readable running coded 4),
    (exit_unwinds (run.framed running)).2 other⟩

/-! ## Attribute tables outside code -/

/-- What a list of directives is assembled to. -/
def assembled (directives : List Directive) : Body :=
  (Body.assemble .little directives).toOption.getD {}

/-- Stores words at addresses. -/
def storing (words : List (Word × Word)) : List Directive :=
  words.flatMap fun (a, w) => Directive.ldci a ++ Directive.ldci w ++ [.op Opcode.sto.code]

/-- Leaves procedure 1 of segment 1. -/
def exiting : List Directive :=
  [.byte 1, .byte 1, .op Opcode.csp.code, .byte StandardProcedure.exit.code]

/-- A main program that writes words of an attribute table to memory and then calls procedure 1 of an
overlay, whose segment dictionary says at what distance back this table lies. -/
def tabled (distance : Word) (table : List (Word × Word)) (procedures : List ProcedureSpec) :
    List CodePart :=
  let main : SegmentSpec :=
    { number := 0
      name := "KERNEL"
      procedures :=
        [{ level := 1
           body := some (assembled (storing table ++
            [.op Opcode.cxp.code, .byte 1, .byte 1, .op Opcode.xit.code])) }] }
  let image := ({ number := 1, name := "OVERLAY", procedures } : SegmentSpec).image .little
  let (low, high) := ByteOrder.little.split distance
  [.ofSpec .little main,
    { number := 1
      name := "OVERLAY"
      bytes := (image.set (image.length - 4) low).set (image.length - 3) high }]

/-- The exit and entry words of procedure 1 lie in the header of the frame of procedure 3, which leaves
procedure 1. -/
def tableInFrame : List CodePart :=
  tabled 80 [(0xEF78, 0xFFE0), (0xEF7A, 0x101)]
    [{ level := 1
       body := some { code := [Opcode.clp.code, 2, Opcode.rnp.code, 0], exit := 2 } },
      { level := 1
        body := some
          { code := [Opcode.clp.code, 3, Opcode.nop.code, Opcode.nop.code, Opcode.rnp.code, 0]
            exit := 4 } },
      { level := 1
        dataBytes := 2
        body := some (assembled (exiting ++ [.op Opcode.rnp.code, .byte 0])) }]

/-- The exit word of procedure 1, which leaves itself, lies at address 0. -/
def tableAtZero : List CodePart :=
  tabled 0xEFC6 [(2, 0x1046), (4, 0x101)] [{ level := 1, body := some (assembled exiting) }]

/-- Procedure 1 changes its entry word before it leaves itself. -/
def tableChanged : List CodePart :=
  tabled 0xEDCA [(0x1FE, 0x124C), (0x200, 0x101)]
    [{ level := 1, body := some (assembled (storing [(0x1FE, 0)] ++ exiting)) }]

/-- A machine, its active calls and all its calls after it was started from the given parts and took
some steps. -/
def visitParts (n : Nat) (parts : List CodePart) : Machine × List Call × List Call :=
  let calls := (callMade 0 1 (endState (loadSystem 4 "SYSTEM" (holdingParts parts)))).toList
  visit n (endState (boot 4 "SYSTEM" (holdingParts parts))) calls calls

/-- Whether a machine can be started from the given parts and leaves headers alone in its first
steps. -/
def visitsParts (n : Nat) (parts : List CodePart) : Bool :=
  boots (holdingParts parts) &&
    keepsTo (fun _ => true) n (endState (boot 4 "SYSTEM" (holdingParts parts)))

theorem visits_visitParts {n : Nat} {parts : List CodePart} (h : visitsParts n parts = true) :
    Visits (fun _ => True) (visitParts n parts).1 (visitParts n parts).2.1
      (visitParts n parts).2.2 := by
  unfold visitsParts at h
  rw [Bool.and_eq_true] at h
  exact (visits_boots _ rfl h.1).steps (fun _ _ => trivial) h.2

/-- The offset at which activation `i` goes on, as its frame says. -/
def resumesAt (m : Machine) (memory : Memory) (i : Nat) : Option Word :=
  m.activations[i]?.map fun a => memory.peekWord (a.frame + Frame.savedIpc)

/-- The exit offset of activation `i`, as its attribute table says. -/
def exitsAt (m : Machine) (i : Nat) : Option Word :=
  m.activations[i]?.bind fun a => (Call.exitOffset m.memory a.jtab).toOption

theorem tableInFrame_run :
    visitsParts 9 tableInFrame = true ∧ let m := (visitParts 9 tableInFrame).1
      Activation.Innermost m.memory 1 1 m.activations 2 ∧
      succeeded (exitProcedure 1 1 m) = true ∧ m.exitsAt 2 = some 0xFFEC ∧
      m.resumesAt (endState (exitProcedure 1 1 m)).memory 1 = some 0xFFEA := by
  decide +kernel

theorem tableAtZero_run :
    visitsParts 7 tableAtZero = true ∧ let m := (visitParts 7 tableAtZero).1
      Activation.Innermost m.memory 1 1 m.activations 0 ∧
      succeeded (exitProcedure 1 1 m) = false := by
  decide +kernel

theorem tableChanged_run :
    visitsParts 10 tableChanged = true ∧ let m := (visitParts 10 tableChanged).1
      Activation.Innermost m.memory 1 1 m.activations 0 ∧
      succeeded (exitProcedure 1 1 m) = true ∧ m.exitsAt 0 = some 0xFFFE ∧
      (endState (exitProcedure 1 1 m)).ipc = 0x124A := by
  decide +kernel

/-- Without tables in code EXIT need not send every procedure to its exit code: it reads an exit word
after it has written over it, it cannot read one at address 0, and it takes the current procedure to
start where it was entered. -/
theorem exit_misled_by_tables :
    (∃ m active made, Visits (fun _ => True) m active made ∧
      Activation.Innermost m.memory 1 1 m.activations 2 ∧
      succeeded (exitProcedure 1 1 m) = true ∧ m.exitsAt 2 = some 0xFFEC ∧
      m.resumesAt (endState (exitProcedure 1 1 m)).memory 1 = some 0xFFEA) ∧
    (∃ m active made, Visits (fun _ => True) m active made ∧
      Activation.Innermost m.memory 1 1 m.activations 0 ∧
      succeeded (exitProcedure 1 1 m) = false) ∧
    ∃ m active made, Visits (fun _ => True) m active made ∧
      Activation.Innermost m.memory 1 1 m.activations 0 ∧
      succeeded (exitProcedure 1 1 m) = true ∧ m.exitsAt 0 = some 0xFFFE ∧
      (endState (exitProcedure 1 1 m)).ipc = 0x124A := by
  obtain ⟨inFrame, overwritten⟩ := tableInFrame_run
  obtain ⟨atZero, unreadable⟩ := tableAtZero_run
  obtain ⟨changed, moved⟩ := tableChanged_run
  exact ⟨⟨_, _, _, visits_visitParts inFrame, overwritten⟩,
    ⟨_, _, _, visits_visitParts atZero, unreadable⟩, _, _, _, visits_visitParts changed, moved⟩

end Machine
end PSystem
