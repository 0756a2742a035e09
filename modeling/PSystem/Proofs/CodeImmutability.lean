import PSystem.Proofs.Boot

/-!
# Code is immutable

Every step of a machine `Grows`: it settles, or it reads a segment from disk.  So along every run
from a boot the pieces of resident code are apart and above the program stack pointer, exactly their
cells are protected, and they hold what was read from disk (`code_immutable`).
-/

namespace PSystem
namespace Machine

variable {ε α β : Type} {m m' : Machine} {n segment procedure : UInt8}

/-! ## Instructions -/

theorem grows_bind_of_silent {x : EStateM ε Machine α} {f : α → EStateM ε Machine β}
    [hx : Keeps Silent x] (h : ∀ a m', Grows m' (endState (f a m'))) :
    Grows m (endState ((x >>= f) m)) := by
  have kept := hx.related m
  rcases bind_cases (rfl : (x >>= f) m = _) with ⟨e, m', hx, hr⟩ | ⟨a, m', hx, hr⟩
  · rw [hx] at kept
    rw [hr]
    exact (Settles.of_quiet kept.quiet).grows
  · rw [hx] at kept
    rw [← hr]
    change Silent m m' at kept
    have disk : m'.storage = m.storage := by rw [kept.rest]
    exact (Settles.of_quiet kept.quiet).trans_grows kept.quiet.segments disk (h a m')

theorem grows_callExternal : Grows m (endState (callExternal segment procedure m)) := by
  have leaving : Keeps Settles (m.letGo segment) := keeps_letGo settles_leaveSegment
  -- the load grows, and nothing after it does
  have brings {loaded : Machine} (brought : m.Brings segment loaded) : Grows m loaded := by
    rcases brought with ⟨-, load⟩ | ⟨-, rfl⟩
    · have grown : Grows m (endState (loadSegment segment m)) := grows_loadSegment
      rwa [load] at grown
    · exact Settles.grows (Std.Refl.refl loaded)
  rcases callExternal_ends (rfl : callExternal segment procedure m = _) with
    ⟨e, m', -, load, failed⟩ | ⟨loaded, brought, ⟨m', called, entered⟩ | ⟨-, ended⟩⟩
  · have grown : Grows m (endState (loadSegment segment m)) := grows_loadSegment
    rw [load] at grown
    rw [failed]
    exact grown
  · rw [entered]
    exact (brings brought).trans_settles ((settles_call segment procedure).of_ok called)
  · rw [ended]
    exact ((brings brought).trans_settles ((settles_call segment procedure).related loaded)).trans_settles
      (leaving.related _)

instance settles_releaseSegment : Keeps Settles releaseSegment := by
  constructor
  intro m
  have popped := (silent_pop).related m
  rcases bind_cases (rfl : releaseSegment m = _) with ⟨e, m', hp, hr⟩ | ⟨w, m', hp, hr⟩
  · rw [hp] at popped
    rw [hr]
    exact Settles.of_quiet popped.quiet
  · rw [hp] at popped
    refine IsTrans.trans _ _ _ (Settles.of_quiet popped.quiet) ?_
    rw [← hr]
    by_cases kernel : w.toUInt8 = 0
    · simp only [kernel]
      exact Std.Refl.refl m'
    · simp only [ne_eq, kernel, not_false_eq_true, if_true]
      exact (settles_leaveSegment kernel).related m'

section

variable {R : Machine → Machine → Prop} [Workable R]

instance works_redirect (frames : List (Address × Address)) : Keeps R (redirect frames) := by
  induction frames with
  | nil => exact Keeps.pure ()
  | cons frame rest ih =>
    have moved (w : Word) : Keeps R
        (onMemory (Memory.writeWord (frame.1 + Frame.savedIpc) w)) := inferInstance
    unfold redirect
    infer_instance

instance works_exitProcedure (segment procedure : UInt8) :
    Keeps R (exitProcedure segment procedure) := by
  have moved (ipc : Machine → Word) :
      Keeps R (modify fun m => { m with ipc := ipc m } : Exec PUnit) :=
    Keeps.modify fun m => Workable.move m (ipc m)
  unfold exitProcedure
  refine @Keeps.bind _ _ _ _ _ _ _ _ inferInstance fun m => ?_
  refine @Keeps.bind _ _ _ _ _ _ _ _ inferInstance fun here => ?_
  dsimp only
  split
  · infer_instance
  · split <;> infer_instance

end

instance settles_callHere : Keeps Settles callHere := by
  unfold callHere
  infer_instance

theorem grows_perform (procedure : StandardProcedure) (m : Machine) :
    Grows m (endState (perform procedure m)) := by
  by_cases quiet : procedure.manages = false
  · have kept := works_perform procedure quiet
    exact ((settles_of_quiet (perform procedure)).related m : Settles m _).grows
  · cases procedure with
    | exit =>
      have kept : Keeps Works exitNamed := by
        unfold exitNamed
        infer_instance
      exact ((settles_of_quiet exitNamed).related m : Settles m _).grows
    | getseg =>
      apply grows_bind_of_silent
      intro w m'
      rw [endState_liftM]
      exact grows_loadSegment
    | relseg =>
      have kept : Keeps Settles (liftM releaseSegment : Exec Unit) := inferInstance
      exact (kept.related m : Settles m _).grows
    | _ => exact absurd rfl quiet

theorem grows_callStandard (m : Machine) : Grows m (endState (callStandard m)) := by
  apply grows_bind_of_silent
  intro code m'
  cases StandardProcedure.ofCode? code with
  | some procedure => exact grows_perform procedure m'
  | none => exact (Std.Refl.refl m' : Settles m' m').grows

theorem grows_executeTable (op : Opcode) (m : Machine) :
    Grows m (endState (executeTable op m)) := by
  by_cases quiet : op.transfers = false
  · have kept := works_executeTable (R := Works) op quiet
    exact ((settles_of_quiet (executeTable op)).related m : Settles m _).grows
  · cases op with
    -- The opcodes that transfer control: only an external call and a standard procedure can bring a
    -- segment in, the others settle.
    | clp | cgp | cip | cbp =>
      have kept : Keeps Settles (liftM callHere : Exec Unit) := inferInstance
      exact (kept.related m : Settles m _).grows
    | cxp =>
      apply grows_bind_of_silent
      intro segment m'
      apply grows_bind_of_silent
      intro procedure m''
      rw [endState_liftM]
      exact grows_callExternal
    | rnp =>
      have kept : Keeps Settles (do returnFrom (← fetchByte) false : Exec Unit) := inferInstance
      exact (kept.related m : Settles m _).grows
    | rbp =>
      have kept : Keeps Settles (do returnFrom (← fetchByte) true : Exec Unit) := inferInstance
      exact (kept.related m : Settles m _).grows
    | csp => exact grows_callStandard m
    | _ => exact absurd rfl quiet

theorem grows_execute (opcode : UInt8) (m : Machine) :
    Grows m (endState (execute opcode m)) := by
  unfold execute
  have quiet {x : Exec Unit} (kept : Keeps Quiet x) : Grows m (endState (x m)) :=
    ((settles_of_quiet x).related m : Settles m _).grows
  cases Encoding.ofCode opcode with
  | shortConstant n | shortLocal n | shortGlobal n | shortIndirect n =>
    exact quiet inferInstance
  | unused code => exact quiet (Keeps.throw _)
  | table op => exact grows_executeTable op m

theorem grows_executeNext (m : Machine) : Grows m (endState (executeNext m)) :=
  grows_bind_of_silent fun opcode m' => grows_execute opcode m'

/-! ## Traps and steps -/

instance guarded_recordTrap (fault : Fault) (address mp : Address) :
    Keeps Memory.Guarded (Syscom.recordTrap fault address mp) := by
  have shown (result : Option Word) : Keeps Memory.Guarded
      (match result with
        | some result => Syscom.writeIoResult result
        | none => pure () : Run Memory Unit) := by
    cases result with
    | some result =>
      unfold Syscom.writeIoResult
      infer_instance
    | none => exact Keeps.pure ()
  unfold Syscom.recordTrap
  infer_instance

instance settles_deliver (fault : Fault) : Keeps Settles (deliver fault) := by
  have noted (depth : Machine → Option Nat) :
      Keeps Settles (modify fun m => { m with trapDepth := depth m } : Exec PUnit) :=
    Keeps.modify fun _ => Settles.of_same rfl rfl rfl rfl rfl rfl
  unfold deliver
  infer_instance

/-- Keeping a record changes the record only. -/
theorem record_eq (m : Machine) : m.record = { m with history := m.record.history } := by
  unfold record
  cases m.history with
  | none => rfl
  | some h =>
    dsimp only
    split <;> rfl

theorem settles_record (m : Machine) : Settles m m.record := by
  rw [record_eq]
  exact Settles.of_same rfl rfl rfl rfl rfl rfl

instance settles_conclude (outcome : Except Stop Unit) : Keeps Settles (conclude outcome) := by
  have recorded : Keeps Settles (modify record : Exec PUnit) := Keeps.modify settles_record
  have halted : Keeps Settles (modify fun m => { m with halted := true }.record : Exec PUnit) :=
    Keeps.modify fun m =>
      IsTrans.trans _ { m with halted := true } _ (Settles.of_same rfl rfl rfl rfl rfl rfl)
        (settles_record _)
  unfold conclude
  split <;> infer_instance

theorem grows_step (m : Machine) : Grows m (endState (step m)) := by
  unfold step
  by_cases halted : m.halted = true
  · simp only [if_pos halted]
    exact (Std.Refl.refl m : Settles m m).grows
  · simp only [if_neg halted]
    -- only the instruction itself can read a segment, a trap that follows cannot
    have prepared : Settles m m.prepare := Settles.of_same rfl rfl rfl rfl rfl rfl
    have executed := prepared.trans_grows rfl rfl (grows_executeNext m.prepare)
    have counted (m' : Machine) : Settles m' { m' with instructions := m'.instructions + 1 } :=
      Settles.of_same rfl rfl rfl rfl rfl rfl
    have concluded (outcome : Except Stop Unit) (m' : Machine) :
        Settles m' (endState (conclude outcome { m' with instructions := m'.instructions + 1 })) :=
      IsTrans.trans _ _ _ (counted m') ((settles_conclude outcome).related _)
    cases hx : executeNext m.prepare with
    | ok u m' =>
      rw [hx] at executed
      exact executed.trans_settles (concluded _ m')
    | error stop m' =>
      rw [hx] at executed
      exact executed.trans_settles (concluded _ m')

/-! ## Runs -/

/-- The bytes that were read from disk for each piece of code, after `m` became `m'`: for a piece
that is new in `m'`, what lay on its disk in `m`. -/
def noted (m m' : Machine) (images : Part → Bytes) (part : Part) : Bytes :=
  match m.segments.placement? part, m'.segments.placement? part with
  | none, some p => (m.fetchCode p.unit p.block p.size).toOption.getD []
  | _, _ => images part

/-- The machines that one boot and any number of steps lead to, each with the code that was read
from disk on the way. -/
inductive Reached : Machine → (Part → Bytes) → Prop
  | boot {storage : Storage} {console : Console} {config : Config} {host : HostView}
      {limit : Option Nat} {unit : Word} {file : String} {m : Machine} :
      SystemFits (create storage console config host limit) unit file →
      boot unit file (create storage console config host limit) = .ok () m →
      Reached m (noted (create storage console config host limit) m fun _ => [])
  | step {m : Machine} {images : Part → Bytes} :
      Reached m images → Reached (endState (step m)) (noted m (endState (step m)) images)
  /-- Between two steps the host may show something else. -/
  | observe {m : Machine} {images : Part → Bytes} (host : HostView) :
      Reached m images → Reached (m.observe host) images

/-- The invariant of a run: code lies where it was read to and is what was read. -/
structure Imaged (m : Machine) (images : Part → Bytes) : Prop where
  secure : m.Secure
  start : ∀ part p, m.segments.placement? part = some p → Heap.start ≤ p.base
  length : ∀ part p, m.segments.placement? part = some p → (images part).length = p.size.toNat
  holds : ∀ part p, m.segments.placement? part = some p → m.memory.Holds p.base (images part)

theorem Imaged.grows {images : Part → Bytes} (h : Imaged m images) (g : Grows m m') :
    Imaged m' (noted m m' images) := by
  obtain ⟨secure', before⟩ := g h.secure
  have each (part : Part) (p : Placement) (placed : m'.segments.placement? part = some p) :
      Heap.start ≤ p.base ∧ (noted m m' images part).length = p.size.toNat ∧
        m'.memory.Holds p.base (noted m m' images part) := by
    rcases before part p placed with ⟨old, same⟩ | ⟨new, above, bytes, read, holds⟩
    · -- old code is where it was, and nothing new is noted for it
      have kept : noted m m' images part = images part := by
        simp only [noted, old]
      rw [kept]
      refine ⟨h.start part p old, h.length part p old, ?_⟩
      intro i hi
      have inside := h.secure.layout.covers old (h.length part p old ▸ hi)
      exact (same _ inside).trans (h.holds part p old i hi)
    · have fetched : noted m m' images part = bytes := by
        simp only [noted, new, placed, read]
        rfl
      rw [fetched]
      exact ⟨above, length_of_fetchCode read, holds⟩
  exact ⟨secure', fun part p placed => (each part p placed).1,
    fun part p placed => (each part p placed).2.1, fun part p placed => (each part p placed).2.2⟩

theorem Imaged.observe {images : Part → Bytes} (h : Imaged m images) (host : HostView) :
    Imaged (m.observe host) images :=
  ⟨(Settles.observe m host h.secure).1, h.start, h.length, h.holds⟩

/-- A boot reads what it places, and the first call settles. -/
theorem imaged_of_boot {unit : Word} {file : String} {fresh : Machine} (hfresh : fresh.Fresh)
    (fits : SystemFits fresh unit file) (h : boot unit file fresh = .ok () m) :
    Imaged m (noted fresh m fun _ => []) := by
  obtain ⟨m₁, kind, m₂, -, loaded, called, rfl⟩ := loaded_of_boot hfresh fits h
  -- before the boot nothing is loaded, so everything is new
  have empty (part : Part) : fresh.segments.placement? part = none := by
    rw [hfresh.segments]
    exact SegmentTable.unloaded_empty.placement?_eq_none part
  have settled : Settles m₁ m₂ := Keeps.of_ok called
  obtain ⟨secure, before⟩ :=
    (IsTrans.trans _ _ _ settled (settles_record m₂) : Settles m₁ m₂.record) loaded.secure
  have each (part : Part) (p : Placement)
      (placed : m₂.record.segments.placement? part = some p) :
      Heap.start ≤ p.base ∧ (noted fresh m₂.record (fun _ => []) part).length = p.size.toNat ∧
        m₂.record.memory.Holds p.base (noted fresh m₂.record (fun _ => []) part) := by
    obtain ⟨old, same⟩ := before part p placed
    obtain ⟨above, bytes, read, holds⟩ := loaded.read part p old
    have fetched : noted fresh m₂.record (fun _ => []) part = bytes := by
      simp only [noted, empty, placed, read]
      rfl
    rw [fetched]
    have size := length_of_fetchCode read
    refine ⟨above, size, ?_⟩
    intro i hi
    exact (same _ (loaded.secure.layout.covers old (size ▸ hi))).trans (holds i hi)
  exact ⟨secure, fun part p placed => (each part p placed).1,
    fun part p placed => (each part p placed).2.1, fun part p placed => (each part p placed).2.2⟩

theorem imaged_of_reached {images : Part → Bytes} (h : Reached m images) : Imaged m images := by
  induction h with
  | boot fits booted => exact imaged_of_boot (fresh_create _ _ _ _ _) fits booted
  | step reached ih => exact ih.grows (grows_step _)
  | observe host reached ih => exact ih.observe host

/-- No program can change code, or write where code lies. -/
theorem code_immutable {images : Part → Bytes} (h : Reached m images) :
    (∀ part p, m.segments.placement? part = some p →
      m.psp ≤ p.base ∧ p.base.toNat + p.footprint ≤ 2 ^ 16 ∧
        m.memory.readBytes p.base p.size.toNat = .ok (images part)) ∧
    (∀ part part' p p', part ≠ part' → m.segments.placement? part = some p →
      m.segments.placement? part' = some p' → ∀ a, p.Covers a → ¬ p'.Covers a) ∧
    ∀ a, (m.memory.cell a).readOnly = true ↔
      ∃ part p, m.segments.placement? part = some p ∧ p.Covers a := by
  have imaged := imaged_of_reached h
  have layout := imaged.secure.layout
  refine ⟨?_, layout.apart, layout.marked⟩
  intro part p placed
  have below := layout.below part p placed
  have size := imaged.length part p placed
  have start : 0x100 ≤ p.base.toNat := UInt16.le_iff_toNat_le.1 (imaged.start part p placed)
  -- The image lies above the first page, so no byte of it is at an address where a read is refused
  -- or goes to a device.
  have inside {i : Nat} (hi : i < (images part).length) :
      p.base.toNat ≤ (p.base + UInt16.ofNat i).toNat :=
    (layout.covers placed (size ▸ hi)).1
  refine ⟨layout.above part p placed, by omega, ?_⟩
  rw [← size]
  refine Memory.readBytes_of_holds (imaged.holds part p placed) ?_ ?_
  · intro i hi zero
    have bound := inside hi
    rw [zero, UInt16.toNat_zero] at bound
    omega
  · intro i hi
    exact layout.unmapped _ (UInt16.le_trans (imaged.start part p placed)
      (UInt16.le_iff_toNat_le.2 (inside hi)))

theorem starts_rebasing : starts rebasing = true ∧
    ((endState (step (started rebasing))).segments.placement? (.segment 0)).isSome = true := by
  decide +kernel

theorem reached_rebasing :
    Reached (started rebasing) (noted (holding rebasing) (started rebasing) fun _ => []) := by
  obtain ⟨fits, booted⟩ := boot_of_starts starts_rebasing.1
  exact .boot fits booted

theorem code_immutable_rebasing :
    ∃ m images p, Reached m images ∧ m.segments.placement? (.segment 0) = some p ∧
      m.psp ≤ p.base ∧ m.memory.readBytes p.base p.size.toNat = .ok (images (.segment 0)) := by
  have reached := Reached.step reached_rebasing
  obtain ⟨p, placed⟩ := Option.isSome_iff_exists.1 starts_rebasing.2
  obtain ⟨above, -, same⟩ := (code_immutable reached).1 _ p placed
  exact ⟨_, _, p, reached, placed, above, same⟩

end Machine
end PSystem
