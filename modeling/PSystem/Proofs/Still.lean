import PSystem.Proofs.Quiet

/-!
# Computations that do not move

Most of what an instruction does leaves alone where execution goes on, also if it fails: loads and
stores, operators, standard procedures other than EXIT.  `Still` says so.  It is a relation that work
in place keeps, and the heap, the segments and a store of any kind do not break it either.  What does
move the instruction pointer are fetches, jumps, calls and returns.
-/

namespace PSystem
namespace Machine

variable {ε α : Type}

/-! ## Standing still -/

/-- Execution goes on where it would have: nothing was fetched, no jump was taken and no frame was made
or left. -/
structure Still (m m' : Machine) : Prop where
  ipc : m'.ipc = m.ipc
  ipcBase : m'.ipcBase = m.ipcBase
  jtab : m'.jtab = m.jtab
  depth : m'.depth = m.depth

instance : Stationary Still where
  refl _ := ⟨rfl, rfl, rfl, rfl⟩
  trans _ _ _ h h' := ⟨h'.ipc.trans h.ipc, h'.ipcBase.trans h.ipcBase, h'.jtab.trans h.jtab,
    h'.depth.trans h.depth⟩
  store _ _ _ := ⟨rfl, rfl, rfl, rfl⟩
  units _ _ _ _ := ⟨rfl, rfl, rfl, rfl⟩

/-- The store may change in any way, not only as instructions change it. -/
instance still_onStore (x : Run Store α) : Keeps Still (onStore x) := by
  constructor
  intro m
  unfold onStore
  cases x m.store with
  | ok v s => exact ⟨rfl, rfl, rfl, rfl⟩
  | error e s => exact ⟨rfl, rfl, rfl, rfl⟩

instance still_onMemory (x : Run Memory α) : Keeps Still (onMemory x) :=
  still_onStore (Store.onMemory x)

/-- Changes of parts of the machine that say nothing about where execution goes on. -/
theorem still_modify {f : Machine → Machine}
    (h : ∀ m, (f m).ipc = m.ipc ∧ (f m).ipcBase = m.ipcBase ∧ (f m).jtab = m.jtab ∧
      (f m).depth = m.depth) :
    Keeps Still (modify f : EStateM ε Machine PUnit) :=
  Keeps.modify fun m => ⟨(h m).1, (h m).2.1, (h m).2.2.1, (h m).2.2.2⟩

/-- The instructions without operands go on with the next one. -/
theorem still_executeTable {op : Opcode} (h : op.operands = []) : Keeps Still (executeTable op) := by
  cases op with
  | abi | adi | ngi | sbi | mpi | sqi | dvi | modi | land | lor | lnot | equi | neqi | lesi | leqi
  | grti | geqi | abr | adr | ngr | sbr | mpr | sqr | dvr | flt | flo | uni | int | dif | srs | sgs
  | inn | chk | sto | ldb | stb | ldp | stp | ixs | ldcn | xit | nop =>
    unfold executeTable
    infer_instance
  | _ => cases h

/-! ## Segments -/

instance still_modifySegment (number : UInt8) (f : Segment → Segment) :
    Keeps Still (modifySegment number f) :=
  still_modify fun _ => ⟨rfl, rfl, rfl, rfl⟩

instance still_protect (start stop : Address) (on : Bool) : Keeps Still (protect start stop on) :=
  still_onMemory _

instance still_setPsp (base : Address) :
    Keeps Still (modify fun m => { m with psp := base } : Run Machine PUnit) :=
  still_modify fun _ => ⟨rfl, rfl, rfl, rfl⟩

instance still_bringIn (s : Segment) : Keeps Still (bringIn s) := by
  unfold bringIn
  refine Keeps.seq inferInstance fun m => ?_
  refine Keeps.seq inferInstance fun base => ?_
  refine Keeps.seq inferInstance fun bytes => ?_
  infer_instance

instance still_loadSegment (number : UInt8) : Keeps Still (loadSegment number) := by
  unfold loadSegment
  infer_instance

instance still_leaveSegment (segment : UInt8) : Keeps Still (leaveSegment segment) := by
  have reclaimed : Keeps Still reclaim := still_modify fun _ => ⟨rfl, rfl, rfl, rfl⟩
  unfold leaveSegment unloadSegment
  infer_instance

/-! ## Standard procedures -/

instance still_setIoResult (result : Word) : Keeps Still (setIoResult result) := by
  have noted : Keeps Still (modify fun m => { m with ioResult := result } : Run Machine PUnit) :=
    still_modify fun _ => ⟨rfl, rfl, rfl, rfl⟩
  unfold setIoResult
  infer_instance

/-- EXIT is the only standard procedure that changes where the program goes on. -/
theorem still_perform {procedure : StandardProcedure} (h : procedure ≠ .exit) :
    Keeps Still (perform procedure) := by
  by_cases plain : procedure.manages = false
  · exact keeps_perform procedure plain
      (fun _ => keeps_newBlock fun _ _ _ _ _ => ⟨rfl, rfl, rfl, rfl⟩)
      (fun _ => keeps_releaseHeap fun _ _ _ _ => ⟨rfl, rfl, rfl, rfl⟩) (works_reports procedure)
  · cases procedure with
    | exit => exact absurd rfl h
    | getseg =>
      unfold perform
      infer_instance
    | relseg =>
      unfold perform releaseSegment
      infer_instance
    | _ => exact absurd rfl plain

end Machine
end PSystem
