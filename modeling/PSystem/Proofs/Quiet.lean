import PSystem.Machine.Step
import PSystem.Proofs.Store

/-!
# Instructions that leave the activation alone

Most instructions compute: they move words between the evaluation stack and memory, take operands
from the code, or transfer to a unit.  `Machine.Works` is what they all keep, whether they succeed
or fault: the overlay table, the program stack pointer and the registers of the current activation
are as before, memory changed only as `Memory.Guarded` allows, the heap pointer is still in the
heap, and the evaluation stack has not left its bounds.  `Machine.Quiet` is the same but for the
bottom of the evaluation stack, which few facts need.  Any other relation that work on the store, the
units and the instruction pointer does not break (`Machine.Workable`) is kept by the same instructions.
What takes no operands from the code also keeps relations that the instruction pointer matters to
(`Machine.Stationary`).

What does not keep it is the machine's own work on activations and segments: calls, returns, EXIT,
GETSEG and RELSEG.
-/

namespace PSystem

namespace Heap

theorem start_le_of_release {mark : Address} {h : Heap} (hr : release mark = .ok h) :
    start ≤ h.np := by
  unfold release at hr
  split at hr
  · cases hr
  · rename_i high
    cases hr
    exact UInt16.not_lt.1 high

/-- A block is given right above the heap, and the heap ends behind it. -/
theorem np_le_of_allocate {h h' : Heap} {words : Word} {psp a : Address}
    (given : h.allocate words psp = .ok (a, h')) :
    a = h.np ∧ h'.np.toNat = h.np.toNat + 2 * words.toNat ∧ h'.np ≤ psp := by
  unfold allocate at given
  dsimp only at given
  split at given
  · cases given
  · rename_i room
    cases given
    have hp := psp.toNat_lt
    have size : UInt16.size = 2 ^ 16 := rfl
    have place : (UInt16.ofNat (h.np.toNat + 2 * words.toNat)).toNat =
        h.np.toNat + 2 * words.toNat := UInt16.toNat_ofNat_of_lt' (by omega)
    refine ⟨rfl, place, ?_⟩
    rw [UInt16.le_iff_toNat_le, place]
    omega

theorem start_le_of_allocate {h h' : Heap} {words : Word} {psp a : Address}
    (low : start ≤ h.np) (given : h.allocate words psp = .ok (a, h')) : start ≤ h'.np := by
  obtain ⟨-, stop, -⟩ := np_le_of_allocate given
  rw [UInt16.le_iff_toNat_le] at low ⊢
  omega

end Heap

namespace Console

/-- What was written to a console stays there, and more may follow. -/
def Continues (c c' : Console) : Prop :=
  c.output.toList <+: c'.output.toList

theorem Continues.refl (c : Console) : c.Continues c :=
  List.prefix_rfl

theorem Continues.trans {c c₁ c₂ : Console} (h : c.Continues c₁) (h₁ : c₁.Continues c₂) :
    c.Continues c₂ :=
  List.IsPrefix.trans h h₁

theorem continues_write (c : Console) (bytes : Bytes) : c.Continues (c.write bytes) := by
  have output : (c.write bytes).output.toList = c.output.toList ++ bytes := by
    simp [write]
  unfold Continues
  rw [output]
  exact List.prefix_append _ _

theorem continues_read (c : Console) : c.Continues c.read.2 := by
  unfold read
  cases c.input with
  | nil => exact Continues.refl c
  | cons b rest => exact List.prefix_rfl

end Console

namespace Machine

variable {α : Type} {m m' : Machine}

/-- What an instruction keeps that neither enters nor leaves a procedure or segment. -/
structure Quiet (m m' : Machine) : Prop where
  store : Store.Quiet m.store m'.store
  heap : Heap.start ≤ m.heap.np → Heap.start ≤ m'.heap.np
  rest : m' =
    { m with
      store := m'.store, heap := m'.heap, storage := m'.storage, console := m'.console
      ipc := m'.ipc, ioResult := m'.ioResult }

instance : IsPreorder Machine Quiet where
  refl _ := ⟨Std.Refl.refl _, id, rfl⟩
  trans m m' m'' h h' := by
    refine ⟨IsTrans.trans _ _ _ h.store h'.store, h'.heap ∘ h.heap, ?_⟩
    have rest := h'.rest
    rw [h.rest] at rest
    exact rest

/-- What such an instruction keeps, with both ends of the evaluation stack. -/
structure Works (m m' : Machine) : Prop where
  store : Store.Works m.store m'.store
  heap : Heap.start ≤ m.heap.np → Heap.start ≤ m'.heap.np
  rest : m' =
    { m with
      store := m'.store, heap := m'.heap, storage := m'.storage, console := m'.console
      ipc := m'.ipc, ioResult := m'.ioResult }

theorem Works.quiet (h : Works m m') : Quiet m m' :=
  ⟨h.store.quiet, h.heap, h.rest⟩

theorem Quiet.works (h : Quiet m m') (capped : m.store.Capped → m'.store.Capped) : Works m m' :=
  ⟨⟨h.store, capped⟩, h.heap, h.rest⟩

instance : IsPreorder Machine Works where
  refl m := (Std.Refl.refl m : Quiet m m).works id
  trans _ _ _ h h' := (IsTrans.trans _ _ _ h.quiet h'.quiet : Quiet _ _).works
    (h'.store.capped ∘ h.store.capped)

instance (priority := low) quiet_of_works {ε : Type} (x : EStateM ε Machine α) [works : Keeps Works x] :
    Keeps Quiet x :=
  works.mono fun _ _ => Works.quiet

namespace Quiet

theorem memory (h : Quiet m m') : Memory.Guarded m.memory m'.memory :=
  h.store.memory

theorem segments (h : Quiet m m') : m'.segments = m.segments := by
  rw [h.rest]

theorem bound (h : Quiet m m') : m'.bound = m.bound := by
  rw [h.rest]

theorem psp (h : Quiet m m') : m'.psp = m.psp := by
  rw [h.rest]

theorem mp (h : Quiet m m') : m'.mp = m.mp := by
  rw [h.rest]

theorem base (h : Quiet m m') : m'.base = m.base := by
  rw [h.rest]

theorem seg (h : Quiet m m') : m'.seg = m.seg := by
  rw [h.rest]

theorem jtab (h : Quiet m m') : m'.jtab = m.jtab := by
  rw [h.rest]

theorem ipcBase (h : Quiet m m') : m'.ipcBase = m.ipcBase := by
  rw [h.rest]

theorem depth (h : Quiet m m') : m'.depth = m.depth := by
  rw [h.rest]

end Quiet

/-! ## Relations that work keeps -/

/-- A relation that holds across work on the store, on the disks and on the console is kept by all
computations that do no more. -/
class Stationary (R : Machine → Machine → Prop) : Prop extends IsPreorder Machine R where
  store : ∀ m s, Store.Works m.store s → R m { m with store := s }
  units : ∀ m storage console, m.console.Continues console →
    R m { m with storage := storage, console := console }

/-- A relation that holds across work on the store, on the disks and on the console, and across moves of
the instruction pointer, is kept by all instructions that do no more. -/
class Workable (R : Machine → Machine → Prop) : Prop extends IsPreorder Machine R where
  store : ∀ m s, Store.Works m.store s → R m { m with store := s }
  rest : ∀ m storage console ipc, m.console.Continues console →
    R m { m with storage := storage, console := console, ipc := ipc }

instance (priority := low) stationary_of_workable {R : Machine → Machine → Prop} [Workable R] :
    Stationary R where
  store := Workable.store
  units m storage console := Workable.rest m storage console m.ipc

/-- A relation that a new result of a unit transfer does not break either. -/
class Reportable (R : Machine → Machine → Prop) : Prop extends Workable R where
  report : ∀ m result, R m { m with ioResult := result }

instance : Reportable Works where
  store _ _ h := ⟨h, id, rfl⟩
  rest _ _ _ _ _ := ⟨Std.Refl.refl _, id, rfl⟩
  report _ _ := ⟨Std.Refl.refl _, id, rfl⟩

/-! ## Computations in place -/

section

variable {R : Machine → Machine → Prop} [Stationary R]

instance works_onStore (x : Run Store α) [Keeps Store.Works x] : Keeps R (onStore x) :=
  keeps_onStore (R := Store.Works) x Stationary.store

instance works_onMemory (x : Run Memory α) [Keeps Memory.Guarded x] : Keeps R (onMemory x) :=
  works_onStore (Store.onMemory x)

instance works_push (w : Word) : Keeps R (push w) := by
  unfold push
  infer_instance

instance works_pop : Keeps R pop := by
  unfold pop
  infer_instance

instance works_pushInt (v : Int) : Keeps R (pushInt v) := by
  unfold pushInt
  infer_instance

instance works_popInt : Keeps R popInt := by
  unfold popInt
  infer_instance

instance works_pushBool (b : Bool) : Keeps R (pushBool b) := by
  unfold pushBool
  infer_instance

/-! ### Loads and stores -/

instance works_resolve (mode : Mode) : Keeps R (resolve mode) := by
  cases mode with
  | inner n | outermost n | intermediate levels n | external segment n | indirect offset =>
    unfold resolve
    infer_instance

instance works_load (mode : Mode) : Keeps R (load mode) := by
  unfold load
  infer_instance

instance works_loadAddress (mode : Mode) : Keeps R (loadAddress mode) := by
  unfold loadAddress
  infer_instance

instance works_storeAt (mode : Mode) : Keeps R (storeAt mode) := by
  unfold storeAt
  infer_instance

instance works_loadByte : Keeps R loadByte := by
  unfold loadByte
  infer_instance

instance works_storeByte : Keeps R storeByte := by
  unfold storeByte
  infer_instance

instance works_loadPacked : Keeps R loadPacked := by
  unfold loadPacked
  infer_instance

instance works_storePacked : Keeps R storePacked := by
  unfold storePacked
  infer_instance

instance works_assignString (max : UInt8) : Keeps R (assignString max) := by
  unfold assignString
  infer_instance

instance works_checkStringIndex : Keeps R checkStringIndex := by
  unfold checkStringIndex
  infer_instance

/-! ### Operators -/

instance works_unaryWord (f : Word → Word) : Keeps R (unaryWord f) := by
  unfold unaryWord
  infer_instance

instance works_binaryWord (f : Word → Word → Word) : Keeps R (binaryWord f) := by
  unfold binaryWord
  infer_instance

instance works_divideInt (f : Int → Int → Int) : Keeps R (divideInt f) := by
  unfold divideInt
  infer_instance

instance works_compareInt (r : Relation) : Keeps R (compareInt r) := by
  unfold compareInt
  infer_instance

instance works_checkRange : Keeps R checkRange := by
  unfold checkRange
  infer_instance

instance works_popReal : Keeps R popReal := by
  unfold popReal
  infer_instance

instance works_pushReal (r : Single) : Keeps R (pushReal r) := by
  unfold pushReal
  infer_instance

instance works_unaryReal (f : Single → Single) : Keeps R (unaryReal f) := by
  unfold unaryReal
  infer_instance

instance works_binaryReal (f : Single → Single → Single) : Keeps R (binaryReal f) := by
  unfold binaryReal
  infer_instance

instance works_divideReal : Keeps R divideReal := by
  unfold divideReal
  infer_instance

instance works_floatTop : Keeps R floatTop := by
  unfold floatTop
  infer_instance

instance works_floatBelow : Keeps R floatBelow := by
  unfold floatBelow
  infer_instance

instance works_popSet : Keeps R popSet := by
  unfold popSet
  infer_instance

instance works_pushSet (s : WordSet) : Keeps R (pushSet s) := by
  unfold pushSet
  infer_instance

instance works_rangeSet : Keeps R rangeSet := by
  unfold rangeSet
  infer_instance

instance works_singletonSet : Keeps R singletonSet := by
  unfold singletonSet
  infer_instance

instance works_testMember : Keeps R testMember := by
  unfold testMember
  infer_instance

instance works_binarySet (f : WordSet → WordSet → WordSet) : Keeps R (binarySet f) := by
  unfold binarySet
  infer_instance

instance works_compareAt (r : Relation) (read : Memory → Address → Except Fault Bytes) :
    Keeps R (compareAt r read) := by
  unfold compareAt
  infer_instance

instance works_testCondition (condition : Condition) : Keeps R (testCondition condition) := by
  cases condition with
  | always | onFalse | onUnequal | onEqual =>
    unfold testCondition
    infer_instance

/-! ### Heap -/

instance works_markHeap : Keeps R markHeap := by
  unfold markHeap
  infer_instance

/-- RELEASE may put the heap pointer anywhere in the heap. -/
theorem keeps_releaseHeap
    (moves : ∀ m mark heap, Heap.release mark = .ok heap → R m { m with heap := heap }) :
    Keeps R releaseHeap := by
  have (mark : Address) : Keeps R
      (orFault (Heap.release mark) >>= fun heap => modify fun m => { m with heap := heap }) := by
    constructor
    intro m
    cases h : Heap.release mark with
    | ok heap => exact moves m mark heap h
    | error e => exact Std.Refl.refl m
  unfold releaseHeap
  infer_instance

/-- NEW moves the heap pointer over the block that it gives. -/
theorem keeps_newBlock
    (moves : ∀ m words a heap, m.heap.allocate words m.psp = .ok (a, heap) →
      R m { m with heap := heap }) :
    Keeps R newBlock := by
  unfold newBlock
  refine Keeps.seq works_pop fun words => Keeps.seq works_pop fun pointer => ⟨fun m => ?_⟩
  rw [get_bind_apply]
  cases h : m.heap.allocate words m.psp with
  | ok block =>
    -- the heap has grown by the time the address is stored, which may fail
    exact IsTrans.trans _ _ _ (moves m words block.1 block.2 h) ((works_onMemory _).related _)
  | error e => exact Std.Refl.refl m

/-! ### Bytes, reals and units -/

instance works_copyBytes (source destination : Address) (offsets : List Word) :
    Keeps R (copyBytes source destination offsets) := by
  induction offsets with
  | nil => exact Keeps.pure ()
  | cons offset rest ih =>
    unfold copyBytes
    infer_instance

instance works_moveBytes (fromRight : Bool) : Keeps R (moveBytes fromRight) := by
  unfold moveBytes
  infer_instance

instance works_fillBytes : Keeps R fillBytes := by
  unfold fillBytes
  infer_instance

instance works_scanBytes : Keeps R scanBytes := by
  unfold scanBytes
  infer_instance

instance works_storeTime : Keeps R storeTime := by
  unfold storeTime
  infer_instance

instance works_roundReal (f : Single → Float32) : Keeps R (roundReal f) := by
  unfold roundReal
  infer_instance

instance works_realFunction (f : Single → Except Fault Single) : Keeps R (realFunction f) := by
  unfold realFunction
  infer_instance

instance works_pushPowerOfTen : Keeps R pushPowerOfTen := by
  unfold pushPowerOfTen
  infer_instance

instance works_writeConsole (bytes : Bytes) : Keeps R (writeConsole bytes) :=
  Keeps.modify fun m => Stationary.units m m.storage _ (m.console.continues_write bytes)

instance works_readConsole : Keeps R readConsole :=
  ⟨fun m => Stationary.units m m.storage _ m.console.continues_read⟩

instance works_readConsoleTo (unit : Word) (a : Address) (n : Nat) :
    Keeps R (readConsoleTo unit a n) := by
  induction n generalizing a with
  | zero => exact Keeps.pure 0
  | succ n ih =>
    unfold readConsoleTo
    -- waiting for input leaves off with an empty console
    refine @Keeps.bind _ _ _ _ _ _ _ _ inferInstance fun byte => ?_
    cases byte with
    | none => exact Keeps.pure 64
    | some b => infer_instance

/-- The part of a transfer to a disk that changes the disk. -/
theorem works_writeBlocks (unit block : Word) (bytes : Bytes) : Keeps R (do
    let m ← get
    match Storage.writeBlocks unit block bytes m.storage with
    | .ok () storage =>
      set { m with storage := storage }
      return (0 : Word)
    | .error e storage =>
      set { m with storage := storage }
      return e.ioResult : Run Machine Word) := by
  constructor
  intro m
  rw [get_bind_apply]
  cases Storage.writeBlocks unit block bytes m.storage with
  | ok u storage => exact Stationary.units m storage m.console (.refl _)
  | error e storage => exact Stationary.units m storage m.console (.refl _)

instance works_diskTransfer (direction : Transfer) (unit block : Word) (a : Address)
    (length : Nat) : Keeps R (diskTransfer direction unit block a length) := by
  cases direction with
  | read =>
    unfold diskTransfer
    refine @Keeps.bind _ _ _ _ _ _ _ _ inferInstance fun m => ?_
    cases m.storage.readBlocks unit block length with
    | ok bytes => infer_instance
    | error e => exact Keeps.pure _
  | write =>
    have (bytes : Bytes) := works_writeBlocks (R := R) unit block bytes
    unfold diskTransfer
    infer_instance

instance works_consoleTransfer (direction : Transfer) (unit : Word) (a : Address) (length : Nat) :
    Keeps R (consoleTransfer direction unit a length) := by
  cases direction with
  | read | write =>
    unfold consoleTransfer
    infer_instance

instance works_checkIo : Keeps R checkIo := by
  unfold checkIo
  infer_instance

/-! ### Results of units -/

variable [reported : ∀ result, Keeps R (setIoResult result)]

instance works_unitTransfer (direction : Transfer) : Keeps R (unitTransfer direction) := by
  unfold unitTransfer
  refine Keeps.seq works_pop fun control => Keeps.seq works_pop fun block => ?_
  refine Keeps.seq works_pop fun length => Keeps.seq works_pop fun offset => ?_
  infer_instance

instance works_unitStatus : Keeps R unitStatus := by
  have (a : Address) (status : Except Word Word) : Keeps R
      (match status with
        | .ok w => do
          onMemory (Memory.writeWord a 0)
          onMemory (Memory.writeWord (a + 2) w)
          setIoResult 0
        | .error result => setIoResult result) := by
    cases status with
    | ok w => infer_instance
    | error result => exact reported result
  unfold unitStatus
  infer_instance

instance works_clearUnit : Keeps R clearUnit := by
  unfold clearUnit
  infer_instance

end

/-! ## Operands -/

/-- What fetching operands and popping words keep: memory is only read. -/
structure Silent (m m' : Machine) : Prop where
  memory : m'.memory = m.memory
  bounded : Store.limit ≤ m.store.sp → Store.limit ≤ m'.store.sp
  rest : m' = { m with store := m'.store, ipc := m'.ipc }

instance : IsPreorder Machine Silent where
  refl _ := ⟨rfl, id, rfl⟩
  trans m m' m'' h h' := by
    refine ⟨h'.memory.trans h.memory, h'.bounded ∘ h.bounded, ?_⟩
    have rest := h'.rest
    rw [h.rest] at rest
    exact rest

theorem Silent.quiet (h : Silent m m') : Quiet m m' where
  store :=
    { memory := by
        have same : m'.store.memory = m.store.memory := h.memory
        rw [same]
        exact Std.Refl.refl _
      bounded := h.bounded }
  heap := by
    rw [h.rest]
    exact id
  rest := by
    rw [h.rest]

instance silent_fetchByte : Keeps Silent fetchByte := by
  have moved (n : Word) : Keeps Silent (advance n) := Keeps.modify fun _ => ⟨rfl, id, rfl⟩
  unfold fetchByte
  infer_instance

instance silent_pop : Keeps Silent pop := by
  constructor
  intro m
  unfold pop onStore
  rcases Store.pop_cases m.store with ⟨e, h, -⟩ | ⟨w, room, -, h⟩
  · rw [h]
    exact Std.Refl.refl m
  · rw [h]
    exact ⟨rfl, Store.limit_le_add_two room, rfl⟩

/-! ## Instructions with operands -/

section

variable {R : Machine → Machine → Prop} [Workable R]

theorem Workable.move (m : Machine) (ipc : Word) : R m { m with ipc := ipc } :=
  rest m m.storage m.console ipc (Console.Continues.refl _)

instance works_advance (n : Word) : Keeps R (advance n) :=
  Keeps.modify fun m => Workable.move m (m.ipc + n)

instance works_alignPointer : Keeps R alignPointer := by
  apply Keeps.modify
  intro m
  split
  · exact Workable.move m (m.ipc + 1)
  · exact Std.Refl.refl m

instance works_jumpTo (target : Address) : Keeps R (jumpTo target) :=
  Keeps.modify fun m => Workable.move m (target - m.ipcBase)

instance works_fetchByte : Keeps R fetchByte := by
  unfold fetchByte
  infer_instance

instance works_fetchBig : Keeps R fetchBig := by
  unfold fetchBig
  infer_instance

instance works_fetchWord : Keeps R fetchWord := by
  unfold fetchWord
  infer_instance

/-! ### Jumps -/

instance works_takeJump (displacement : Int) : Keeps R (takeJump displacement) := by
  unfold takeJump
  infer_instance

instance works_jump (condition : Condition) : Keeps R (jump condition) := by
  unfold jump
  infer_instance

instance works_caseJump : Keeps R caseJump := by
  unfold caseJump
  infer_instance

/-! ### Loads, stores and comparisons -/

instance works_loadConstants : Keeps R loadConstants := by
  unfold loadConstants
  infer_instance

instance works_loadWords : Keeps R loadWords := by
  unfold loadWords
  infer_instance

instance works_storeWords : Keeps R storeWords := by
  unfold storeWords
  infer_instance

instance works_moveWords : Keeps R moveWords := by
  unfold moveWords
  infer_instance

instance works_indexArray : Keeps R indexArray := by
  unfold indexArray
  infer_instance

instance works_indexPacked : Keeps R indexPacked := by
  unfold indexPacked
  infer_instance

instance works_loadText (characters : Bool) : Keeps R (loadText characters) := by
  unfold loadText
  infer_instance

instance works_fetchIntermediate : Keeps R fetchIntermediate := by
  unfold fetchIntermediate
  infer_instance

instance works_fetchExternal : Keeps R fetchExternal := by
  unfold fetchExternal
  infer_instance

instance works_adjustSet : Keeps R adjustSet := by
  unfold adjustSet
  infer_instance

instance works_compareTyped (r : Relation) : Keeps R (compareTyped r) := by
  unfold compareTyped
  refine @Keeps.bind _ _ _ _ _ _ _ _ inferInstance fun kind => ?_
  dsimp only
  split
  all_goals infer_instance

instance works_breakpoint : Keeps R breakpoint := by
  unfold breakpoint
  infer_instance

end

/-! ## Work -/

instance works_releaseHeap : Keeps Works releaseHeap :=
  keeps_releaseHeap fun _ _ _ h => ⟨Std.Refl.refl _, fun _ => Heap.start_le_of_release h, rfl⟩

instance works_newBlock : Keeps Works newBlock :=
  keeps_newBlock fun _ _ _ _ h => ⟨Std.Refl.refl _, fun start => Heap.start_le_of_allocate start h, rfl⟩

instance works_setIoResult {R : Machine → Machine → Prop} [Reportable R] (result : Word) : Keeps R (setIoResult result) := by
  have noted : Keeps R (modify fun m => { m with ioResult := result } : Run Machine PUnit) :=
    Keeps.modify fun m => Reportable.report m result
  unfold setIoResult Syscom.writeIoResult
  infer_instance

/-! ## Whole instructions -/

end Machine

/-- The standard procedures that work on activations and segments. -/
def StandardProcedure.manages : StandardProcedure → Bool
  | .exit | .getseg | .relseg => true
  | _ => false

/-- The standard procedures that set the result of a unit transfer. -/
def StandardProcedure.reports : StandardProcedure → Bool
  | .unitread | .unitwrite | .unitstatus | .unitclear => true
  | _ => false

/-- The instructions that call, return, or ask for a standard procedure. -/
def Opcode.transfers : Opcode → Bool
  | .clp | .cgp | .cip | .cbp | .cxp | .rnp | .rbp | .csp => true
  | _ => false

namespace Machine

section

variable {R : Machine → Machine → Prop} [Stationary R]

theorem works_reports [∀ result, Keeps R (setIoResult result)] (procedure : StandardProcedure)
    (h : procedure.reports = true) : Keeps R (perform procedure) := by
  cases procedure with
  | unitread | unitwrite | unitstatus | unitclear =>
    unfold perform
    infer_instance
  | _ => cases h

theorem keeps_perform (procedure : StandardProcedure) (h : procedure.manages = false)
    (new : procedure = .new → Keeps R newBlock) (release : procedure = .release → Keeps R releaseHeap)
    (report : procedure.reports = true → Keeps R (perform procedure)) :
    Keeps R (perform procedure) := by
  cases procedure with
  | exit | getseg | relseg => cases h
  | unitread | unitwrite | unitstatus | unitclear => exact report rfl
  | new =>
    have := new rfl
    unfold perform
    infer_instance
  | release =>
    have := release rfl
    unfold perform
    infer_instance
  | _ =>
    unfold perform
    infer_instance

end

theorem works_perform (procedure : StandardProcedure) (h : procedure.manages = false) :
    Keeps Works (perform procedure) :=
  keeps_perform procedure h (fun _ => works_newBlock) (fun _ => works_releaseHeap)
    (works_reports procedure)

theorem works_executeTable {R : Machine → Machine → Prop} [Workable R] (op : Opcode)
    (h : op.transfers = false) : Keeps R (executeTable op) := by
  cases op with
  | clp | cgp | cip | cbp | cxp | rnp | rbp | csp => cases h
  | _ =>
    unfold executeTable
    infer_instance

end Machine
end PSystem
