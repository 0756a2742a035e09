import PSystem.Proofs.Assembly
import PSystem.Proofs.InstructionLength
import PSystem.Proofs.SegmentLayout

/-!
# Jumps reach their labels

Three parts take part in a jump: the assembler chooses its displacement byte, the segment image holds
the jump table as distances back from its words, and the machine resolves the displacement when the
jump is taken.  `assembled_jumps_land` puts them together: wherever a segment is loaded, a jump that
is taken goes on at the offset of its label, and one that is not taken goes on behind itself.
-/

namespace PSystem

namespace Machine

variable {m m' t : Machine}

/-! ## Conditions leave memory alone -/

/-- No cell of the memory changed. -/
def SameMemory (m m' : Machine) : Prop :=
  m'.memory = m.memory

instance : IsPreorder Machine SameMemory where
  refl _ := rfl
  trans _ _ _ h h' := Eq.trans h' h

instance sameMemory_pop : Keeps SameMemory pop := by
  constructor
  intro m
  unfold pop onStore SameMemory
  rcases Store.pop_cases m.store with ⟨e, eq, -⟩ | ⟨w, -, -, eq⟩
  · rw [eq]
    rfl
  · rw [eq]
    rfl

instance sameMemory_popBool : Keeps SameMemory (onStore Store.popBool) := by
  constructor
  intro m
  unfold onStore Store.popBool SameMemory
  rw [bind_apply]
  rcases Store.pop_cases m.store with ⟨e, eq, -⟩ | ⟨w, -, -, eq⟩
  · rw [eq]
    rfl
  · rw [eq]
    rfl

instance sameMemory_testCondition (c : Condition) : Keeps SameMemory (testCondition c) := by
  cases c with
  | always | onFalse | onUnequal | onEqual =>
    unfold testCondition
    infer_instance

/-! ## Taking a jump -/

theorem fetchByte_of_read {b : UInt8} (h : m.memory.readByte m.nextAddress = .ok b) :
    fetchByte m = .ok b (m.movedTo (m.nextAddress + 1)) := by
  unfold fetchByte
  rw [get_bind_apply, bind_of_ok (reading_apply h), bind_of_ok (advance_apply 1)]
  rfl

/-- Once its opcode is fetched, an instruction of the table is carried out. -/
theorem executeNext_of_read {op : Opcode} (encoded : Encoding.ofCode op.code = .table op)
    (read : m.memory.readByte m.nextAddress = .ok op.code) :
    executeNext m = executeTable op (m.movedTo (m.nextAddress + 1)) := by
  unfold executeNext
  rw [liftM_bind_of_ok (fetchByte_of_read read)]
  unfold execute
  rw [encoded]

/-- Where a displacement leads: ahead from the byte after it, or where an entry of the jump table
says. -/
def Leads (m : Machine) (displacement : Int) (target : Address) : Prop :=
  if 0 ≤ displacement then target = m.nextAddress + Word.ofSigned displacement
  else AttributeTable.follow m.memory (m.jtab + Word.ofSigned displacement) = .ok target

theorem takeJump_of_leads {displacement : Int} {target : Address}
    (leads : m.Leads displacement target) :
    takeJump displacement m = .ok () (m.movedTo target) := by
  unfold takeJump
  unfold Leads at leads
  split at leads
  · rename_i ahead
    rw [if_pos ahead, advance_apply, leads]
  · rename_i back
    rw [if_neg back, get_bind_apply, bind_of_ok (reading_apply leads)]
    rfl

/-- A jump goes on where its displacement leads if its condition holds, else behind it. -/
theorem jump_of_read {c : Condition} {b : UInt8} {target : Address} {taken : Bool}
    (read : m.memory.readByte m.nextAddress = .ok b)
    (leads : (m.movedTo (m.nextAddress + 1)).Leads (signedByte b) target)
    (tested : testCondition c (m.movedTo (m.nextAddress + 1)) = .ok taken t) :
    ∃ m', jump c m = .ok () m' ∧
      m'.ipc = (if taken then target else m.nextAddress + 1) - m.ipcBase := by
  have still : Still (m.movedTo (m.nextAddress + 1)) t := Keeps.of_ok tested
  have same : SameMemory (m.movedTo (m.nextAddress + 1)) t := Keeps.of_ok tested
  unfold jump
  rw [bind_of_ok (fetchByte_of_read read), bind_of_ok tested]
  cases taken with
  | false => exact ⟨t, rfl, still.ipc⟩
  | true =>
    have leads' : t.Leads (signedByte b) target := by
      unfold Leads nextAddress at leads ⊢
      rwa [still.ipc, still.ipcBase, still.jtab, show t.memory = _ from same]
    refine ⟨t.movedTo target, takeJump_of_leads leads', ?_⟩
    show target - t.ipcBase = target - m.ipcBase
    rw [still.ipcBase]
    rfl

theorem executeTable_of_condition {op : Opcode} {c : Condition}
    (conditional : Condition.ofOpcode? op = some c) :
    executeTable op = liftM (jump c) ∧ Encoding.ofCode op.code = .table op := by
  cases op with
  | ujp | fjp | efj | nfj =>
    cases conditional
    exact ⟨rfl, rfl⟩
  | _ => cases conditional

/-- A step over a jump instruction. -/
theorem step_of_jump {op : Opcode} {c : Condition} {b : UInt8} {target : Address} {taken : Bool}
    (running : m.halted = false) (conditional : Condition.ofOpcode? op = some c)
    (opcode : m.memory.readByte m.nextAddress = .ok op.code)
    (displacement : m.memory.readByte (m.nextAddress + 1) = .ok b)
    (leads : (m.movedTo (m.nextAddress + 1 + 1)).Leads (signedByte b) target)
    (tested : testCondition c m = .ok taken t) :
    ∃ m', step m = .ok () m' ∧
      m'.ipc = (if taken then target else m.nextAddress + 1 + 1) - m.ipcBase := by
  obtain ⟨program, code⟩ := executeTable_of_condition conditional
  -- what is noted before an instruction does not matter to it
  have fetched : fetchByte m.prepare = .ok op.code (m.prepare.movedTo (m.nextAddress + 1)) :=
    fetchByte_of_read opcode
  generalize after : m.prepare.movedTo (m.nextAddress + 1) = m₀ at fetched
  have next : m₀.nextAddress = m.nextAddress + 1 := after ▸ nextAddress_movedTo
  have store : (m₀.movedTo (m₀.nextAddress + 1)).store = m.store := after ▸ rfl
  have read : m₀.memory.readByte m₀.nextAddress = .ok b := by
    rw [next, ← after]
    exact displacement
  have leads₀ : (m₀.movedTo (m₀.nextAddress + 1)).Leads (signedByte b) target := by
    rw [next, ← after]
    exact leads
  obtain ⟨t', tested₀⟩ := testCondition_congr store tested
  obtain ⟨m₁, jumped, reached⟩ := jump_of_read read leads₀ tested₀
  have executed : executeNext m.prepare = .ok () m₁ := by
    unfold executeNext
    rw [liftM_bind_of_ok fetched]
    unfold execute
    rw [code]
    dsimp only
    rw [program, raising_of_ok jumped]
  rw [next, ← after] at reached
  refine ⟨_, step_of_ok running executed, ?_⟩
  have counted : Noted m₁ m₁.counted := rfl
  exact (counted.trans (noted_record _)).still.ipc.trans reached

/-! ## Displacements -/

theorem signedByte_ahead {n : Nat} (near : n ≤ 127) : signedByte (UInt8.ofNat n) = n := by
  have small : (UInt8.ofNat n).toNat = n := by
    rw [UInt8.toNat_ofNat', Nat.mod_eq_of_lt (by omega)]
  rw [signedByte, small, if_pos (by omega)]

theorem signedByte_entry {k : Nat} (few : k < Body.maxTargets) :
    signedByte (UInt8.ofNat (256 - (10 + 2 * k))) = -((10 + 2 * k : Nat) : Int) := by
  change k < 60 at few
  have small : (UInt8.ofNat (256 - (10 + 2 * k))).toNat = 256 - (10 + 2 * k) := by
    rw [UInt8.toNat_ofNat', Nat.mod_eq_of_lt (by omega)]
  rw [signedByte, small, if_neg (by omega)]
  omega

theorem ofSigned_natCast (n : Nat) : Word.ofSigned n = UInt16.ofNat n := by
  apply UInt16.toNat_inj.1
  rw [Word.ofSigned, UInt16.toNat_ofNat', UInt16.toNat_ofNat']
  omega

theorem add_ofSigned_neg {a n : Nat} (le : n ≤ a) :
    UInt16.ofNat a + Word.ofSigned (-(n : Int)) = UInt16.ofNat (a - n) := by
  apply UInt16.toNat_inj.1
  rw [Word.ofSigned, UInt16.toNat_add, UInt16.toNat_ofNat', UInt16.toNat_ofNat', UInt16.toNat_ofNat']
  omega

/-- The displacement of an assembled jump leads to its target. -/
theorem leads_of_encodes {p : ProcedureSpec} {a i target : Nat} {byte : UInt8}
    (placed : p.Placed m.memory a) (table : m.jtab = UInt16.ofNat (a + p.tableOffset))
    (here : m.nextAddress = UInt16.ofNat (a + (i + 1)))
    (encodes : Body.Encodes (p.body.getD {}).jumpTable i target byte) :
    m.Leads (signedByte byte) (UInt16.ofNat (a + target)) := by
  rcases encodes with ⟨ahead, near, rfl⟩ | ⟨k, entry, few, rfl⟩
  · have nonneg : (0 : Int) ≤ (target - (i + 1) : Nat) := Int.natCast_nonneg _
    have sum : a + target = a + (i + 1) + (target - (i + 1)) := by omega
    rw [signedByte_ahead (by omega), Leads, if_pos nonneg, here, ofSigned_natCast, sum,
      UInt16.ofNat_add]
  · obtain ⟨low, follows⟩ := placed.entries k target entry
    have negative : ¬ (0 : Int) ≤ -((10 + 2 * k : Nat) : Int) := by omega
    have slot : a + p.tableOffset - (10 + 2 * k) = a + (p.tableOffset - 10 - 2 * k) := by omega
    rw [signedByte_entry few, Leads, if_neg negative, table, add_ofSigned_neg (by omega), slot]
    exact follows

/-! ## Loaded segments -/

/-- The machine executes procedure number `k` of a segment, counted from zero, whose image lies in
memory from `load` on: the attribute table is the procedure's, and code is fetched from the entry that
the table gives. -/
structure Executes (m : Machine) (s : SegmentSpec) (load k : Nat) : Prop where
  running : m.halted = false
  fits : load + (s.image m.memory.order).length ≤ 0x10000
  code : m.memory.Reads load (s.image m.memory.order)
  table : ∃ offset,
    (SegmentSpec.tableOffsets 0 (s.procedureImages m.memory.order))[k]? = some offset ∧
      m.jtab = UInt16.ofNat (load + offset)
  base : AttributeTable.entry m.memory m.jtab = .ok m.ipcBase

/-- Where a procedure that executes lies. -/
theorem Executes.placed {s : SegmentSpec} {p : ProcedureSpec} {load k : Nat}
    (h : m.Executes s load k) (hp : s.procedures[k]? = some p) :
    p.Placed m.memory (load + s.start m.memory.order k) ∧
      m.jtab = UInt16.ofNat (load + s.start m.memory.order k + p.tableOffset) ∧
      m.ipcBase = UInt16.ofNat (load + s.start m.memory.order k) := by
  have placed := SegmentSpec.placed_of_reads h.code hp
  obtain ⟨offset, found, table⟩ := h.table
  rw [SegmentSpec.getElem?_tableOffsets_procedureImages _ hp, Option.some_inj] at found
  rw [← found, ← Nat.add_assoc] at table
  have base := h.base
  rw [table, placed.entry] at base
  exact ⟨placed, table, (Except.ok.inj base).symm⟩

/-- Offsets into the code of a procedure that executes are words. -/
theorem Executes.length_lt {s : SegmentSpec} {p : ProcedureSpec} {load k : Nat}
    (h : m.Executes s load k) (hp : s.procedures[k]? = some p) :
    (p.body.getD {}).code.length < 0x10000 := by
  have shorter := SegmentSpec.length_code_lt m.memory.order hp
  have fits := h.fits
  omega

theorem offset_toNat (a : Nat) {n : Nat} (small : n < 0x10000) :
    (UInt16.ofNat (a + n) - UInt16.ofNat a).toNat = n := by
  rw [UInt16.toNat_sub, UInt16.toNat_ofNat', UInt16.toNat_ofNat']
  omega

/-- A segment can be loaded wherever its image fits in free cells above address 0. -/
theorem exists_reads_image (s : SegmentSpec) (memory : Memory) {load : Nat} (positive : 0 < load)
    (fits : load + (s.image memory.order).length ≤ 0x10000)
    (free : ∀ a : Address, load ≤ a.toNat → a.toNat < load + (s.image memory.order).length →
      (memory.cell a).mapped = false ∧ (memory.cell a).readOnly = false) :
    ∃ loaded, Memory.writeBytes (UInt16.ofNat load) (s.image memory.order) memory = .ok () loaded ∧
      loaded.order = memory.order ∧ loaded.Reads load (s.image memory.order) :=
  Memory.exists_reads_of_free (Memory.free_of_unmarked positive fits free) fits

/-- A jump of an assembled body goes on at the offset of its label if its condition holds, else behind
its displacement. -/
theorem Executes.jump_lands {order : ByteOrder} {directives : List Directive} {body : Body}
    {s : SegmentSpec} {p : ProcedureSpec} {load k : Nat} {j : Jump} {op : Opcode} {c : Condition}
    {taken : Bool} (executes : m.Executes s load k)
    (assembled : Body.assemble order directives = .ok body) (hp : s.procedures[k]? = some p)
    (hbody : p.body = some body) (hj : j ∈ jumps order directives)
    (here : m.ipc = UInt16.ofNat j.position) (opcode : j.code = op.code)
    (conditional : Condition.ofOpcode? op = some c) (tested : testCondition c m = .ok taken t) :
    ∃ target m', Bound order directives j.label target ∧ step m = .ok () m' ∧
      m'.ipc.toNat = if taken then target else j.position + 2 := by
  obtain ⟨target, byte, bound, inside, code, displacement, encodes⟩ := Body.assemble_spec assembled hj
  obtain ⟨placed, table, base⟩ := executes.placed hp
  have short := executes.length_lt hp
  rw [hbody, Option.getD_some] at short
  obtain ⟨ends, -⟩ := List.getElem?_eq_some_iff.1 displacement
  generalize load + s.start m.memory.order k = a at placed table base
  have next : m.nextAddress = UInt16.ofNat (a + j.position) := by
    rw [nextAddress, base, here, UInt16.ofNat_add]
  have after (n : Nat) : UInt16.ofNat (a + n) + 1 = UInt16.ofNat (a + (n + 1)) :=
    (UInt16.ofNat_add (a + n) 1).symm
  have reads := placed.code
  rw [hbody, Option.getD_some] at reads
  -- The displacement is decoded with the procedure's own jump table, which is where the body put
  -- it.
  have leads : (m.movedTo (m.nextAddress + 1 + 1)).Leads (signedByte byte)
      (UInt16.ofNat (a + target)) := by
    refine leads_of_encodes placed table ?_ (by rwa [hbody])
    rw [nextAddress_movedTo, next, after, after]
  obtain ⟨m', stepped, reached⟩ := step_of_jump executes.running conditional
    (by rw [next, ← opcode]; exact reads _ _ code)
    (by rw [next, after]; exact reads _ _ displacement) leads tested
  refine ⟨target, m', bound, stepped, ?_⟩
  rw [reached, base, next, after, after]
  cases taken with
  | true => exact offset_toNat a (by omega)
  | false => exact offset_toNat a (by omega)

/-- A body cannot be assembled exactly when a label that it refers to is not bound or more than sixty
targets need the jump table.  The segment that has the body among its procedures can be loaded
wherever its image fits.  There a jump whose condition holds goes on at the offset of its label, and
any other goes on behind its displacement. -/
theorem assembled_jumps_land (order : ByteOrder) (directives : List Directive) :
    ((∃ e, Body.assemble order directives = .error e) ↔
      (∃ label ∈ directives.flatMap Directive.labels, .bind label ∉ directives) ∨
        Body.maxTargets < (Body.farTargets order directives).card) ∧
    ∀ body, Body.assemble order directives = .ok body →
      ∀ (s : SegmentSpec) (p : ProcedureSpec) (load k : Nat),
      s.procedures[k]? = some p → p.body = some body →
      (∀ memory : Memory, 0x100 ≤ load → load + (s.image memory.order).length ≤ 0x10000 →
        (∀ a : Address, load ≤ a.toNat → a.toNat < load + (s.image memory.order).length →
          (memory.cell a).mapped = false ∧ (memory.cell a).readOnly = false) →
        ∃ loaded,
          Memory.writeBytes (UInt16.ofNat load) (s.image memory.order) memory = .ok () loaded ∧
          loaded.order = memory.order ∧ loaded.Reads load (s.image memory.order)) ∧
      ∀ m : Machine, m.Executes s load k →
      ∀ j ∈ jumps order directives, m.ipc = UInt16.ofNat j.position →
      ∀ op c, j.code = op.code → Condition.ofOpcode? op = some c →
      ∀ taken t, testCondition c m = .ok taken t →
      ∃ target m', Bound order directives j.label target ∧ step m = .ok () m' ∧
        m'.ipc.toNat = if taken then target else j.position + 2 := by
  refine ⟨Body.assemble_fails_iff order directives, ?_⟩
  intro body assembled s p load k hp hbody
  refine ⟨fun memory above => exists_reads_image s memory (by omega), ?_⟩
  intro m executes j hj here op c opcode conditional taken t tested
  exact executes.jump_lands assembled hp hbody hj here opcode conditional tested

/-- A procedure that goes round and round. -/
def looping : List Directive :=
  [.bind 0, .op Opcode.nop.code, .branch Opcode.ujp.code 0]

/-- Its body; the jump back takes an entry of the jump table. -/
def loopBody : Body where
  code := [Opcode.nop.code, Opcode.ujp.code, 246]
  jumpTable := [0]
  exit := 1

/-- A segment with the procedure. -/
def loopSegment : SegmentSpec where
  number := 0
  name := "KERNEL"
  procedures := [{ level := 1, body := some loopBody }]

/-- The machine that was started with the segment and is about to jump back. -/
def loopMachine : Machine :=
  endState (step (started [loopSegment]))

theorem loopMachine_state :
    loopMachine.halted = false ∧ loopMachine.memory.order = .little ∧
      loopMachine.memory.Reads 0xEFEC (loopSegment.image .little) ∧
      loopMachine.jtab = UInt16.ofNat (0xEFEC + 14) ∧ loopMachine.ipc = 1 ∧
      AttributeTable.entry loopMachine.memory loopMachine.jtab = .ok loopMachine.ipcBase := by
  decide +kernel

theorem executes_loopMachine : loopMachine.Executes loopSegment 0xEFEC 0 := by
  obtain ⟨running, order, code, table, -, base⟩ := loopMachine_state
  constructor
  · exact running
  · rw [order]
    decide
  · rw [order]
    exact code
  · rw [order]
    exact ⟨14, by decide, table⟩
  · exact base

/-- The segment with the loop can be loaded into empty memory, and the jump back goes on at the start
of the loop. -/
theorem assembled_jumps_land_looping :
    Body.assemble .little looping = .ok loopBody ∧
      (∃ loaded, Memory.writeBytes (UInt16.ofNat 0xEFEC) (loopSegment.image .little) Memory.empty =
        .ok () loaded ∧ loaded.Reads 0xEFEC (loopSegment.image .little)) ∧
      ∃ m', step loopMachine = .ok () m' ∧ m'.ipc.toNat = 0 := by
  have assembled : Body.assemble .little looping = .ok loopBody := by decide
  obtain ⟨-, -, -, -, here, -⟩ := loopMachine_state
  obtain ⟨loads, lands⟩ := (assembled_jumps_land .little looping).2 loopBody assembled loopSegment
    { level := 1, body := some loopBody } 0xEFEC 0 rfl rfl
  have blank (a : Address) : Memory.empty.cell a = {} := Cells.get_replicate ..
  obtain ⟨loaded, written, -, reads⟩ := loads Memory.empty (by decide) (by decide)
    fun a _ _ => by rw [blank]; exact ⟨rfl, rfl⟩
  obtain ⟨target, m', bound, stepped, reached⟩ := lands loopMachine executes_loopMachine
    ⟨1, Opcode.ujp.code, 0⟩ (by decide) here .ujp .always rfl rfl true loopMachine rfl
  have start : Bound .little looping 0 0 := ⟨[], _, rfl, by decide, rfl⟩
  rw [bound.unique start] at reached
  exact ⟨assembled, ⟨loaded, written, reads⟩, m', stepped, reached⟩

end Machine
end PSystem
