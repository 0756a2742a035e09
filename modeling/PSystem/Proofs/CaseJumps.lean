import PSystem.Proofs.Emission
import PSystem.Proofs.Fields
import PSystem.Proofs.JumpTargets

/-!
# Case jumps select their targets

An assembled case jump is its opcode, padding up to an even offset, its bounds, a default jump, and a
word for each value within the bounds with the distance back to a target (`Body.caseJump_spec`).
Procedures start at even offsets of a segment, so the padding fits wherever the segment is loaded at an
even address, and the machine finds each part where the assembler put it (`assembled_case_jumps_select`).
-/

namespace PSystem

theorem Memory.Reads.of_prefix {m : Memory} {a i : Nat} {code bytes : Bytes} (h : m.Reads a code)
    (stands : bytes <+: code.drop i) : m.Reads (a + i) bytes := by
  intro k b hb
  obtain ⟨bound, rfl⟩ := List.getElem?_eq_some_iff.1 hb
  rw [Nat.add_assoc]
  exact h (i + k) _ (Bytes.getElem?_of_stands stands bound)

/-! ## What stands in a body -/

theorem jumpsFrom_append (d : Draft) (xs ys : List Directive) :
    jumpsFrom d (xs ++ ys) = jumpsFrom d xs ++ jumpsFrom (xs.foldl Draft.apply d) ys := by
  induction xs generalizing d with
  | nil => rfl
  | cons x xs ih => rw [List.cons_append, jumpsFrom, ih, jumpsFrom, List.append_assoc, List.foldl_cons]

/-- The jump that a directive writes is one of the procedure. -/
theorem mem_jumps {order : ByteOrder} {before after : List Directive} {x : Directive} {j : Jump}
    (h : x.jump? (draft order before) = some j) : j ∈ jumps order (before ++ x :: after) := by
  rw [jumps, jumpsFrom_append, jumpsFrom]
  refine List.mem_append_right _ (List.mem_append_left _ ?_)
  exact Option.mem_toList.2 h

namespace Body

/-- What stands in a body for a case jump at offset `start`: its opcode and bounds, and from the offset
`table` on a word for each target. -/
structure CaseJump (order : ByteOrder) (directives : List Directive) (code : Bytes)
    (start table : Nat) (low high : Int) (targets : List Label) : Prop where
  opcode : [Opcode.xjp.code] <+: code.drop start
  bounds : order.bytes (Word.ofSigned low) ++ order.bytes (Word.ofSigned high) <+:
    code.drop (start + 1 + (start + 1) % 2)
  place : start + 1 + (start + 1) % 2 + 6 = table
  words : ∀ k label, targets[k]? = some label → ∃ target, Bound order directives label target ∧
    target ≤ code.length ∧
    order.bytes (ProcedureSpec.distance (table + 2 * k) target) <+: code.drop (table + 2 * k)

/-- What the assembler makes of a case jump. -/
theorem caseJump_spec {order : ByteOrder} {before after : List Directive} {low high : Int}
    {default : Label} {targets : List Label} {body : Body}
    (assembled : assemble order (before ++ .cases low high default targets :: after) = .ok body) :
    (⟨((draft order before).bounds low high).offset, Opcode.ujp.code, default⟩ ∈
      jumps order (before ++ .cases low high default targets :: after)) ∧
    CaseJump order (before ++ .cases low high default targets :: after) body.code
      (draft order before).offset (((draft order before).bounds low high).offset + 2) low high
      targets := by
  have inside := inside_draft order before
  have writes := Draft.writes_bounds (draft order before) low high
  rw [order_draft] at writes
  have length := writes.offset
  simp only [List.length_cons, List.length_append, length_padding, ByteOrder.bytes,
    List.length_nil] at length
  -- the default jump and the words follow the bounds
  have table := Draft.offset_branch ((draft order before).bounds low high) Opcode.ujp.code default
  have applied := Draft.apply_cases (draft order before) low high default targets
  have rest : ((draft order before).apply (.cases low high default targets)).Grows
      (draft order (before ++ .cases low high default targets :: after)) := by
    rw [draft_append_cons]
    exact Draft.foldl_related Draft.grows_apply _ after
  have words : ((draft order before).bounds low high).Grows
      ((draft order before).apply (.cases low high default targets)) := by
    rw [applied]
    exact (Draft.grows_branch _ _ _).trans (Draft.foldl_related Draft.grows_caseWord _ targets)
  refine ⟨mem_jumps rfl, ?_⟩
  have stands := prefix_of_writes assembled inside writes (words.trans rest)
  rw [← List.singleton_append] at stands
  obtain ⟨opcode, stands⟩ := Bytes.stands_append stands
  obtain ⟨-, bounds⟩ := Bytes.stands_append stands
  rw [List.length_singleton, length_padding] at bounds
  refine ⟨opcode, bounds, by omega, ?_⟩
  intro k label hk
  have before' := (inside.grows writes.grows).grows
    (Draft.grows_branch ((draft order before).bounds low high) Opcode.ujp.code default)
  have awaits := Draft.awaits_foldl_caseWord before' hk
  rw [← applied, table] at awaits
  exact caseWord_of_awaits assembled (awaits.grows rest)

end Body

/-! ## Executing a case jump -/

namespace Machine

variable {m : Machine}

theorem alignAddress_ofNat (n : Nat) : alignAddress (UInt16.ofNat n) = UInt16.ofNat (n + n % 2) := by
  have parity : (UInt16.ofNat n % 2 == 1) = (n % 2 == 1) := by
    rw [Bool.eq_iff_iff, beq_iff_eq, beq_iff_eq, ← UInt16.toNat_inj, UInt16.toNat_mod,
      UInt16.toNat_ofNat']
    show n % 2 ^ 16 % 2 = 1 ↔ _
    omega
  unfold alignAddress
  rw [parity]
  split
  · rename_i odd
    rw [beq_iff_eq.1 odd, UInt16.ofNat_add]
    rfl
  · rename_i even
    have zero : n % 2 = 0 := by
      have := mt beq_iff_eq.2 even
      omega
    rw [zero, Nat.add_zero]

theorem signed_ofSigned {v : Int} (low : -0x8000 ≤ v) (high : v < 0x8000) :
    Word.signed (Word.ofSigned v) = v := by
  rw [Word.signed, Word.ofSigned, UInt16.toNat_ofNat']
  split <;> omega

theorem fetchWord_of_read {w : Word}
    (h : m.memory.readWord (alignAddress m.nextAddress) = .ok w) :
    fetchWord m = .ok w (m.movedTo (alignAddress m.nextAddress + 2)) := by
  unfold fetchWord
  rw [bind_of_ok alignPointer_apply, get_bind_apply, nextAddress_movedTo,
    bind_of_ok (reading_apply h), bind_of_ok (advance_apply 2), nextAddress_movedTo]
  rfl

/-- The machine with another store. -/
def withStore (m : Machine) (s : Store) : Machine :=
  { m with store := s }

theorem popInt_of_pop {v : Word} {s : Store} (h : Store.pop m.store = .ok v s) :
    popInt m = .ok (Word.signed v) (m.withStore s) := by
  unfold popInt onStore Store.popInt
  rw [bind_of_ok h]
  rfl

theorem memory_of_pop {v : Word} {s : Store} (h : Store.pop m.store = .ok v s) :
    s.memory = m.memory := by
  rcases Store.pop_cases m.store with ⟨e, failed, -⟩ | ⟨w, -, -, popped⟩
  · cases h.symm.trans failed
  · cases h.symm.trans popped
    rfl

/-- Where a case jump goes on: behind its bounds, or where the word for the value leads. -/
theorem caseJump_of_reads {v low high : Word} {s : Store} {a target : Address}
    (popped : Store.pop m.store = .ok v s) (here : alignAddress m.nextAddress = a)
    (even : alignAddress (a + 2) = a + 2) (first : m.memory.readWord a = .ok low)
    (second : m.memory.readWord (a + 2) = .ok high)
    (leads : if low.signed ≤ v.signed ∧ v.signed ≤ high.signed then
        AttributeTable.follow m.memory (a + 4 + 2 + Word.ofSigned (v.signed - low.signed) * 2) =
          .ok target
      else target = a + 4) :
    caseJump m = .ok () ((m.withStore s).movedTo target) := by
  have memory : (m.withStore s).memory = m.memory := memory_of_pop popped
  have next : (m.withStore s).nextAddress = m.nextAddress := rfl
  have four : a + 2 + 2 = a + 4 := UInt16.add_assoc a 2 2
  have fetched : fetchWord (m.withStore s) = .ok low ((m.withStore s).movedTo (a + 2)) := by
    rw [← here, ← next]
    apply fetchWord_of_read
    rw [memory, next, here, first]
  -- the upper bound follows the lower one, so that no padding comes between
  have fetched' : fetchWord ((m.withStore s).movedTo (a + 2)) =
      .ok high ((m.withStore s).movedTo (a + 4)) := by
    have read : ((m.withStore s).movedTo (a + 2)).memory.readWord
        (alignAddress ((m.withStore s).movedTo (a + 2)).nextAddress) = .ok high := by
      rw [nextAddress_movedTo, even, memory_movedTo, memory, second]
    have second' := fetchWord_of_read read
    rw [nextAddress_movedTo, even, four, movedTo_movedTo] at second'
    exact second'
  unfold caseJump
  rw [bind_of_ok (popInt_of_pop popped), bind_of_ok fetched, bind_of_ok fetched']
  split at leads
  · rename_i inside
    rw [← memory, ← memory_movedTo (m := m.withStore s) (a := a + 4)] at leads
    rw [if_pos inside, get_bind_apply, nextAddress_movedTo, bind_of_ok (reading_apply leads)]
    rfl
  · rename_i outside
    rw [if_neg outside, leads]
    rfl

/-- A step over a case jump. -/
theorem step_of_caseJump {v low high : Word} {s : Store} {a target : Address}
    (running : m.halted = false) (opcode : m.memory.readByte m.nextAddress = .ok Opcode.xjp.code)
    (popped : Store.pop m.store = .ok v s) (here : alignAddress (m.nextAddress + 1) = a)
    (even : alignAddress (a + 2) = a + 2) (first : m.memory.readWord a = .ok low)
    (second : m.memory.readWord (a + 2) = .ok high)
    (leads : if low.signed ≤ v.signed ∧ v.signed ≤ high.signed then
        AttributeTable.follow m.memory (a + 4 + 2 + Word.ofSigned (v.signed - low.signed) * 2) =
          .ok target
      else target = a + 4) :
    step m = .ok () ((m.prepare.withStore s).movedTo target).counted.record := by
  have fetched : fetchByte m.prepare = .ok _ (m.prepare.movedTo (m.nextAddress + 1)) :=
    fetchByte_of_read opcode
  have jumped : caseJump (m.prepare.movedTo (m.nextAddress + 1)) =
      .ok () ((m.prepare.withStore s).movedTo target) :=
    caseJump_of_reads (m := m.prepare.movedTo (m.nextAddress + 1)) popped
      (by rw [nextAddress_movedTo, here]) even first second leads
  have code : Encoding.ofCode Opcode.xjp.code = .table .xjp := rfl
  have executed : executeNext m.prepare = .ok () ((m.prepare.withStore s).movedTo target) := by
    unfold executeNext
    rw [liftM_bind_of_ok fetched]
    unfold execute
    rw [code]
    exact raising_of_ok jumped
  exact step_of_ok running executed

/-- What a procedure that executes needs is not changed by instructions that go on in it. -/
theorem Executes.congr {m' : Machine} {s : SegmentSpec} {load k : Nat} (h : m.Executes s load k)
    (halted : m'.halted = m.halted) (memory : m'.memory = m.memory) (jtab : m'.jtab = m.jtab)
    (ipcBase : m'.ipcBase = m.ipcBase) : m'.Executes s load k where
  running := halted.trans h.running
  fits := memory ▸ h.fits
  code := memory ▸ h.code
  table := by
    rw [memory, jtab]
    exact h.table
  base := by
    rw [memory, jtab, ipcBase]
    exact h.base

/-- The machine after a case jump that went on at an address. -/
def leapt (m : Machine) (s : Store) (target : Address) : Machine :=
  ((m.prepare.withStore s).movedTo target).counted.record

theorem ipc_leapt (s : Store) (target : Address) : (m.leapt s target).ipc = target - m.ipcBase := by
  unfold leapt
  rw [record_eq]
  rfl

theorem Executes.leapt {s : SegmentSpec} {load k : Nat} {v : Word} {rest : Store}
    (h : m.Executes s load k) (popped : Store.pop m.store = .ok v rest) (target : Address) :
    (m.leapt rest target).Executes s load k := by
  have memory : rest.memory = m.memory := memory_of_pop popped
  unfold Machine.leapt
  rw [record_eq]
  exact h.congr rfl memory rfl rfl

/-- A step over an assembled case jump in a procedure at an even address: the words for the values
follow from `table` on, and the default jump stands right before them. -/
theorem Executes.step_of_caseJump {order : ByteOrder} {directives : List Directive} {body : Body}
    {s : SegmentSpec} {p : ProcedureSpec} {load k start table : Nat} {low high : Int}
    {targets : List Label} {v : Word} {rest : Store}
    (executes : m.Executes s load k) (hp : s.procedures[k]? = some p) (hbody : p.body = some body)
    (even : load % 2 = 0) (ordered : m.memory.order = order)
    (spec : Body.CaseJump order directives body.code start table low high targets)
    (lowest : -0x8000 ≤ low ∧ low < 0x8000) (highest : -0x8000 ≤ high ∧ high < 0x8000)
    (here : m.ipc = UInt16.ofNat start) (popped : Store.pop m.store = .ok v rest) (target : Address)
    (leads : if low ≤ v.signed ∧ v.signed ≤ high then
        AttributeTable.follow m.memory (m.ipcBase + UInt16.ofNat table +
          Word.ofSigned (v.signed - low) * 2) = .ok target
      else target = m.ipcBase + UInt16.ofNat (table - 2)) :
    step m = .ok () (m.leapt rest target) := by
  obtain ⟨placed, -, base⟩ := executes.placed hp
  have evenStart := s.even_start m.memory.order k
  have reads := placed.code
  rw [hbody, Option.getD_some] at reads
  have place := spec.place
  have nearby : table - 2 = start + 1 + (start + 1) % 2 + 4 := by omega
  have sum (n : Nat) : UInt16.ofNat n + 2 = UInt16.ofNat (n + 2) := (UInt16.ofNat_add n 2).symm
  have opcode := reads.of_prefix spec.opcode 0 _ rfl
  have bounds := reads.of_prefix spec.bounds
  rw [← ordered] at bounds
  generalize hx : start + 1 + (start + 1) % 2 = x at place bounds nearby
  generalize ha : load + s.start m.memory.order k = a at base bounds opcode
  have next : m.nextAddress = UInt16.ofNat (a + start) := by
    rw [nextAddress, base, here, UInt16.ofNat_add]
  -- the segment is loaded at an even address, so words are aligned as in the assembled code
  have aligned : alignAddress (m.nextAddress + 1) = UInt16.ofNat (a + x) := by
    rw [next, ← UInt16.ofNat_one, ← UInt16.ofNat_add, alignAddress_ofNat]
    congr 1
    omega
  have evenSecond : alignAddress (UInt16.ofNat (a + x) + 2) = UInt16.ofNat (a + x) + 2 := by
    rw [sum, alignAddress_ofNat]
    congr 1
    omega
  rw [Nat.add_zero, ← next] at opcode
  have first : m.memory.readWord (UInt16.ofNat (a + x)) = .ok (Word.ofSigned low) :=
    bounds.left.word
  have second : m.memory.readWord (UInt16.ofNat (a + x) + 2) = .ok (Word.ofSigned high) := by
    rw [sum]
    exact bounds.right.word
  refine Machine.step_of_caseJump executes.running opcode popped aligned evenSecond first second ?_
  · rw [signed_ofSigned lowest.1 lowest.2, signed_ofSigned highest.1 highest.2]
    rw [base, nearby, ← place] at leads
    split at leads
    · rename_i inside
      rw [if_pos inside, UInt16.add_assoc (UInt16.ofNat (a + x)), UInt16.ofNat_add]
      rw [UInt16.ofNat_add x 6, ← UInt16.add_assoc] at leads
      exact leads
    · rename_i outside
      rw [if_neg outside, leads, UInt16.ofNat_add a x, UInt16.ofNat_add x 4, ← UInt16.add_assoc]
      rfl

theorem testCondition_always (m : Machine) : testCondition .always m = .ok true m := rfl

/-- The segment that has an assembled body among its procedures can be loaded at every even address at
which its image fits.  There a case jump goes on at the offset of the target for its selector, or, if
the selector is out of bounds, at the default jump that follows, and from there at the offset of the
default label. -/
theorem assembled_case_jumps_select (order : ByteOrder) (before after : List Directive)
    (low high : Int) (default : Label) (targets : List Label) (body : Body) (s : SegmentSpec)
    (p : ProcedureSpec) (load k : Nat) (lowest : -0x8000 ≤ low ∧ low < 0x8000)
    (highest : -0x8000 ≤ high ∧ high < 0x8000)
    (counted : (targets.length : Int) = max 0 (high - low + 1))
    (assembled : Body.assemble order (before ++ .cases low high default targets :: after) = .ok body)
    (hp : s.procedures[k]? = some p) (hbody : p.body = some body) (even : load % 2 = 0) :
    (∀ memory : Memory, 0x100 ≤ load → load + (s.image memory.order).length ≤ 0x10000 →
      (∀ a : Address, load ≤ a.toNat → a.toNat < load + (s.image memory.order).length →
        (memory.cell a).mapped = false ∧ (memory.cell a).readOnly = false) →
      ∃ loaded,
        Memory.writeBytes (UInt16.ofNat load) (s.image memory.order) memory = .ok () loaded ∧
        loaded.order = memory.order ∧ loaded.Reads load (s.image memory.order)) ∧
    ∀ m : Machine, m.Executes s load k → m.memory.order = order →
      m.ipc = UInt16.ofNat (draft order before).offset →
      ∀ v rest, Store.pop m.store = .ok v rest →
      ∃ m', step m = .ok () m' ∧
        if low ≤ v.signed ∧ v.signed ≤ high then
          ∃ label target, targets[(v.signed - low).toNat]? = some label ∧
            Bound order (before ++ .cases low high default targets :: after) label target ∧
            m'.ipc.toNat = target
        else
          m'.ipc.toNat = ((draft order before).bounds low high).offset ∧
          m'.memory.readByte m'.nextAddress = .ok Opcode.ujp.code ∧
          ∃ target m'', Bound order (before ++ .cases low high default targets :: after) default target ∧
            step m' = .ok () m'' ∧ m''.ipc.toNat = target := by
  refine ⟨fun memory above => exists_reads_image s memory (by omega), ?_⟩
  intro m executes ordered here v rest popped
  subst ordered
  obtain ⟨jump, spec⟩ := Body.caseJump_spec assembled
  obtain ⟨placed, -, base⟩ := executes.placed hp
  have short := executes.length_lt hp
  have reads := placed.code
  rw [hbody, Option.getD_some] at short reads
  have steps := executes.step_of_caseJump hp hbody even rfl spec lowest highest here popped
  have lands {target : Nat} (within : target ≤ body.code.length) :
      (m.leapt rest (m.ipcBase + UInt16.ofNat target)).ipc.toNat = target := by
    rw [ipc_leapt, base, ← UInt16.ofNat_add]
    exact offset_toNat _ (by omega)
  by_cases inside : low ≤ v.signed ∧ v.signed ≤ high
  · -- the word for the selector leads to its target
    obtain ⟨n, hn⟩ := Int.eq_ofNat_of_zero_le (Int.sub_nonneg.2 inside.1)
    have bound : n < targets.length := by omega
    obtain ⟨target, bound', within, stands⟩ := spec.words n _ (List.getElem?_eq_getElem bound)
    have word := reads.of_prefix stands
    have follows := ProcedureSpec.follow_of_distance word.word
    simp only [if_pos inside] at steps ⊢
    refine ⟨_, steps (m.ipcBase + UInt16.ofNat target) ?_, _, target, ?_, bound', lands within⟩
    · have entry : UInt16.ofNat n * 2 = UInt16.ofNat (2 * n) := by
        rw [UInt16.ofNat_mul, UInt16.mul_comm]
        rfl
      rw [hn, ofSigned_natCast, base, entry, ← UInt16.ofNat_add, ← UInt16.ofNat_add,
        ← UInt16.ofNat_add, Nat.add_assoc]
      exact follows
    · rw [hn]
      exact List.getElem?_eq_getElem bound
  · -- the default jump follows the bounds
    obtain ⟨bounds, hx⟩ : ∃ x, x = ((draft m.memory.order before).bounds low high).offset := ⟨_, rfl⟩
    rw [← hx] at jump spec steps ⊢
    simp only [if_neg inside, Nat.add_sub_cancel] at steps ⊢
    obtain ⟨-, -, -, -, opcode, -⟩ := Body.assemble_spec assembled jump
    obtain ⟨within, -⟩ := List.getElem?_eq_some_iff.1 opcode
    have arrived : (m.leapt rest (m.ipcBase + UInt16.ofNat bounds)).ipc.toNat = bounds :=
      lands (Nat.le_of_lt within)
    have again := executes.leapt popped (m.ipcBase + UInt16.ofNat bounds)
    have stepped := steps _ rfl
    generalize m.leapt rest (m.ipcBase + UInt16.ofNat bounds) = m' at stepped arrived again
    have here' : m'.ipc = UInt16.ofNat bounds := by rw [← arrived, UInt16.ofNat_toNat]
    have always : Condition.ofOpcode? .ujp = some .always := rfl
    obtain ⟨target, m'', bound, stepped', reached⟩ :=
      again.jump_lands assembled hp hbody jump here' rfl always (testCondition_always m')
    refine ⟨m', stepped, arrived, ?_, target, m'', bound, stepped', reached⟩
    obtain ⟨placed', -, base'⟩ := again.placed hp
    have reads' := placed'.code
    rw [hbody, Option.getD_some] at reads'
    rw [nextAddress, base', here', ← UInt16.ofNat_add]
    exact reads' _ _ opcode

/-- What comes before the case jump of a procedure: the label of its start, and a zero to select
with. -/
def selectBefore : List Directive :=
  [.bind 0, .op 0]

/-- What comes behind it: the label for its default. -/
def selectAfter : List Directive :=
  [.bind 1, .op Opcode.nop.code]

/-- The body with a case jump from -1 to 0; the selector leads back to its start. -/
def selectBody : Body where
  code := [0, Opcode.xjp.code, 0xFF, 0xFF, 0, 0, Opcode.ujp.code, 4, 0xFC, 0xFF, 10, 0, Opcode.nop.code]
  jumpTable := []
  exit := 12

/-- A segment with the procedure. -/
def selectSegment : SegmentSpec where
  number := 0
  name := "KERNEL"
  procedures := [{ level := 1, body := some selectBody }]

/-- The machine that was started with the segment and is about to select. -/
def selectMachine : Machine :=
  endState (step (started [selectSegment]))

/-- The word on top of the stack. -/
def top? (m : Machine) : Option Word :=
  match Store.pop m.store with
  | .ok v _ => some v
  | .error _ _ => none

theorem top?_eq_some {v : Word} : m.top? = some v ↔ ∃ rest, Store.pop m.store = .ok v rest := by
  unfold top?
  cases Store.pop m.store with
  | ok w rest => simp
  | error e rest => simp

theorem selectMachine_state :
    selectMachine.halted = false ∧ selectMachine.memory.order = .little ∧
      selectMachine.memory.Reads 0xEFE4 (selectSegment.image .little) ∧
      selectMachine.jtab = UInt16.ofNat (0xEFE4 + 22) ∧ selectMachine.ipc = 1 ∧
      AttributeTable.entry selectMachine.memory selectMachine.jtab = .ok selectMachine.ipcBase ∧
      selectMachine.top? = some 0 := by
  decide +kernel

theorem executes_selectMachine : selectMachine.Executes selectSegment 0xEFE4 0 := by
  obtain ⟨running, order, code, table, -, base, -⟩ := selectMachine_state
  constructor
  · exact running
  · rw [order]
    decide
  · rw [order]
    exact code
  · rw [order]
    exact ⟨22, by decide, table⟩
  · exact base

/-- The case jump from -1 to 0 goes on, for zero, at the start of the procedure. -/
theorem assembled_case_jumps_select_zero :
    Body.assemble .little (selectBefore ++ .cases (-1) 0 1 [1, 0] :: selectAfter) = .ok selectBody ∧
      ∃ m', step selectMachine = .ok () m' ∧ m'.ipc.toNat = 0 := by
  have assembled : Body.assemble .little (selectBefore ++ .cases (-1) 0 1 [1, 0] :: selectAfter) =
      .ok selectBody := by decide
  obtain ⟨-, order, -, -, here, -, selector⟩ := selectMachine_state
  obtain ⟨-, selects⟩ := assembled_case_jumps_select .little selectBefore selectAfter (-1) 0 1 [1, 0]
    selectBody selectSegment { level := 1, body := some selectBody } 0xEFE4 0 (by decide) (by decide)
    (by decide) assembled rfl rfl (by decide)
  obtain ⟨rest, popped⟩ := top?_eq_some.1 selector
  obtain ⟨m', stepped, reached⟩ := selects selectMachine executes_selectMachine order here 0 rest popped
  rw [if_pos (by decide)] at reached
  obtain ⟨label, target, selected, bound, reached⟩ := reached
  cases selected
  have start : Bound .little (selectBefore ++ .cases (-1) 0 1 [1, 0] :: selectAfter) 0 0 :=
    ⟨[], _, rfl, by decide, rfl⟩
  rw [bound.unique start] at reached
  exact ⟨assembled, m', stepped, reached⟩

end Machine
end PSystem
