import PSystem.Proofs.CaseJumps

/-!
# Words in assembled code

The assembler puts the words of an instruction at even offsets, behind a byte of padding where that is
needed, and the machine fetches them at even addresses.  Procedures start at even offsets of their
segment, so both agree wherever a segment is loaded at an even address: the machine skips the padding
and nothing else, and reads the words that were assembled (`Executes.readsAssembled`).
-/

namespace PSystem

/-! ## What the assembler writes -/

namespace Directive

/-- Pushes a word. -/
def ldci (w : Word) : List Directive :=
  [op Opcode.ldci.code, word w]

/-- Pushes words. -/
def ldc (ws : List Word) : List Directive :=
  op Opcode.ldc.code :: byte (UInt8.ofNat ws.length) :: ws.map word

end Directive

namespace Draft

variable {d : Draft}

theorem offset_align (d : Draft) : d.align.offset = d.offset + d.offset % 2 := by
  rw [(writes_align d).offset, length_padding]

end Draft

namespace Body

variable {order : ByteOrder} {before written after : List Directive} {body : Body} {bytes : Bytes}

/-- What directives append stands in the body at the offset where they came. -/
theorem stands_of_writes (assembled : assemble order (before ++ (written ++ after)) = .ok body)
    (writes : (draft order before).Writes bytes (draft order (before ++ written))) :
    bytes <+: body.code.drop (draft order before).offset := by
  have split : draft order (before ++ (written ++ after)) =
      after.foldl Draft.apply (draft order (before ++ written)) := by
    rw [draft, ← List.append_assoc, List.foldl_append, draft]
  refine prefix_of_writes assembled (inside_draft order before) writes ?_
  rw [split]
  exact Draft.foldl_related Draft.grows_apply _ after

theorem stands_ldci {w : Word}
    (assembled : assemble order (before ++ (Directive.ldci w ++ after)) = .ok body) :
    [Opcode.ldci.code] <+: body.code.drop (draft order before).offset ∧
      order.bytes w <+: body.code.drop ((draft order before).op Opcode.ldci.code).align.offset ∧
      (draft order (before ++ Directive.ldci w)).offset =
        ((draft order before).op Opcode.ldci.code).align.offset + 2 := by
  have opcode := Draft.writes_op (draft order before) Opcode.ldci.code
  have word := Draft.writes_word ((draft order before).op Opcode.ldci.code) w
  have written : draft order (before ++ Directive.ldci w) =
      ((draft order before).op Opcode.ldci.code).word w := by
    rw [draft, List.foldl_append]
    rfl
  have stands := stands_of_writes assembled (written ▸ opcode.trans word)
  obtain ⟨first, stands⟩ := Bytes.stands_append stands
  obtain ⟨-, second⟩ := Bytes.stands_append stands
  rw [opcode.order, order_draft] at second
  rw [length_padding, ← opcode.offset, ← Draft.offset_align] at second
  refine ⟨first, second, ?_⟩
  have two : (order.bytes w).length = 2 := rfl
  rw [written, word.offset, List.length_append, length_padding, opcode.order, order_draft, two,
    Draft.offset_align]
  omega

theorem stands_ldc {ws : List Word}
    (assembled : assemble order (before ++ (Directive.ldc ws ++ after)) = .ok body) :
    [Opcode.ldc.code, UInt8.ofNat ws.length] <+: body.code.drop (draft order before).offset ∧
      ws.flatMap order.bytes <+: body.code.drop
        (((draft order before).op Opcode.ldc.code).push (UInt8.ofNat ws.length)).align.offset ∧
      (draft order (before ++ Directive.ldc ws)).align.offset =
        (((draft order before).op Opcode.ldc.code).push (UInt8.ofNat ws.length)).align.offset +
          2 * ws.length := by
  have opcode := Draft.writes_op (draft order before) Opcode.ldc.code
  have count := Draft.writes_push ((draft order before).op Opcode.ldc.code) (UInt8.ofNat ws.length)
  have head := opcode.trans count
  have written : draft order (before ++ Directive.ldc ws) = (ws.map Directive.word).foldl Draft.apply
      (((draft order before).op Opcode.ldc.code).push (UInt8.ofNat ws.length)) := by
    rw [draft, List.foldl_append]
    rfl
  -- without words there is no padding either, so that the operand ends behind its count
  cases ws with
  | nil => exact ⟨stands_of_writes assembled (written ▸ head), List.nil_prefix, by rw [written]; rfl⟩
  | cons w ws =>
    have words := Draft.writes_words
      (((draft order before).op Opcode.ldc.code).push (UInt8.ofNat (w :: ws).length)) w ws
    have stands := stands_of_writes assembled (written ▸ head.trans words)
    obtain ⟨first, stands⟩ := Bytes.stands_append stands
    obtain ⟨-, second⟩ := Bytes.stands_append stands
    rw [head.order, order_draft] at second
    rw [length_padding, ← head.offset, ← Draft.offset_align] at second
    refine ⟨first, second, ?_⟩
    have stop := words.offset
    rw [List.length_append, length_padding, head.order, order_draft,
      ProcedureSpec.length_words] at stop
    rw [written, Draft.offset_align, stop, Draft.offset_align]
    omega

end Body

/-! ## What the machine reads -/

theorem Memory.readWords_of_reads {memory : Memory} {a : Nat} {ws : List Word}
    (h : memory.Reads a (ws.flatMap memory.order.bytes)) :
    memory.readWords (UInt16.ofNat a) ws.length = .ok ws := by
  have each : ∀ i ∈ List.range ws.length,
      memory.readWord (UInt16.ofNat a + UInt16.ofNat (2 * i)) = .ok (ws.getD i 0) := by
    intro i hi
    have bound := List.mem_range.1 hi
    rw [← UInt16.ofNat_add, List.getD_eq_getElem?_getD, List.getElem?_eq_getElem bound]
    exact h.words (List.getElem?_eq_getElem bound)
  rw [Memory.readWords, Memory.mapM_eq_ok each]
  congr 1
  apply List.ext_getElem
  · simp
  · intro i _ bound
    simp [bound]

namespace Machine

variable {m : Machine} {s : SegmentSpec} {p : ProcedureSpec} {load k : Nat} {body : Body}
  {before after directives : List Directive} {ws : List Word} {w : Word}

theorem executeNext_of_opcode {op : Opcode} (encoded : Encoding.ofCode op.code = .table op)
    (read : m.memory.readByte m.nextAddress = .ok op.code) :
    executeNext m.prepare = executeTable op (m.prepare.movedTo (m.nextAddress + 1)) :=
  executeNext_of_read (m := m.prepare) encoded read

/-- LDCI pushes the word at the next even address. -/
theorem executeNext_of_ldci (opcode : m.memory.readByte m.nextAddress = .ok Opcode.ldci.code)
    (word : m.memory.readWord (alignAddress (m.nextAddress + 1)) = .ok w) :
    executeNext m.prepare = (liftM (push w) : Exec Unit)
      (m.prepare.movedTo (alignAddress (m.nextAddress + 1) + 2)) := by
  have next : (m.prepare.movedTo (m.nextAddress + 1)).nextAddress = m.nextAddress + 1 :=
    nextAddress_movedTo
  have fetched : fetchWord (m.prepare.movedTo (m.nextAddress + 1)) = .ok w
      (m.prepare.movedTo (alignAddress (m.nextAddress + 1) + 2)) := by
    have fetched := fetchWord_of_read (m := m.prepare.movedTo (m.nextAddress + 1)) (w := w)
    rw [next, movedTo_movedTo] at fetched
    exact fetched word
  rw [executeNext_of_opcode rfl opcode]
  exact liftM_bind_of_ok fetched

theorem loadConstants_of_reads {count : UInt8} (counted : m.memory.readByte m.nextAddress = .ok count)
    (words : m.memory.readWords (alignAddress (m.nextAddress + 1)) count.toNat = .ok ws) :
    loadConstants m = onStore (Store.pushBlock ws)
      (m.movedTo (alignAddress (m.nextAddress + 1) + 2 * count.toUInt16)) := by
  have aligned : alignPointer (m.movedTo (m.nextAddress + 1)) =
      .ok () (m.movedTo (alignAddress (m.nextAddress + 1))) := by
    rw [alignPointer_apply, nextAddress_movedTo, movedTo_movedTo]
  have read : reading (·.readWords (m.movedTo (alignAddress (m.nextAddress + 1))).nextAddress
      count.toNat) (m.movedTo (alignAddress (m.nextAddress + 1))) =
      .ok ws (m.movedTo (alignAddress (m.nextAddress + 1))) := by
    apply reading_apply
    rw [nextAddress_movedTo]
    exact words
  unfold loadConstants
  rw [bind_of_ok (fetchByte_of_read counted), bind_of_ok aligned, get_bind_apply, bind_of_ok read,
    bind_of_ok (advance_apply _), nextAddress_movedTo, movedTo_movedTo]

/-- LDC pushes as many words from the next even address on as its count says. -/
theorem executeNext_of_ldc {count : UInt8}
    (opcode : m.memory.readByte m.nextAddress = .ok Opcode.ldc.code)
    (counted : m.memory.readByte (m.nextAddress + 1) = .ok count)
    (words : m.memory.readWords (alignAddress (m.nextAddress + 1 + 1)) count.toNat = .ok ws) :
    executeNext m.prepare = (liftM (onStore (Store.pushBlock ws)) : Exec Unit)
      (m.prepare.movedTo (alignAddress (m.nextAddress + 1 + 1) + 2 * count.toUInt16)) := by
  have next : (m.prepare.movedTo (m.nextAddress + 1)).nextAddress = m.nextAddress + 1 :=
    nextAddress_movedTo
  have whole : loadConstants (m.prepare.movedTo (m.nextAddress + 1)) = _ :=
    loadConstants_of_reads (by rw [next]; exact counted) (by rw [next]; exact words)
  rw [next, movedTo_movedTo] at whole
  rw [executeNext_of_opcode rfl opcode]
  show raising loadConstants _ = raising (onStore (Store.pushBlock ws)) _
  unfold raising
  rw [whole]

/-! ## Code at even addresses -/

theorem ipcBase_add_add (m : Machine) (i j : Nat) :
    m.ipcBase + UInt16.ofNat i + UInt16.ofNat j = m.ipcBase + UInt16.ofNat (i + j) := by
  rw [UInt16.add_assoc, ← UInt16.ofNat_add]

theorem ofNat_ipcBase_add (m : Machine) (i : Nat) :
    UInt16.ofNat (m.ipcBase.toNat + i) = m.ipcBase + UInt16.ofNat i := by
  rw [UInt16.ofNat_add, UInt16.ofNat_toNat]

/-- The code of the current procedure lies at an even address. -/
structure EvenCode (m : Machine) (code : Bytes) : Prop where
  even : m.ipcBase.toNat % 2 = 0
  reads : m.memory.Reads m.ipcBase.toNat code

theorem Executes.evenCode (executes : m.Executes s load k) (hp : s.procedures[k]? = some p)
    (hbody : p.body = some body) (even : load % 2 = 0) : m.EvenCode body.code := by
  obtain ⟨placed, -, base⟩ := executes.placed hp
  have evenStart := s.even_start m.memory.order k
  have reads := placed.code
  rw [hbody, Option.getD_some] at reads
  refine ⟨?_, fun i b hb => ?_⟩
  · rw [base, UInt16.toNat_ofNat']
    omega
  · rw [base, UInt16.ofNat_add, UInt16.ofNat_toNat, ← UInt16.ofNat_add]
    exact reads i b hb

namespace EvenCode

variable {code bytes : Bytes} {i j : Nat} {b : UInt8}

/-- What stands in the code is read at its offset. -/
theorem stands (h : m.EvenCode code) (stands : bytes <+: code.drop i) :
    m.memory.Reads (m.ipcBase.toNat + i) bytes :=
  h.reads.of_prefix stands

theorem byte (h : m.EvenCode code) (stands : bytes <+: code.drop i) (hb : bytes[j]? = some b) :
    m.memory.readByte (m.ipcBase + UInt16.ofNat (i + j)) = .ok b := by
  rw [← ofNat_ipcBase_add, ← Nat.add_assoc]
  exact h.stands stands j b hb

/-- The machine skips the padding of the assembler and nothing else. -/
theorem align (h : m.EvenCode code) (d : Draft) :
    alignAddress (m.ipcBase + UInt16.ofNat d.offset) = m.ipcBase + UInt16.ofNat d.align.offset := by
  have even := h.even
  rw [← ofNat_ipcBase_add, alignAddress_ofNat, ← ofNat_ipcBase_add, Draft.offset_align]
  congr 1
  omega

end EvenCode

/-- The machine reads the words of the instruction at its current offset as they were assembled. -/
structure ReadsWords (m : Machine) (directives : List Directive) : Prop where
  /-- What is skipped before a word is what the assembler puts there. -/
  align : ∀ d : Draft, alignAddress (m.ipcBase + UInt16.ofNat d.offset) =
    m.ipcBase + UInt16.ofNat d.align.offset
  ldci : ∀ before w after, directives = before ++ (Directive.ldci w ++ after) →
    m.ipc = UInt16.ofNat (draft m.memory.order before).offset →
    executeNext m.prepare = (liftM (push w) : Exec Unit) (m.prepare.movedTo
      (m.ipcBase + UInt16.ofNat (draft m.memory.order (before ++ Directive.ldci w)).offset))
  ldc : ∀ before ws after, directives = before ++ (Directive.ldc ws ++ after) → ws.length < 256 →
    m.ipc = UInt16.ofNat (draft m.memory.order before).offset →
    executeNext m.prepare = (liftM (onStore (Store.pushBlock ws)) : Exec Unit) (m.prepare.movedTo
      (m.ipcBase + UInt16.ofNat (draft m.memory.order (before ++ Directive.ldc ws)).align.offset))
  /-- A case jump goes on at its target, or else at its default jump. -/
  xjp : ∀ before low high default targets after,
    directives = before ++ .cases low high default targets :: after →
    -0x8000 ≤ low ∧ low < 0x8000 → -0x8000 ≤ high ∧ high < 0x8000 →
    m.ipc = UInt16.ofNat (draft m.memory.order before).offset →
    ∀ v rest, Store.pop m.store = .ok v rest →
    (low ≤ v.signed ∧ v.signed ≤ high → ∀ label, targets[(v.signed - low).toNat]? = some label →
      ∃ target, Bound m.memory.order directives label target ∧
        step m = .ok () (m.leapt rest (m.ipcBase + UInt16.ofNat target))) ∧
    (¬ (low ≤ v.signed ∧ v.signed ≤ high) →
      step m = .ok () (m.leapt rest (m.ipcBase +
        UInt16.ofNat ((draft m.memory.order before).bounds low high).offset)))

theorem EvenCode.ldci (h : m.EvenCode body.code)
    (assembled : Body.assemble m.memory.order (before ++ (Directive.ldci w ++ after)) = .ok body)
    (here : m.ipc = UInt16.ofNat (draft m.memory.order before).offset) :
    executeNext m.prepare = (liftM (push w) : Exec Unit) (m.prepare.movedTo
      (m.ipcBase + UInt16.ofNat (draft m.memory.order (before ++ Directive.ldci w)).offset)) := by
  obtain ⟨opcode, word, stop⟩ := Body.stands_ldci assembled
  have opcode := h.byte opcode (j := 0) rfl
  have word := (h.stands word).word
  have next : m.nextAddress + 1 =
      m.ipcBase + UInt16.ofNat ((draft m.memory.order before).op Opcode.ldci.code).offset := by
    rw [nextAddress, here, (Draft.writes_op _ _).offset]
    exact ipcBase_add_add m _ 1
  rw [Nat.add_zero, ← here] at opcode
  rw [ofNat_ipcBase_add, ← h.align, ← next] at word
  rw [executeNext_of_ldci opcode word, next, h.align, stop, ← ipcBase_add_add]
  rfl

theorem EvenCode.ldc (h : m.EvenCode body.code)
    (assembled : Body.assemble m.memory.order (before ++ (Directive.ldc ws ++ after)) = .ok body)
    (few : ws.length < 256) (here : m.ipc = UInt16.ofNat (draft m.memory.order before).offset) :
    executeNext m.prepare = (liftM (onStore (Store.pushBlock ws)) : Exec Unit) (m.prepare.movedTo
      (m.ipcBase + UInt16.ofNat (draft m.memory.order (before ++ Directive.ldc ws)).align.offset)) := by
  obtain ⟨head, words, stop⟩ := Body.stands_ldc assembled
  have opcode := h.byte head (j := 0) rfl
  have count := h.byte head (j := 1) rfl
  have words := Memory.readWords_of_reads (h.stands words)
  have size : (UInt8.ofNat ws.length).toNat = ws.length := by
    rw [UInt8.toNat_ofNat', Nat.mod_eq_of_lt few]
  have second : m.nextAddress + 1 =
      m.ipcBase + UInt16.ofNat ((draft m.memory.order before).offset + 1) := by
    rw [nextAddress, here]
    exact ipcBase_add_add m _ 1
  have next : m.nextAddress + 1 + 1 = m.ipcBase + UInt16.ofNat
      (((draft m.memory.order before).op Opcode.ldc.code).push (UInt8.ofNat ws.length)).offset := by
    rw [second, (Draft.writes_push _ _).offset, (Draft.writes_op _ _).offset]
    exact ipcBase_add_add m _ 1
  -- two bytes for each word, computed in machine words
  have double : 2 * (UInt8.ofNat ws.length).toUInt16 = UInt16.ofNat (2 * ws.length) := by
    apply UInt16.toNat_inj.1
    rw [UInt16.toNat_mul, UInt8.toNat_toUInt16, size, UInt16.toNat_ofNat']
    rfl
  rw [Nat.add_zero, ← here] at opcode
  rw [← second] at count
  rw [ofNat_ipcBase_add, ← h.align, ← next, ← size] at words
  rw [executeNext_of_ldc opcode count words, next, h.align, stop, double, ipcBase_add_add]

theorem Executes.xjp {low high : Int} {default : Label} {targets : List Label} {v : Word}
    {rest : Store} (executes : m.Executes s load k) (hp : s.procedures[k]? = some p)
    (hbody : p.body = some body) (even : load % 2 = 0)
    (assembled : Body.assemble m.memory.order (before ++ .cases low high default targets :: after) =
      .ok body)
    (lowest : -0x8000 ≤ low ∧ low < 0x8000) (highest : -0x8000 ≤ high ∧ high < 0x8000)
    (here : m.ipc = UInt16.ofNat (draft m.memory.order before).offset)
    (popped : Store.pop m.store = .ok v rest) :
    (low ≤ v.signed ∧ v.signed ≤ high → ∀ label, targets[(v.signed - low).toNat]? = some label →
      ∃ target, Bound m.memory.order (before ++ .cases low high default targets :: after) label
        target ∧ step m = .ok () (m.leapt rest (m.ipcBase + UInt16.ofNat target))) ∧
    (¬ (low ≤ v.signed ∧ v.signed ≤ high) →
      step m = .ok () (m.leapt rest (m.ipcBase +
        UInt16.ofNat ((draft m.memory.order before).bounds low high).offset))) := by
  obtain ⟨-, spec⟩ := Body.caseJump_spec assembled
  have steps := executes.step_of_caseJump hp hbody even rfl spec lowest highest here popped
  constructor
  · intro inside label found
    obtain ⟨n, hn⟩ := Int.eq_ofNat_of_zero_le (Int.sub_nonneg.2 inside.1)
    rw [hn] at found steps
    obtain ⟨target, bound, -, stands⟩ := spec.words n label found
    have follows := ProcedureSpec.follow_of_distance
      ((executes.evenCode hp hbody even).stands stands).word
    have entry : UInt16.ofNat n * 2 = UInt16.ofNat (2 * n) := by
      rw [UInt16.ofNat_mul, UInt16.mul_comm]
      rfl
    refine ⟨target, bound, steps _ ?_⟩
    rw [if_pos inside, ofSigned_natCast, entry, ipcBase_add_add, ← ofNat_ipcBase_add,
      ← ofNat_ipcBase_add]
    exact follows
  · intro outside
    refine steps _ ?_
    rw [if_neg outside, Nat.add_sub_cancel]

/-- Wherever a segment is loaded at an even address, its procedures read the words that were
assembled. -/
theorem Executes.readsWords (executes : m.Executes s load k) (hp : s.procedures[k]? = some p)
    (hbody : p.body = some body) (assembled : Body.assemble m.memory.order directives = .ok body)
    (even : load % 2 = 0) : m.ReadsWords directives where
  align := (executes.evenCode hp hbody even).align
  ldci _ _ _ eq := (executes.evenCode hp hbody even).ldci (eq ▸ assembled)
  ldc _ _ _ eq := (executes.evenCode hp hbody even).ldc (eq ▸ assembled)
  xjp := by
    rintro before low high default targets after rfl lowest highest here v rest popped
    exact executes.xjp hp hbody even assembled lowest highest here popped

end Machine
end PSystem
