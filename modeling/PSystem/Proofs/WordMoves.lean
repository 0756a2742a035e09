import PSystem.Proofs.InstructionRuns

/-!
# Moves of words

MOV copies words from one address to another as bytes.  LDM followed by STM takes them over the stack, word
by word.  Main statement: `move_eq_load_store`.

Words that are written are written as bytes (`Memory.writeWords_eq_writeBytes`), so both ways end with the
same write of bytes, in memories that differ only in cells of the stack.  Such a write takes the same
course in both (`Memory.writeBytes_congr`), also if it stops at a protected cell in the middle of a word.
-/

namespace PSystem

namespace Memory

variable {S : Address → Prop} {m m' : Memory} {a : Address} {v : UInt8} {bytes : Bytes} {n : Nat}

/-! ## Words as bytes -/

theorem writeWords_eq_writeBytes (a : Address) (ws : List Word) (m : Memory) :
    writeWords a ws m = writeBytes a (ws.flatMap m.order.bytes) m := by
  induction ws generalizing a m with
  | nil => rfl
  | cons w ws ih =>
    have split : writeWord a w m = (do
        writeByte a (m.order.split w).1
        writeByte (a + 1) (m.order.split w).2 : Run Memory Unit) m := rfl
    have bytes : writeBytes a ((w :: ws).flatMap m.order.bytes) = (do
        writeByte a (m.order.split w).1
        writeByte (a + 1) (m.order.split w).2
        writeBytes (a + 1 + 1) (ws.flatMap m.order.bytes)) := rfl
    have next : a + 1 + 1 = a + 2 := UInt16.add_assoc a 1 1
    rw [bytes, next, ← bind_assoc, writeWords]
    cases written : writeWord a w m with
    | error e m₁ => rw [bind_of_error written, bind_of_error (split.symm.trans written)]
    | ok u m₁ =>
      have order : m₁.order = m.order := (Keeps.of_ok (R := Guarded) written).order
      rw [bind_of_ok written, bind_of_ok (split.symm.trans written), ih, order]

theorem Legible.readBytes (h : m.Legible a n) :
    m.readBytes a n = .ok ((List.range n).map fun i => m.peekByte (a + UInt16.ofNat i)) := by
  apply mapM_eq_ok
  intro i hi
  obtain ⟨valid, unmapped⟩ := h i (List.mem_range.1 hi)
  exact readByte_unmapped valid unmapped

/-- The bytes of the words from an address on are the bytes from there on. -/
theorem flatMap_bytes (m : Memory) (a : Address) (n : Nat) :
    ((List.range n).map fun i => m.peekWord (a + UInt16.ofNat (2 * i))).flatMap m.order.bytes =
      (List.range (2 * n)).map fun i => m.peekByte (a + UInt16.ofNat i) := by
  induction n with
  | zero => rfl
  | succ n ih =>
    have word : m.order.bytes (m.peekWord (a + UInt16.ofNat (2 * n))) =
        [m.peekByte (a + UInt16.ofNat (2 * n)), m.peekByte (a + UInt16.ofNat (2 * n + 1))] := by
      rw [ByteOrder.bytes, peekWord, ByteOrder.split_join, UInt16.ofNat_add _ 1, ← UInt16.add_assoc]
      rfl
    rw [List.range_succ, List.map_append, List.flatMap_append, ih, Nat.mul_succ, List.range_succ,
      List.range_succ, List.map_append, List.map_append, List.append_assoc]
    exact congrArg (_ ++ ·) word

/-! ## The course of a write -/

theorem writeByte_plain (valid : a ≠ 0) (unmapped : (m.cell a).mapped = false) (v : UInt8) :
    writeByte a v m =
      if (m.cell a).readOnly then .error (.invalidReference a) m else .ok () (m.store a v) := by
  rw [writeByte, if_neg valid, device?_of_unmapped unmapped]

theorem Legible.head (h : m.Legible a (n + 1)) : a ≠ 0 ∧ (m.cell a).mapped = false := by
  have here := h 0 (Nat.zero_lt_succ n)
  rwa [add_ofNat_zero] at here

/-- Bytes that can be read stay so when one is stored. -/
theorem Legible.store (h : m.Legible a (n + 1)) (v : UInt8) : (m.store a v).Legible (a + 1) n := by
  intro i hi
  obtain ⟨valid, unmapped⟩ := h (i + 1) (by omega)
  rw [← add_one_add] at valid unmapped
  exact ⟨valid, mapped_store.trans unmapped⟩

/-- A write of bytes to plain cells is done, or it stops at the first protected one. -/
theorem writeBytes_plain (h : m.Legible a bytes.length) :
    (∃ m', writeBytes a bytes m = .ok () m') ∨
    ∃ i < bytes.length, (m.cell (a + UInt16.ofNat i)).readOnly = true ∧
      ∃ m', writeBytes a bytes m = .error (.invalidReference (a + UInt16.ofNat i)) m' := by
  induction bytes generalizing a m with
  | nil => exact .inl ⟨m, rfl⟩
  | cons b bytes ih =>
    obtain ⟨valid, unmapped⟩ := h.head
    have plain := writeByte_plain valid unmapped b
    rw [writeBytes]
    by_cases locked : (m.cell a).readOnly = true
    · rw [if_pos locked] at plain
      refine .inr ⟨0, Nat.zero_lt_succ _, ?_⟩
      rw [add_ofNat_zero]
      exact ⟨locked, m, bind_of_error plain⟩
    · rw [if_neg locked] at plain
      rw [bind_of_ok plain]
      rcases ih (h.store b) with done | ⟨i, hi, readOnly, stopped⟩
      · exact .inl done
      · rw [readOnly_store, add_one_add] at readOnly
        rw [add_one_add] at stopped
        exact .inr ⟨i + 1, Nat.succ_lt_succ hi, readOnly, stopped⟩

/-- A write of bytes takes the same course in memories that agree where it lands. -/
theorem writeBytes_congr (off : AgreesOff S m m') (h : m.Legible a bytes.length)
    (outside : ∀ i < bytes.length, ¬ S (a + UInt16.ofNat i)) :
    resultOf (writeBytes a bytes m') = resultOf (writeBytes a bytes m) ∧
      AgreesOff S (endState (writeBytes a bytes m)) (endState (writeBytes a bytes m')) := by
  -- The two writes go on together: each byte is refused on both sides or stored on both.
  induction bytes generalizing a m m' with
  | nil => exact ⟨rfl, off⟩
  | cons b bytes ih =>
    obtain ⟨valid, unmapped⟩ := h.head
    have here := outside 0 (Nat.zero_lt_succ _)
    rw [add_ofNat_zero] at here
    have same := off a here
    have plain := writeByte_plain valid unmapped b
    have plain' := writeByte_plain (m := m') valid (same ▸ unmapped) b
    rw [same] at plain'
    rw [writeBytes]
    by_cases locked : (m.cell a).readOnly = true
    · rw [if_pos locked] at plain plain'
      rw [bind_of_error plain, bind_of_error plain']
      exact ⟨rfl, off⟩
    · rw [if_neg locked] at plain plain'
      rw [bind_of_ok plain, bind_of_ok plain']
      refine ih (fun c hc => ?_) (h.store b) fun i hi => ?_
      · rw [cell_store, cell_store, off c hc]
      · rw [add_one_add]
        exact outside (i + 1) (Nat.succ_lt_succ hi)

/-- The `n` words from an address on. -/
def wordsAt (m : Memory) (a : Address) (n : Nat) : List Word :=
  (List.range n).map fun i => m.peekWord (a + UInt16.ofNat (2 * i))

@[simp]
theorem length_wordsAt (m : Memory) (a : Address) (n : Nat) : (m.wordsAt a n).length = n := by
  rw [wordsAt, List.length_map, List.length_range]

/-- A write of words to plain cells is done, and they are found, or it stops at a protected cell. -/
theorem writeBytes_words {ws : List Word} (h : m.Legible a (2 * ws.length))
    (fits : 2 * ws.length ≤ 2 ^ 16) :
    (∃ m', writeBytes a (ws.flatMap m.order.bytes) m = .ok () m' ∧ m'.wordsAt a ws.length = ws) ∨
    ∃ i < 2 * ws.length, (m.cell (a + UInt16.ofNat i)).readOnly = true ∧
      ∃ m', writeBytes a (ws.flatMap m.order.bytes) m =
        .error (.invalidReference (a + UInt16.ofNat i)) m' := by
  have size := ProcedureSpec.length_words m.order ws
  have plain : m.Legible a (ws.flatMap m.order.bytes).length := by rwa [size]
  have outcome := writeBytes_plain plain
  rw [size] at outcome
  rcases outcome with ⟨m', done⟩ | stopped
  · refine .inl ⟨m', done, ?_⟩
    rw [← writeWords_eq_writeBytes] at done
    have each := peekWord_of_writeWords done (fun i hi => (h i hi).2) fits
    apply List.ext_getElem (length_wordsAt ..)
    intro i _ hi
    simpa [wordsAt] using each i hi
  · exact .inr stopped

/-- The write that a move of `n` words comes down to. -/
def movedWords (m : Memory) (source destination : Address) (n : Nat) :
    EStateM.Result Fault Memory Unit :=
  writeBytes destination ((m.wordsAt source n).flatMap m.order.bytes) m

end Memory

namespace Machine

open Store (Turns capacity)

variable {m : Machine} {c source destination : Address} {w : Word} {ws rest : List Word} {n : UInt8}
  {operand : Bytes}

/-! ## The operand -/

/-- The bytes are an operand of one or two bytes that stands for a number. -/
inductive IsBig : Word → Bytes → Prop
  | short {b : UInt8} (small : b < 0x80) : IsBig b.toUInt16 [b]
  | long {high : UInt8} (marked : ¬ high < 0x80) (low : UInt8) :
    IsBig (((high.toUInt16 &&& 0x7F) <<< 8) ||| low.toUInt16) [high, low]

/-- The operand behind an opcode. -/
theorem IsBig.fetchBig {opcode : UInt8} (h : IsBig w operand)
    (reads : m.memory.Reads c.toNat (opcode :: operand)) :
    fetchBig (m.movedTo (c + 1)) = .ok w (m.movedTo (c + UInt16.ofNat (operand.length + 1))) := by
  have one : (1 : Word) = UInt16.ofNat 1 := rfl
  rw [one, Machine.fetchBig]
  cases h with
  | short small =>
    rw [bind_of_ok (fetchByte_of_reads reads (i := 1) rfl), if_pos small]
    rfl
  | long marked low =>
    rw [bind_of_ok (fetchByte_of_reads reads (i := 1) rfl), if_neg marked,
      bind_of_ok (fetchByte_of_reads reads (i := 2) rfl)]
    rfl

/-! ## The instructions -/

/-- MOV, once its operand is fetched. -/
def movingWords (count : Word) : Run Machine Unit := do
  let source ← pop
  let destination ← pop
  let bytes ← reading (·.readBytes source (2 * count.toNat))
  onMemory (Memory.writeBytes destination bytes)

/-- LDM, once its operand is fetched. -/
def loadingWords (n : UInt8) : Run Machine Unit := do
  let a ← pop
  let words ← reading (·.readWords a n.toNat)
  onStore (Store.pushBlock words)

/-- STM, once its operand is fetched. -/
def storingWords (n : UInt8) : Run Machine Unit := do
  let words ← onStore (Store.popBlock n.toNat)
  let a ← pop
  onMemory (Memory.writeWords a words)

theorem executeNext_of_movingWords (big : IsBig w operand)
    (reads : m.memory.Reads c.toNat (Opcode.mov.code :: operand)) :
    executeNext (m.movedTo c) =
      (liftM (movingWords w) : Exec Unit) (m.movedTo (c + UInt16.ofNat (operand.length + 1))) := by
  have opcode : m.memory.readByte (c + 0) = .ok Opcode.mov.code := readByte_of_reads reads (i := 0) rfl
  rw [UInt16.add_zero] at opcode
  rw [executeNext_of_fetched (m := m.movedTo c) .mov (f := movingWords) rfl rfl
    (by rw [nextAddress_movedTo]; exact opcode)
    (by rw [nextAddress_movedTo]; exact big.fetchBig reads)]
  rfl

theorem executeNext_of_loadingWords (reads : m.memory.Reads c.toNat [Opcode.ldm.code, n]) :
    executeNext (m.movedTo c) = (liftM (loadingWords n) : Exec Unit) (m.movedTo (c + 2)) :=
  executeNext_movedTo_of_fetching .ldm rfl rfl reads

theorem executeNext_of_storingWords (reads : m.memory.Reads c.toNat [Opcode.stm.code, n]) :
    executeNext (m.movedTo c) = (liftM (storingWords n) : Exec Unit) (m.movedTo (c + 2)) :=
  executeNext_movedTo_of_fetching .stm rfl rfl reads

/-- MOV writes the bytes of the words at the source. -/
theorem movingWords_apply {k : Nat} (count : w.toNat = k)
    (holds : m.store.Holds (source :: destination :: rest)) (legible : m.memory.Legible source (2 * k)) :
    movingWords w m = onMemory (Memory.writeBytes destination
      ((m.memory.wordsAt source k).flatMap m.memory.order.bytes)) (m.dropped 4) := by
  have h₁ := holds_dropped holds
  rw [movingWords, pop_bind holds, pop_bind h₁, dropped_dropped, count,
    bind_of_ok (reading_apply (m := m.dropped (2 + 2)) legible.readBytes), Memory.wordsAt,
    Memory.flatMap_bytes]
  rfl

/-- LDM puts the words at the source on the stack and leaves all cells that are not below them. -/
theorem endsIn_loadingWords (holds : m.store.Holds (source :: rest))
    (legible : m.memory.Legible source (2 * n.toNat)) (room : n.toNat + rest.length ≤ capacity) :
    EndsIn (loadingWords n) m fun s => s.Holds (m.memory.wordsAt source n.toNat ++ rest) ∧
      Memory.Within (Store.Below (m.store.sp + 2)) m.memory s.memory := by
  have left := holds_dropped holds
  have pushes : Turns (Store.pushBlock (m.memory.wordsAt source n.toNat)) rest (.ok ())
      (m.memory.wordsAt source n.toNat ++ rest) :=
    Turns.pushBlock (by rwa [Memory.length_wordsAt])
  obtain ⟨s, after, pushed⟩ := pushes (m.dropped 2).store left
  have works : Store.WorksBelow (m.store.sp + 2) (m.dropped 2).store s := Keeps.of_ok pushed
  refine ⟨s, ?_, after, (works left.atMost).2⟩
  rw [loadingWords, pop_bind holds,
    bind_of_ok (reading_apply (m := m.dropped 2) (legible.readWords (m := m.memory)))]
  exact onStore_of_ok (m := m.dropped 2) pushed

/-- STM writes the words on the stack. -/
theorem storingWords_apply (size : ws.length = n.toNat)
    (holds : m.store.Holds (ws ++ destination :: rest)) :
    (m.dropped (UInt16.ofNat (2 * ws.length) + 2)).store.Holds rest ∧
      storingWords n m = onMemory (Memory.writeWords destination ws)
        (m.dropped (UInt16.ofNat (2 * ws.length) + 2)) := by
  obtain ⟨popped, left⟩ := holds.popBlock
  rw [← dropped_dropped]
  refine ⟨holds_dropped (m := m.dropped _) left, ?_⟩
  have taken : onStore (Store.popBlock n.toNat) m =
      .ok ws (m.dropped (UInt16.ofNat (2 * ws.length))) := size ▸ onStore_of_ok popped
  rw [storingWords, bind_of_ok taken, pop_bind (m := m.dropped _) left]

/-- An instruction that ends with a write, as the last of the events. -/
theorem performs_onMemory {code : Bytes} {size : Word} {x : Run Machine Unit} {y : Run Memory Unit}
    {s : Store} {post : Except Stop Unit → Machine → Prop}
    (executes : ∀ c, m.memory.Reads c.toNat code →
      executeNext (m.movedTo c) = (liftM x : Exec Unit) (m.movedTo (c + size)))
    (same : ∀ c, x (m.movedTo c) = onMemory y ((m.withStore s).movedTo c))
    (ends : ∀ c, post ((resultOf (y s.memory)).mapError Stop.trap)
      ((m.withStore { s with memory := endState (y s.memory) }).movedTo c)) :
    m.Performs [.execute code] post := by
  intro c reads
  have ran := same (c + size)
  have ends := ends (c + size)
  rw [executes c reads]
  cases written : y s.memory with
  | ok u memory =>
    rw [written] at ends
    rw [raising_of_ok (ran.trans (onMemory_of_ok written))]
    exact ends
  | error e memory =>
    rw [written] at ends
    rw [raising_of_error (ran.trans (onMemory_of_error written))]
    exact ends

/-! ## Both ways -/

section

variable (holds : m.store.Holds (source :: destination :: rest))
  (legible : m.memory.Legible source (2 * n.toNat))

include holds legible

theorem performs_move (big : IsBig n.toUInt16 operand) :
    m.Performs [.execute (Opcode.mov.code :: operand)] fun r m' =>
      r = (resultOf (m.memory.movedWords source destination n.toNat)).mapError Stop.trap ∧
      m'.store = ⟨endState (m.memory.movedWords source destination n.toNat), m.store.sp + 4⟩ :=
  performs_onMemory (s := (m.dropped 4).store) (fun _ reads => executeNext_of_movingWords big reads)
    (fun c => movingWords_apply (m := m.movedTo c) (UInt8.toNat_toUInt16 n) holds legible)
    fun _ => ⟨rfl, rfl⟩

/-- The words go over the stack to where MOV writes them, if that is not on the stack. -/
theorem performs_load_store (room : n.toNat + 1 + rest.length ≤ capacity)
    (legible' : m.memory.Legible destination (2 * n.toNat))
    (off : ∀ i < 2 * n.toNat, ¬ Store.Below Store.top (destination + UInt16.ofNat i)) :
    m.Performs [.execute [Opcode.ldm.code, n], .execute [Opcode.stm.code, n]] fun r m' =>
      r = (resultOf (m.memory.movedWords source destination n.toNat)).mapError Stop.trap ∧
      m'.store.sp = m.store.sp + 4 ∧
      Memory.AgreesOff (Store.Below (m.store.sp + 4))
        (endState (m.memory.movedWords source destination n.toNat)) m'.memory := by
  let words := m.memory.wordsAt source n.toNat
  let bytes := words.flatMap m.memory.order.bytes
  have size : words.length = n.toNat := Memory.length_wordsAt ..
  have length : bytes.length = 2 * n.toNat := size ▸ ProcedureSpec.length_words ..
  have popped := holds_dropped holds
  have left := holds_dropped popped
  have up : m.store.sp + 2 ≤ m.store.sp + 4 := by
    have next : (m.store.sp + 2 + 2).toNat = (m.store.sp + 2).toNat + 2 :=
      Store.toNat_add_two popped.below_top
    rw [UInt16.add_assoc] at next
    exact UInt16.le_iff_toNat_le.2 (Nat.le_trans (Nat.le_add_right _ 2) (Nat.le_of_eq next.symm))
  refine performs_execute (fun c reads => executeNext_of_loadingWords reads)
    (Q := fun s => s.Holds (words ++ destination :: rest) ∧
      Memory.Within (Store.Below (m.store.sp + 2)) m.memory s.memory)
    (fun c => endsIn_loadingWords (m := m.movedTo c) holds legible
      (by rw [List.length_cons]; omega)) ?_
  rintro s c ⟨loaded, within⟩
  have stored (c : Address) := storingWords_apply (m := (m.withStore s).movedTo c) size loaded
  refine performs_onMemory (s := ((m.withStore s).dropped (UInt16.ofNat (2 * words.length) + 2)).store)
    (fun c reads => executeNext_of_storingWords reads) (fun c => (stored c).2) fun c => ?_
  -- both ways have the same words left on the stack
  have sp : ((m.withStore s).dropped (UInt16.ofNat (2 * words.length) + 2)).store.sp =
      m.store.sp + 2 + 2 := left.sp_eq (stored c).1
  rw [UInt16.add_assoc] at sp
  -- and they write the same bytes, though LDM has changed cells below the pointer
  have same : Memory.writeWords destination words s.memory =
      Memory.writeBytes destination bytes s.memory := by
    rw [Memory.writeWords_eq_writeBytes, within.order]
  have course := Memory.writeBytes_congr within.off (by rwa [length]) fun i hi below =>
    off i (by omega) (below.mono popped.high)
  rw [← same] at course
  exact ⟨congrArg _ course.1, sp, course.2.mono fun b below => below.mono up⟩

end

/-- MOV does what LDM and STM do: both succeed, and the words at the source stand at the destination, or
both meet the same protected cell of the destination.  The memories they leave differ only in cells of the
stack below its pointer. -/
theorem move_eq_load_store (big : IsBig n.toUInt16 operand)
    (holds : m.store.Holds (source :: destination :: rest))
    (room : n.toNat + 1 + rest.length ≤ capacity)
    (legible : m.memory.Legible source (2 * n.toNat))
    (legible' : m.memory.Legible destination (2 * n.toNat))
    (off : ∀ i < 2 * n.toNat, ¬ Store.Below Store.top (destination + UInt16.ofNat i)) :
    ∃ result s, s.sp = m.store.sp + 4 ∧
      m.Performs [.execute (Opcode.mov.code :: operand)]
        (fun r m' => r = result ∧ m'.store = s) ∧
      m.Performs [.execute [Opcode.ldm.code, n], .execute [Opcode.stm.code, n]]
        (fun r m' => r = result ∧ m'.store.sp = s.sp ∧
          Memory.AgreesOff (Store.Below s.sp) s.memory m'.memory) ∧
      ((result = .ok () ∧ s.memory.wordsAt destination n.toNat = m.memory.wordsAt source n.toNat) ∨
        ∃ i < 2 * n.toNat, (m.memory.cell (destination + UInt16.ofNat i)).readOnly = true ∧
          result = .error (.trap (.invalidReference (destination + UInt16.ofNat i)))) := by
  refine ⟨_, _, rfl, performs_move holds legible big,
    performs_load_store holds legible room legible' off, ?_⟩
  have size : (m.memory.wordsAt source n.toNat).length = n.toNat := Memory.length_wordsAt ..
  have few := n.toNat_lt
  have outcome := Memory.writeBytes_words (m := m.memory) (a := destination)
    (by rwa [size]) (by omega : 2 * (m.memory.wordsAt source n.toNat).length ≤ 2 ^ 16)
  rw [size] at outcome
  rcases outcome with ⟨m', done, found⟩ | ⟨i, hi, locked, m', stopped⟩
  · rw [Memory.movedWords, done]
    exact .inl ⟨rfl, found⟩
  · rw [Memory.movedWords, stopped]
    exact .inr ⟨i, hi, locked, rfl⟩

/-- Two words stand at 0x2000, and are to be moved up by one byte; MOV is the next instruction, LDM and STM
stand behind it. -/
def shifting : Machine :=
  primed
    (do
      Memory.writeBytes 0x1000 [Opcode.mov.code, 2, Opcode.ldm.code, 2, Opcode.stm.code, 2]
      Memory.writeBytes 0x2000 [1, 2, 3, 4]) [0x2000, 0x2001] 0x1000

theorem move_eq_load_store_shifting :
    let moved := carryOut [.execute [Opcode.mov.code, 2]] shifting
    let loaded := carryOut [.execute [Opcode.ldm.code, 2], .execute [Opcode.stm.code, 2]]
      (shifting.movedTo 0x1002)
    resultOf moved = .ok () ∧ resultOf loaded = .ok () ∧
      (endState moved).memory.wordsAt 0x2001 2 = [0x0201, 0x0403] ∧
      Memory.AgreesOff (Store.Below Store.top) (endState moved).memory (endState loaded).memory := by
  have holds : shifting.store.Holds [0x2000, 0x2001] := holds_primed _ (by decide) _
  obtain ⟨result, s, sp, moves, loads, outcome⟩ := move_eq_load_store (n := 2)
    (IsBig.short (b := 2) (by decide)) holds (by decide) (by decide +kernel) (by decide +kernel)
    (by decide)
  obtain ⟨moved, rfl⟩ := moves.run (by decide +kernel)
  have loads : (shifting.movedTo 0x1002).Performs
    [.execute [Opcode.ldm.code, 2], .execute [Opcode.stm.code, 2]] _ := loads
  obtain ⟨loaded, -, agrees⟩ := loads.run (by decide +kernel)
  rcases outcome with ⟨done, found⟩ | ⟨i, hi, locked, -⟩
  · have empty : shifting.store.sp + 4 = Store.top := by decide +kernel
    rw [sp, empty] at agrees
    exact ⟨moved.trans done, loaded.trans done, found.trans (by decide +kernel), agrees⟩
  · have free : ∀ i < 4, (shifting.memory.cell (0x2001 + UInt16.ofNat i)).readOnly = false := by
      decide +kernel
    cases (free i hi).symm.trans locked

end Machine
end PSystem
