import PSystem.Proofs.StackWords

/-!
# The evaluation stack as a bounded list

`WordStack` carries out the operations of the evaluation stack on a list of words, word by word;
the list has room for `Store.capacity` words.  `Store.Refines x y` says that `x` does to the words
on the stack what `y` does to the list.  It passes through sequencing, so that only operations on
single words are compared with memory, and those on values of several words follow from them.

`StackEvent.runAll` carries out operations and, between them, writes to memory; operations that
fail do not end it.  While the writes stay off the words that are on the stack at their time, the
answers are those of the list (`stack_refines_list`).
-/

namespace PSystem

variable {α β σ : Type}

/-! ## Words in a list -/

namespace WordStack

/-- Pushes a word while there is room. -/
def push (w : Word) : Run (List Word) Unit := fun ws =>
  if ws.length < Store.capacity then .ok () (w :: ws) else .error .stackOverflow ws

/-- Pops the top word. -/
def pop : Run (List Word) Word
  | [] => .error (.system .stackUnderflow) []
  | w :: ws => .ok w ws

/-- The word `depth` words below the top one. -/
def peek (depth : Nat) : Run (List Word) Word := fun ws =>
  match ws[depth]? with
  | some w => .ok w ws
  | none => .error (.system .stackUnderflow) ws

/-- Pushes words from the end of their list on, so that the first ends on top. -/
def pushBlock : List Word → Run (List Word) Unit
  | [] => pure ()
  | u :: us => do
    pushBlock us
    push u

/-- Pops `n` words, the top one first. -/
def popBlock : Nat → Run (List Word) (List Word)
  | 0 => pure []
  | n + 1 => do
    let u ← pop
    let us ← popBlock n
    return u :: us

/-- Pops an integer in two's complement. -/
def popInt : Run (List Word) Int := do
  return Word.signed (← pop)

/-- Pops a truth value. -/
def popBool : Run (List Word) Bool := do
  return Word.truth (← pop)

/-- Pushes the two halves of a real, the low one last. -/
def pushReal (r : Single) : Run (List Word) Unit := do
  push r.high
  push r.low

/-- Pops the two halves of a real, the low one first. -/
def popReal : Run (List Word) Single := do
  let low ← pop
  let high ← pop
  return Single.ofWords low high

variable {us ws : List Word}

/-- A block that has room is put before the words that are there. -/
theorem pushBlock_of_room (room : us.length + ws.length ≤ Store.capacity) :
    pushBlock us ws = .ok () (us ++ ws) := by
  induction us with
  | nil => rfl
  | cons u us ih =>
    rw [List.length_cons] at room
    rw [pushBlock, bind_of_ok (ih (by omega)), push, if_pos (by rw [List.length_append]; omega),
      List.cons_append]

/-- As many words as there are in a block are popped as that block. -/
theorem popBlock_append (us ws : List Word) : popBlock us.length (us ++ ws) = .ok us ws := by
  induction us with
  | nil => rfl
  | cons u us ih =>
    have top : pop (u :: us ++ ws) = .ok u (us ++ ws) := rfl
    rw [List.length_cons, popBlock, bind_of_ok top, bind_of_ok ih]
    rfl

end WordStack

/-! ## Refinement -/

namespace Store

variable {s : Store} {ws : List Word}

/-- `x` does to the words on the stack what `y` does to a list of words. -/
def Refines (x : Run Store α) (y : Run (List Word) α) : Prop :=
  ∀ ws, Turns x ws (resultOf (y ws)) (endState (y ws))

namespace Refines

variable {x : Run Store α} {y : Run (List Word) α} {f : α → Run Store β}
  {g : α → Run (List Word) β}

/-- From words that agree, the results and the words afterwards agree. -/
theorem step (refines : Refines x y) (h : s.Holds ws) :
    resultOf (x s) = resultOf (y ws) ∧ (endState (x s)).Holds (endState (y ws)) := by
  obtain ⟨s', after, ran⟩ := refines ws s h
  rw [ran]
  cases resultOf (y ws) with
  | ok a => exact ⟨rfl, after⟩
  | error e => exact ⟨rfl, after⟩

theorem pure (a : α) : Refines (Pure.pure a) (Pure.pure a) :=
  fun ws => Turns.pure a ws

theorem bind (first : Refines x y) (next : ∀ a, Refines (f a) (g a)) :
    Refines (x >>= f) (y >>= g) := by
  intro ws
  have here := first ws
  cases ran : y ws with
  | ok a us =>
    rw [ran] at here
    rw [bind_of_ok ran]
    exact here.bind (next a us)
  | error e us =>
    rw [ran] at here
    rw [bind_of_error ran]
    exact here.bind_error

theorem push (w : Word) : Refines (Store.push w) (WordStack.push w) := by
  intro ws
  unfold WordStack.push
  by_cases room : ws.length < capacity
  · rw [if_pos room]
    exact Turns.push w room
  · rw [if_neg room]
    intro s h
    have full : ws.length = capacity := Nat.le_antisymm h.length_le (Nat.not_lt.1 room)
    exact Turns.push_full w full s h

theorem pop : Refines Store.pop WordStack.pop := by
  intro ws
  cases ws with
  | nil => exact Turns.pop_empty
  | cons w ws => exact Turns.pop w ws

theorem peek {depth : Nat} (near : depth ≤ 7) :
    Refines (Store.peek (UInt16.ofNat depth)) (WordStack.peek depth) := by
  intro ws
  unfold WordStack.peek
  cases found : ws[depth]? with
  | some w => exact Turns.peek found
  | none => exact Turns.peek_beyond (List.getElem?_eq_none_iff.1 found) near

theorem pushBlock (us : List Word) : Refines (Store.pushBlock us) (WordStack.pushBlock us) := by
  induction us with
  | nil => exact pure ()
  | cons u us ih =>
    rw [pushBlock_cons, WordStack.pushBlock]
    exact bind ih fun _ => push u

theorem popBlock (n : Nat) : Refines (Store.popBlock n) (WordStack.popBlock n) := by
  -- the numbers of the words play no role
  have each (is : List Nat) :
      Refines (is.mapM fun _ => Store.pop) (WordStack.popBlock is.length) := by
    induction is with
    | nil => exact pure []
    | cons i is ih =>
      rw [List.mapM_cons, List.length_cons, WordStack.popBlock]
      exact bind pop fun u => bind ih fun us => pure (u :: us)
  have all := each (List.range n)
  rwa [List.length_range] at all

theorem popInt : Refines Store.popInt WordStack.popInt :=
  bind pop fun w => pure (Word.signed w)

theorem popBool : Refines Store.popBool WordStack.popBool :=
  bind pop fun w => pure (Word.truth w)

theorem pushReal (r : Single) : Refines (Store.pushReal r) (WordStack.pushReal r) :=
  bind (push r.high) fun _ => push r.low

theorem popReal : Refines Store.popReal WordStack.popReal :=
  bind pop fun low => bind pop fun high => pure (Single.ofWords low high)

end Refines

/-- A block is pushed as a whole where there is room. -/
theorem Turns.pushBlock {us ws : List Word} (room : us.length + ws.length ≤ capacity) :
    Turns (Store.pushBlock us) ws (.ok ()) (us ++ ws) := by
  have pushed := Refines.pushBlock us ws
  rwa [WordStack.pushBlock_of_room room] at pushed

/-- A block is popped as it was pushed. -/
theorem Turns.popBlock (us ws : List Word) :
    Turns (Store.popBlock us.length) (us ++ ws) (.ok us) ws := by
  have popped := Refines.popBlock us.length (us ++ ws)
  rwa [WordStack.popBlock_append] at popped

end Store

/-! ## Operations -/

/-- An operation on the evaluation stack. -/
inductive StackOperation where
  | push (w : Word)
  | pop
  | peek (depth : Fin 8)
  | pushBlock (ws : List Word)
  | popBlock (n : Nat)
  | pushReal (r : Single)
  | popReal
  | pushBool (b : Bool)
  | popBool
  | pushInt (v : Int)
  | popInt
  deriving Repr

/-- What an operation returns. -/
inductive StackAnswer where
  | done
  | word (w : Word)
  | block (ws : List Word)
  | real (r : Single)
  | truth (b : Bool)
  | integer (v : Int)
  deriving DecidableEq, Repr

namespace StackOperation

/-- The operation on the evaluation stack. -/
def onStore : StackOperation → Run Store StackAnswer
  | push w => do
    Store.push w
    return .done
  | pop => do return .word (← Store.pop)
  | peek depth => do return .word (← Store.peek (UInt16.ofNat depth))
  | pushBlock ws => do
    Store.pushBlock ws
    return .done
  | popBlock n => do return .block (← Store.popBlock n)
  | pushReal r => do
    Store.pushReal r
    return .done
  | popReal => do return .real (← Store.popReal)
  | pushBool b => do
    Store.pushBool b
    return .done
  | popBool => do return .truth (← Store.popBool)
  | pushInt v => do
    Store.pushInt v
    return .done
  | popInt => do return .integer (← Store.popInt)

/-- The operation on a list of words. -/
def onList : StackOperation → Run (List Word) StackAnswer
  | push w => do
    WordStack.push w
    return .done
  | pop => do return .word (← WordStack.pop)
  | peek depth => do return .word (← WordStack.peek depth)
  | pushBlock ws => do
    WordStack.pushBlock ws
    return .done
  | popBlock n => do return .block (← WordStack.popBlock n)
  | pushReal r => do
    WordStack.pushReal r
    return .done
  | popReal => do return .real (← WordStack.popReal)
  | pushBool b => do
    WordStack.push (Word.ofTruth b)
    return .done
  | popBool => do return .truth (← WordStack.popBool)
  | pushInt v => do
    WordStack.push (Word.ofSigned v)
    return .done
  | popInt => do return .integer (← WordStack.popInt)

end StackOperation

namespace Store.Refines

/-- Every operation on the evaluation stack does what it does on a list. -/
theorem operation (op : StackOperation) : Refines op.onStore op.onList := by
  cases op with
  | push w => exact bind (push w) fun _ => pure _
  | pop => exact bind pop fun _ => pure _
  | peek depth => exact bind (peek (Nat.le_of_lt_succ depth.isLt)) fun _ => pure _
  | pushBlock ws => exact bind (pushBlock ws) fun _ => pure _
  | popBlock n => exact bind (popBlock n) fun _ => pure _
  | pushReal r => exact bind (pushReal r) fun _ => pure _
  | popReal => exact bind popReal fun _ => pure _
  | pushBool b => exact bind (push (Word.ofTruth b)) fun _ => pure _
  | popBool => exact bind popBool fun _ => pure _
  | pushInt v => exact bind (push (Word.ofSigned v)) fun _ => pure _
  | popInt => exact bind popInt fun _ => pure _

end Store.Refines

/-! ## Writes between operations -/

/-- A write to memory. -/
inductive MemoryWrite where
  | byte (start : Address) (v : UInt8)
  | word (start : Address) (w : Word)
  | bytes (start : Address) (bs : Bytes)
  | words (start : Address) (ws : List Word)
  deriving Repr

namespace MemoryWrite

/-- The write itself. -/
def run : MemoryWrite → Run Memory Unit
  | byte start v => Memory.writeByte start v
  | word start w => Memory.writeWord start w
  | bytes start bs => Memory.writeBytes start bs
  | words start ws => Memory.writeWords start ws

/-- The store after the write, whether it succeeds or not. -/
def onStore (write : MemoryWrite) (s : Store) : Store :=
  { s with memory := endState (write.run s.memory) }

/-- The first address written to. -/
def start : MemoryWrite → Address
  | byte start _ | word start _ | bytes start _ | words start _ => start

/-- The number of bytes written. -/
def size : MemoryWrite → Nat
  | byte _ _ => 1
  | word _ _ => 2
  | bytes _ bs => bs.length
  | words _ ws => 2 * ws.length

/-- The write does not reach the words on the stack. -/
def OffStack (write : MemoryWrite) (s : Store) : Prop :=
  ∀ i < write.size, ¬ s.Live (write.start + UInt16.ofNat i)

variable {write : MemoryWrite} {s : Store} {ws : List Word}

instance : Decidable (write.OffStack s) := by
  unfold OffStack Store.Live
  infer_instance

instance keeps_run (write : MemoryWrite) : Keeps Memory.Guarded write.run := by
  cases write <;> (unfold run; infer_instance)

/-- A write changes the cells that it reaches. -/
theorem keeps_run_off {S : Address → Prop}
    (h : ∀ i < write.size, S (write.start + UInt16.ofNat i)) :
    Keeps (Memory.AgreesOff S) write.run := by
  cases write with
  | byte a v =>
    have first : S a := by simpa [start] using h 0 Nat.one_pos
    exact Memory.keeps_writeByte_off first
  | word a w =>
    have first : S a := by simpa [start] using h 0 Nat.two_pos
    exact Memory.keeps_writeWord_off first (h 1 Nat.one_lt_two)
  | bytes a bs => exact Memory.keeps_writeBytes_off h
  | words a ws => exact Memory.keeps_writeWords_off h

/-- A write off the stack leaves its words. -/
theorem holds_onStore (h : s.Holds ws) (off : write.OffStack s) : (write.onStore s).Holds ws :=
  have kept := keeps_run_off (S := fun a => ¬ s.Live a) off
  h.elsewhere ((keeps_run write).related s.memory) (kept.related s.memory)

end MemoryWrite

/-! ## Sequences -/

/-- An operation on the stack, or a write to memory from elsewhere. -/
inductive StackEvent where
  | operation (op : StackOperation)
  | write (w : MemoryWrite)
  deriving Repr

namespace StackEvent

/-- The answers to the operations among the events, in order, and the state after the last event.
An operation that fails leaves what it did so far, and the next one is carried out on that. -/
def runAll (operate : StackOperation → Run σ StackAnswer) (write : MemoryWrite → σ → σ) :
    List StackEvent → σ → List (Except Fault StackAnswer) × σ
  | [], s => ([], s)
  | .operation op :: rest, s =>
    let (answers, last) := runAll operate write rest (endState (operate op s))
    (resultOf (operate op s) :: answers, last)
  | .write w :: rest, s => runAll operate write rest (write w s)

/-- The events on the evaluation stack. -/
def onStore : List StackEvent → Store → List (Except Fault StackAnswer) × Store :=
  runAll StackOperation.onStore MemoryWrite.onStore

/-- The events on a list of words, which knows no memory. -/
def onList : List StackEvent → List Word → List (Except Fault StackAnswer) × List Word :=
  runAll StackOperation.onList fun _ ws => ws

/-- No write among the events reaches a word that is on the stack when its turn comes. -/
def OffStack : List StackEvent → Store → Prop
  | [], _ => True
  | .operation op :: rest, s => OffStack rest (endState (op.onStore s))
  | .write w :: rest, s => w.OffStack s ∧ OffStack rest (w.onStore s)

/-- Whether the writes stay off the stack is found by carrying out the events. -/
instance decidableOffStack : (events : List StackEvent) → (s : Store) → Decidable (OffStack events s)
  | [], _ => inferInstanceAs (Decidable True)
  | .operation op :: rest, s => decidableOffStack rest (endState (op.onStore s))
  | .write w :: rest, s =>
    have := decidableOffStack rest (w.onStore s)
    inferInstanceAs (Decidable (w.OffStack s ∧ OffStack rest (w.onStore s)))

variable {s : Store} {ws : List Word}

/-- From words that agree, events give the same answers and leave words that agree. -/
theorem runAll_of_holds (events : List StackEvent) (h : s.Holds ws) (off : OffStack events s) :
    (onStore events s).1 = (onList events ws).1 ∧
      (onStore events s).2.Holds (onList events ws).2 := by
  induction events generalizing s ws with
  | nil => exact ⟨rfl, h⟩
  | cons event rest ih =>
    cases event with
    | operation op =>
      obtain ⟨same, after⟩ := (Store.Refines.operation op).step h
      obtain ⟨answers, last⟩ := ih after off
      exact ⟨congrArg₂ List.cons same answers, last⟩
    | write w => exact ih (MemoryWrite.holds_onStore h off.1) off.2

end StackEvent

namespace Store

variable {s : Store} {ws : List Word}

/-! ## Both ends of the stack -/

/-- A push fails on a full stack, and only there. -/
theorem Holds.push_result (h : s.Holds ws) (w : Word) :
    resultOf (Store.push w s) = if ws.length = capacity then .error .stackOverflow else .ok () := by
  have most := h.length_le
  rw [((Refines.push w).step h).1, WordStack.push]
  by_cases full : ws.length = capacity
  · rw [if_neg (by omega), if_pos full]
    rfl
  · rw [if_pos (by omega), if_neg full]
    rfl

/-- A pop fails on an empty stack, and only there. -/
theorem Holds.pop_result (h : s.Holds ws) :
    resultOf (Store.pop s) = (ws.head?).elim (.error (.system .stackUnderflow)) .ok := by
  rw [(Refines.pop.step h).1]
  cases ws <;> rfl

/-- A peek fails past the words, and only there. -/
theorem Holds.peek_result (h : s.Holds ws) (depth : Fin 8) :
    resultOf (Store.peek (UInt16.ofNat depth) s) =
      (ws[depth.val]?).elim (.error (.system .stackUnderflow)) .ok := by
  rw [((Refines.peek (Nat.le_of_lt_succ depth.isLt)).step h).1, WordStack.peek]
  cases ws[depth.val]? <;> rfl

/-! ## The stack is a list -/

/-- From an empty stack on memory that can be written, operations give the answers that they give
on a list with room for 2040 words, with any writes between them that stay off the words on the
stack.  The pointer, the words and both ends of the stack are those of the list. -/
theorem stack_refines_list (m : Memory)
    (open_ : ∀ a, limit ≤ a → a < top → (m.cell a).readOnly = false ∧ (m.cell a).mapped = false)
    (events : List StackEvent) (off : StackEvent.OffStack events ⟨m, top⟩) :
    ∃ answers s ws,
      StackEvent.onStore events ⟨m, top⟩ = (answers, s) ∧
      StackEvent.onList events [] = (answers, ws) ∧
      (ws.length ≤ 2040 ∧ s.sp.toNat = 0xFFF0 - 2 * ws.length ∧ ∀ n, s.words n = ws.take n) ∧
      (∀ w, resultOf (Store.push w s) =
        if ws.length = 2040 then .error .stackOverflow else .ok ()) ∧
      resultOf (Store.pop s) = (ws.head?).elim (.error (.system .stackUnderflow)) .ok ∧
      ∀ depth : Fin 8, resultOf (Store.peek (UInt16.ofNat depth) s) =
        (ws[depth.val]?).elim (.error (.system .stackUnderflow)) .ok := by
  obtain ⟨same, h⟩ := StackEvent.runAll_of_holds events (holds_top open_) off
  have place : _ = _ - _ := Nat.eq_sub_of_add_eq h.pointer
  exact ⟨_, _, _, rfl, Prod.ext same.symm rfl, ⟨h.length_le, place, h.take⟩, h.push_result,
    h.pop_result, h.peek_result⟩

/-- Three words with writes below them, and a block of four that is not there. -/
def shortBlock : List StackEvent :=
  [.operation (.pushBlock [1, 2, 3]), .write (.word 0xF000 7), .operation (.peek 2),
    .write (.bytes 0xFFE8 [4, 5]), .operation (.popBlock 4), .operation (.pushReal ⟨0x3FC00000⟩)]

theorem stack_refines_list_shortBlock :
    StackEvent.OffStack shortBlock ⟨Memory.empty.withOrder .big, top⟩ ∧
      ∃ s, StackEvent.onStore shortBlock ⟨Memory.empty.withOrder .big, top⟩ =
          ([.ok .done, .ok (.word 3), .error (.system .stackUnderflow), .ok .done], s) ∧
        s.sp = 0xFFEC ∧ s.words 4 = [0, 0x3FC0] := by
  have blank (a : Address) : (Memory.empty.withOrder .big).cell a = ({} : Cell) :=
    Cells.get_replicate ({} : Cell) 16 a.toNat
  have off : StackEvent.OffStack shortBlock ⟨Memory.empty.withOrder .big, top⟩ := by decide +kernel
  obtain ⟨answers, s, ws, onStore, onList, ⟨-, pointer, words⟩, -⟩ :=
    stack_refines_list (Memory.empty.withOrder .big)
      (fun a _ _ => ⟨by rw [blank], by rw [blank]⟩) shortBlock off
  -- the list is computed, the store follows
  have computed : StackEvent.onList shortBlock [] =
      ([.ok .done, .ok (.word 3), .error (.system .stackUnderflow), .ok .done], [0, 0x3FC0]) := rfl
  rw [onList, Prod.mk.injEq] at computed
  obtain ⟨rfl, rfl⟩ := computed
  exact ⟨off, s, onStore, UInt16.toNat_inj.1 pointer, words 4⟩

end Store
end PSystem
