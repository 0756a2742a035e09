import PSystem.Single
import PSystem.Memory.Basic

/-!
# The evaluation stack

Expressions are evaluated on a stack of words that lies in memory between `limit` and `top` and
grows downward.  A value of several words keeps its memory layout: the word at the lowest address
is on top, so the low half of a real lies above its high half.

`Store` is memory together with the stack pointer, the state that evaluation works on.
-/

namespace PSystem

/-- Memory and the pointer to the top word of the evaluation stack. -/
structure Store where
  memory : Memory
  sp : Address

namespace Store

/-! ## Bounds -/

/-- The stack pointer of an empty stack. -/
def top : Address := 0xFFF0

/-- No word of the stack lies below this address. -/
def limit : Address := 0xF000

/-- A store with untouched memory and an empty stack. -/
def empty : Store where
  memory := Memory.empty
  sp := top

instance : Inhabited Store := ⟨empty⟩

/-- The number of words on the stack. -/
def depth (s : Store) : Nat :=
  (Word.monus top s.sp).toNat / 2

/-- Whether the stack holds no word. -/
def isEmpty (s : Store) : Bool :=
  top ≤ s.sp

/-- At most `n` words from `a` up to the bottom of the stack. -/
def wordsFrom (m : Memory) (a : Address) : Nat → List Word
  | 0 => []
  | n + 1 => if a < top then m.peekWord a :: wordsFrom m (a + 2) n else []

/-- At most `n` words of the stack, the top one first. -/
def words (s : Store) (n : Nat) : List Word :=
  wordsFrom s.memory s.sp n

/-- All words of the stack, the top one first; no stack pointer leaves room for more. -/
def allWords (s : Store) : List Word :=
  s.words 0x8000

/-! ## Memory access -/

/-- Runs a computation on the memory. -/
def onMemory {α : Type} (x : Run Memory α) : Run Store α := fun s =>
  match x s.memory with
  | .ok a m => .ok a { s with memory := m }
  | .error e m => .error e { s with memory := m }

/-- Runs a read of the memory. -/
def reading {α : Type} (f : Memory → Except Fault α) : Run Store α := fun s =>
  match f s.memory with
  | .ok a => .ok a s
  | .error e => .error e s

/-! ## Words -/

/-- Pushes a word. -/
def push (w : Word) : Run Store Unit := fun s =>
  if s.sp < limit + 2 then .error .stackOverflow s
  else onMemory (Memory.writeWord (s.sp - 2) w) { s with sp := s.sp - 2 }

/-- Pops the top word. -/
def pop : Run Store Word := fun s =>
  if top ≤ s.sp then .error (.system .stackUnderflow) s
  else
    match s.memory.readWord s.sp with
    | .ok w => .ok w { s with sp := s.sp + 2 }
    | .error e => .error e s

/-- The word `depth` words below the top one. -/
def peek (depth : Word) : Run Store Word := fun s =>
  let a := s.sp + depth * 2
  if top ≤ a then .error (.system .stackUnderflow) s
  else
    match s.memory.readWord a with
    | .ok w => .ok w s
    | .error e => .error e s

/-- Drops the given number of bytes from the top of the stack. -/
def release (bytes : Word) : Run Store Unit :=
  modify fun s => { s with sp := s.sp + bytes }

/-- Moves the stack pointer. -/
def setPointer (sp : Address) : Run Store Unit :=
  modify fun s => { s with sp := sp }

/-! ## Typed values -/

/-- Pushes an integer in two's complement. -/
def pushInt (v : Int) : Run Store Unit :=
  push (Word.ofSigned v)

/-- Pops an integer in two's complement. -/
def popInt : Run Store Int := do
  return Word.signed (← pop)

/-- Pushes a truth value. -/
def pushBool (b : Bool) : Run Store Unit :=
  push (Word.ofTruth b)

/-- Pops a truth value. -/
def popBool : Run Store Bool := do
  return Word.truth (← pop)

/-- Pushes a real, so that its low half is on top. -/
def pushReal (r : Single) : Run Store Unit := do
  push r.high
  push r.low

/-- Pops a real. -/
def popReal : Run Store Single := do
  let low ← pop
  let high ← pop
  return Single.ofWords low high

/-! ## Blocks -/

/-- Pushes the words of a list from its head on. -/
def pushAll : List Word → Run Store Unit
  | [] => pure ()
  | w :: ws => do
    push w
    pushAll ws

/-- Pushes words in memory order: the head of the list ends on top. -/
def pushBlock (ws : List Word) : Run Store Unit :=
  pushAll ws.reverse

/-- Pops `n` words in memory order: the top word is the head of the list. -/
def popBlock (n : Nat) : Run Store (List Word) :=
  (List.range n).mapM fun _ => pop

end Store
end PSystem
