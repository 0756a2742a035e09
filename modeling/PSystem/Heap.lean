import PSystem.Fault

/-!
# The heap

The heap grows upward from `Heap.start` toward the program stack and only moves its pointer:
NEW advances it, MARK records it and RELEASE puts a recorded value back.
-/

namespace PSystem

/-- The heap pointer: the first address above the allocated blocks. -/
structure Heap where
  np : Address
  deriving DecidableEq, Repr

namespace Heap

/-- The lowest address of the heap. -/
def start : Address := 0x0100

/-- The heap without blocks. -/
def empty : Heap := ⟨start⟩

instance : Inhabited Heap := ⟨empty⟩

/-- Takes a block of `words` words that ends at or below `psp`, and gives its address. -/
def allocate (h : Heap) (words : Word) (psp : Address) : Except Fault (Address × Heap) :=
  let np := h.np.toNat + 2 * words.toNat
  if psp.toNat < np then .error .stackOverflow
  else .ok (h.np, ⟨UInt16.ofNat np⟩)

/-- Puts the pointer back to a recorded value. -/
def release (mark : Address) : Except Fault Heap :=
  if mark < start then .error (.invalidReference mark) else .ok ⟨mark⟩

/-- The words free below `psp`. -/
def available (h : Heap) (psp : Address) : Word :=
  Word.monus psp h.np / 2

/-- Whether the heap has crossed the program stack. -/
def collides (h : Heap) (psp : Address) : Bool :=
  psp < h.np

end Heap
end PSystem
