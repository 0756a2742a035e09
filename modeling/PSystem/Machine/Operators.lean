import PSystem.Machine.Fetch
import PSystem.WordSet

/-!
# Arithmetic, comparisons and sets

Operators take their right operand from the top of the stack.  Integer arithmetic is modulo
`2 ^ 16` with quotients rounded toward zero; typed comparisons find the kind of their operands in
the code.
-/

namespace PSystem

/-! ## Relations -/

/-- The six comparisons. -/
inductive Relation where
  | eq | ne | lt | le | gt | ge
  deriving DecidableEq, Repr

namespace Relation

/-- Whether a relation holds between operands in the given order. -/
def holds : Relation → Ordering → Bool
  | eq, o => o == .eq
  | ne, o => o != .eq
  | lt, o => o == .lt
  | le, o => o != .gt
  | gt, o => o == .gt
  | ge, o => o != .lt

/-- Whether a relation holds between two sets, as inclusion. -/
def holdsSets : Relation → WordSet → WordSet → Bool
  | eq, a, b => a.equals b
  | ne, a, b => !a.equals b
  | le, a, b => a.isSubset b
  | ge, a, b => b.isSubset a
  | lt, a, b => a.isProperSubset b
  | gt, a, b => b.isProperSubset a

/-- The mnemonic of the typed comparison. -/
def mnemonic : Relation → String
  | eq => "EQU"
  | ne => "NEQ"
  | lt => "LES"
  | le => "LEQ"
  | gt => "GRT"
  | ge => "GEQ"

end Relation

namespace Machine

/-! ## Integers -/

/-- Replaces the top word by a function of it. -/
def unaryWord (f : Word → Word) : Run Machine Unit := do
  let a ← pop
  push (f a)

/-- Replaces the two top words by a function of them. -/
def binaryWord (f : Word → Word → Word) : Run Machine Unit := do
  let b ← pop
  let a ← pop
  push (f a b)

/-- Replaces the two top integers by their quotient or remainder. -/
def divideInt (f : Int → Int → Int) : Run Machine Unit := do
  let b ← popInt
  let a ← popInt
  if b = 0 then throw .divideByZero
  pushInt (f a b)

/-- Compares the two top integers. -/
def compareInt (r : Relation) : Run Machine Unit := do
  let b ← popInt
  let a ← popInt
  pushBool (r.holds (compare a b))

/-- Checks the integer below two bounds; it stays on the stack. -/
def checkRange : Run Machine Unit := do
  let upper ← popInt
  let lower ← popInt
  let value := Word.signed (← onStore (Store.peek 0))
  if value < lower ∨ upper < value then throw (.invalidIndex value)

/-! ## Reals -/

/-- Pops a real. -/
def popReal : Run Machine Single :=
  onStore Store.popReal

/-- Pushes a real. -/
def pushReal (r : Single) : Run Machine Unit :=
  onStore (Store.pushReal r)

/-- Replaces the top real by a function of it. -/
def unaryReal (f : Single → Single) : Run Machine Unit := do
  let a ← popReal
  pushReal (f a)

/-- Replaces the two top reals by a function of them. -/
def binaryReal (f : Single → Single → Single) : Run Machine Unit := do
  let b ← popReal
  let a ← popReal
  pushReal (f a b)

/-- Replaces the two top reals by their quotient. -/
def divideReal : Run Machine Unit := do
  let b ← popReal
  let a ← popReal
  if b.isZero then throw .divideByZero
  pushReal (a.div b)

/-- Makes the top integer a real. -/
def floatTop : Run Machine Unit := do
  let a ← popInt
  pushReal (Single.ofInt a)

/-- Makes the integer below the top real a real. -/
def floatBelow : Run Machine Unit := do
  let top ← popReal
  let a ← popInt
  pushReal (Single.ofInt a)
  pushReal top

/-! ## Sets -/

/-- Pops a set. -/
def popSet : Run Machine WordSet :=
  onStore WordSet.pop

/-- Pushes a set. -/
def pushSet (s : WordSet) : Run Machine Unit :=
  onStore s.push

/-- Replaces a set by exactly as many words as the code says, without a count. -/
def adjustSet : Run Machine Unit := do
  let n ← fetchByte
  let s ← popSet
  onStore (Store.pushBlock (s.adjusted n.toNat).words)

/-- Makes a set of a range. -/
def rangeSet : Run Machine Unit := do
  let high ← popInt
  let low ← popInt
  pushSet (← orFault (WordSet.range low high))

/-- Makes a set of one element. -/
def singletonSet : Run Machine Unit := do
  let e ← popInt
  pushSet (← orFault (WordSet.singleton e))

/-- Tests membership of the integer below a set. -/
def testMember : Run Machine Unit := do
  let s ← popSet
  let e ← popInt
  pushBool (s.contains e)

/-- Replaces the two top sets by a function of them. -/
def binarySet (f : WordSet → WordSet → WordSet) : Run Machine Unit := do
  let b ← popSet
  let a ← popSet
  pushSet (f a b)

/-! ## Typed comparisons -/

/-- Compares two byte strings at addresses, of lengths that `read` finds. -/
def compareAt (r : Relation) (read : Memory → Address → Except Fault Bytes) :
    Run Machine Bool := do
  let b ← pop
  let a ← pop
  let first ← reading (read · a)
  let second ← reading (read · b)
  return r.holds (compare first second)

/-- Compares two operands of the kind that the code says. -/
def compareTyped (r : Relation) : Run Machine Unit := do
  let kind ← fetchByte
  let result ←
    match kind.toNat with
    | 2 => do
      let b ← popReal
      let a ← popReal
      pure (r.holds (a.compare b))
    | 4 => compareAt r Memory.readString
    | 6 => do
      let b ← pop
      let a ← pop
      pure (r.holds (compare (a &&& 1) (b &&& 1)))
    | 8 => do
      let b ← popSet
      let a ← popSet
      pure (r.holdsSets a b)
    | 10 => do
      let size ← fetchBig
      compareAt r (·.readBytes · size.toNat)
    | 12 =>
      if r = .eq ∨ r = .ne then do
        let size ← fetchBig
        compareAt r (·.readBytes · (2 * size.toNat))
      else throw (.unimplemented (.comparison r.mnemonic kind))
    | _ => throw (.unimplemented (.comparison r.mnemonic kind))
  pushBool result

end Machine
end PSystem
