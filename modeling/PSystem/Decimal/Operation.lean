import PSystem.EvalStack
import PSystem.Decimal.Basic

/-!
# Long integers on the evaluation stack

On the stack a long integer is its size in words, a sign word, and four digits to a word, the
most significant word on top.  The size counts the sign word and the digit words.  `Operation`
lists what the long integer routine can be asked for; the operation code lies on top of the
operands.
-/

namespace PSystem
namespace Decimal

/-! ## Stack format -/

/-- The largest number of digit words. -/
def maxWords : Nat := maxDigits / 4

/-- The number of digit words that the digits need; zero takes one. -/
def digitWords (a : Decimal) : Nat :=
  max 1 ((a.digits.length + 3) / 4)

/-- Four digits, least significant first, in one word. -/
def packWord (digits : Magnitude) : Word :=
  digits.foldr (fun d w => (w <<< 4) ||| UInt16.ofNat d) 0

/-- Digits in `n` words, least significant first. -/
def packWords : Nat → Magnitude → List Word
  | 0, _ => []
  | n + 1, digits => packWord (digits.take 4) :: packWords n (digits.drop 4)

/-- The four digits of a word, least significant first. -/
def unpackWord (w : Word) : Magnitude :=
  ([0, 4, 8, 12] : List Word).map fun shift => ((w >>> shift) &&& 0xF).toNat

/-- Pops `n` digit words onto less significant places than those of `above`. -/
def popDigits : Nat → Magnitude → Run Store Magnitude
  | 0, above => pure above
  | n + 1, above => do
    let w ← Store.pop
    let digits := unpackWord w
    if digits.all (· ≤ 9) then popDigits n (digits ++ above)
    else throw (.system (.invalidDigits w))

/-- A value or fault as a step of a computation. -/
def orFault {α : Type} : Except Fault α → Run Store α
  | .ok a => pure a
  | .error e => throw e

/-- Pops a long integer. -/
def pop : Run Store Decimal := do
  let size ← Store.pop
  if size.toNat < 1 ∨ maxWords + 1 < size.toNat then throw (.invalidIndex (Word.signed size))
  let sign ← Store.pop
  let digits ← popDigits (size.toNat - 1) []
  orFault (ofParts (sign != 0) digits)

/-- Pushes a long integer in exactly `words` digit words. -/
def pushSized (a : Decimal) (words : Nat) : Run Store Unit := do
  if words < a.digitWords ∨ maxWords < words then throw .integerOverflow
  Store.pushAll (packWords words a.digits)
  Store.push (Word.ofTruth a.negative)
  Store.push (UInt16.ofNat words + 1)

/-- Pushes a long integer in as few digit words as possible. -/
def push (a : Decimal) : Run Store Unit :=
  a.pushSized a.digitWords

/-! ## Operations -/

/-- What the long integer routine can be asked for. -/
inductive Operation where
  | adjust
  | add
  | subtract
  | negate
  | multiply
  | divide
  | toText
  | compare
  | ofInt
  | toInt
  deriving DecidableEq, Repr

namespace Operation

/-- The operation behind a code. -/
def ofCode? (code : Word) : Option Operation :=
  match code.toNat with
  | 0 => some adjust
  | 2 => some add
  | 4 => some subtract
  | 6 => some negate
  | 8 => some multiply
  | 10 => some divide
  | 12 => some toText
  | 14 => some compare
  | 16 => some ofInt
  | 18 => some toInt
  | _ => none

end Operation

/-- Pops two operands, the second one from the top. -/
def binary (f : Decimal → Decimal → Except Fault Decimal) : Run Store Unit := do
  let b ← pop
  let a ← pop
  push (← orFault (f a b))

/-- The relation behind a comparison code.  Equality is that of sign and digits. -/
def relation? (code : Word) : Option (Decimal → Decimal → Bool) :=
  match code.toNat with
  | 0 => some fun a b => (a.compare b).isLT
  | 1 => some fun a b => (a.compare b).isLE
  | 2 => some fun a b => (a.compare b).isGT
  | 3 => some fun a b => (a.compare b).isGE
  | 4 => some fun a b => a == b
  | 5 => some fun a b => a != b
  | _ => none

/-- Carries out one operation on the operands below its code. -/
def perform : Operation → Run Store Unit
  | .adjust => do
    let words ← Store.pop
    if words.toNat < 1 ∨ maxWords < words.toNat then
      throw (.invalidIndex (Word.signed words))
    let a ← pop
    a.pushSized words.toNat
  | .add => binary add
  | .subtract => binary subtract
  | .multiply => binary multiply
  | .divide => binary divide
  | .negate => do
    let a ← pop
    push a.negate
  | .toText => do
    let address ← Store.pop
    let a ← pop
    let bytes := a.text.toUTF8.toList
    Store.onMemory do
      Memory.writeByte address (UInt8.ofNat bytes.length)
      Memory.writeBytes (address + 1) bytes
  | .compare => do
    let code ← Store.pop
    let b ← pop
    let a ← pop
    match relation? code with
    | some holds => Store.pushBool (holds a b)
    | none => throw (.invalidIndex (Word.signed code))
  | .ofInt => do
    let v ← Store.popInt
    push (ofInt v)
  | .toInt => do
    let a ← pop
    Store.pushInt (← orFault a.toMachineInt)

/-- The long integer routine: pops an operation code and carries it out. -/
def execute : Run Store Unit := do
  let code ← Store.pop
  match Operation.ofCode? code with
  | some operation => perform operation
  | none => throw (.unimplemented (.decimalOperation code))

end Decimal
end PSystem
