import PSystem.EvalStack

/-!
# Sets of small integers

A set is a bit vector of at most 255 words; element `e` is bit `e % 16` of word `e / 16`, and words
beyond the stored ones are empty.  On the evaluation stack the word count lies on top of the words,
word 0 nearest to it.
-/

namespace PSystem

/-- A set of small integers as the words of its bit vector. -/
structure WordSet where
  words : List Word
  deriving DecidableEq, Repr, Inhabited

namespace WordSet

/-- The largest number of words. -/
def maxWords : Nat := 255

/-- The largest element. -/
def maxElement : Int := 4079

/-- The set without elements or words. -/
def empty : WordSet := ⟨[]⟩

/-- Whether a bit of a word is set. -/
def bit (w : Word) (i : Nat) : Bool :=
  w &&& (1 <<< UInt16.ofNat i) != 0

/-- Membership. -/
def contains (a : WordSet) (e : Int) : Bool :=
  if e < 0 then false
  else
    match a.words[e.toNat / 16]? with
    | some w => bit w (e.toNat % 16)
    | none => false

/-! ## Construction -/

/-- The word at position `i` of the set of all elements from `low` to `high`. -/
def rangeWord (low high i : Nat) : Word :=
  (List.range 16).foldl
    (fun w b => if low ≤ 16 * i + b ∧ 16 * i + b ≤ high then w ||| (1 <<< UInt16.ofNat b) else w) 0

/-- The set of all elements from `low` to `high`; empty if there are none. -/
def range (low high : Int) : Except Fault WordSet :=
  if high < low then .ok empty
  else if low < 0 ∨ maxElement < low then .error (.invalidIndex low)
  else if high < 0 ∨ maxElement < high then .error (.invalidIndex high)
  else .ok ⟨(List.range (high.toNat / 16 + 1)).map (rangeWord low.toNat high.toNat)⟩

/-- The set with one element. -/
def singleton (e : Int) : Except Fault WordSet :=
  range e e

/-- The set with exactly `n` words: further words are dropped, missing ones are empty. -/
def adjusted (a : WordSet) (n : Nat) : WordSet :=
  ⟨a.words.take n ++ List.replicate (n - a.words.length) 0⟩

/-! ## Operations -/

/-- Combines two sets word by word, the shorter one filled up with empty words. -/
def combine (f : Word → Word → Word) (a b : WordSet) : WordSet :=
  let n := max a.words.length b.words.length
  ⟨List.zipWith f (a.adjusted n).words (b.adjusted n).words⟩

/-- The elements of either set. -/
def union : WordSet → WordSet → WordSet :=
  combine (· ||| ·)

/-- The elements of both sets. -/
def inter : WordSet → WordSet → WordSet :=
  combine (· &&& ·)

/-- The elements of the first set that the second lacks. -/
def diff : WordSet → WordSet → WordSet :=
  combine fun x y => x &&& ~~~y

/-- Words without the empty ones at the end. -/
def trimWords : List Word → List Word
  | [] => []
  | w :: ws =>
    match trimWords ws with
    | [] => if w = 0 then [] else [w]
    | rest => w :: rest

/-- The same set in the fewest words. -/
def trimmed (a : WordSet) : WordSet :=
  ⟨trimWords a.words⟩

/-! ## Relations -/

/-- Whether two sets have the same elements. -/
def equals (a b : WordSet) : Bool :=
  a.trimmed == b.trimmed

/-- Whether every element of the first set is in the second. -/
def isSubset (a b : WordSet) : Bool :=
  let a := a.trimmed.words
  let b := b.trimmed.words
  a.length ≤ b.length && (List.zipWith (fun x y => x &&& ~~~y == 0) a b).all id

/-- Whether the first set is a subset of the second and not equal to it. -/
def isProperSubset (a b : WordSet) : Bool :=
  a.isSubset b && !a.equals b

/-! ## Stack format -/

/-- Pops a counted set. -/
def pop : Run Store WordSet := do
  let count ← Store.pop
  if maxWords < count.toNat then throw (.invalidIndex (Word.signed count))
  return ⟨← Store.popBlock count.toNat⟩

/-- Pushes a counted set. -/
def push (a : WordSet) : Run Store Unit := do
  Store.pushBlock a.words
  Store.push (UInt16.ofNat a.words.length)

end WordSet
end PSystem
