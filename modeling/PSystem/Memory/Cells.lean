/-!
# A store with one cell for each address

`Cells α n` holds one value for each of the `2 ^ n` addresses of `n` bits, as a balanced tree
that branches on the highest bit first.  A changed copy shares all but one path with the store
it was made from.  Main statements: `get_modify_same` and `get_modify_other`, the laws that tie `get` to
`modify`.
-/

namespace PSystem

/-- A balanced tree with a value at each address of `n` bits. -/
inductive Cells (α : Type) : Nat → Type where
  | leaf (value : α) : Cells α 0
  | node {n : Nat} (low high : Cells α n) : Cells α (n + 1)

namespace Cells

variable {α : Type}

/-- The store that holds `value` everywhere. -/
def replicate (value : α) : (n : Nat) → Cells α n
  | 0 => .leaf value
  | n + 1 => let half := replicate value n; .node half half

/-- The value at address `i`; bits of `i` above the width are ignored. -/
def get {n : Nat} (cells : Cells α n) (i : Nat) : α :=
  match cells with
  | .leaf value => value
  | @node _ n low high => if i.testBit n then high.get i else low.get i

/-- The store with the value at address `i` replaced by `f` of it. -/
def modify {n : Nat} (cells : Cells α n) (i : Nat) (f : α → α) : Cells α n :=
  match cells with
  | .leaf value => .leaf (f value)
  | @node _ n low high =>
    if i.testBit n then .node low (high.modify i f) else .node (low.modify i f) high

/-- The store with `value` at address `i`. -/
def set {n : Nat} (cells : Cells α n) (i : Nat) (value : α) : Cells α n :=
  cells.modify i fun _ => value

/-- Visits the values in the order of their addresses. -/
def foldl {n : Nat} {β : Type} (f : β → α → β) (init : β) (cells : Cells α n) : β :=
  match cells with
  | .leaf value => f init value
  | .node low high => high.foldl f (low.foldl f init)

/-- The values in the order of their addresses. -/
def toArray {n : Nat} (cells : Cells α n) : Array α :=
  cells.foldl Array.push #[]

/-! ## Laws -/

/-- Two addresses name the same cell of an `n`-bit store if their lowest `n` bits agree. -/
def SameCell (n i j : Nat) : Prop :=
  ∀ k < n, i.testBit k = j.testBit k

theorem sameCell_succ {n i j : Nat} :
    SameCell (n + 1) i j ↔ i.testBit n = j.testBit n ∧ SameCell n i j := by
  constructor
  · intro h
    exact ⟨h n (Nat.lt_succ_self n), fun k hk => h k (Nat.lt_succ_of_lt hk)⟩
  · rintro ⟨top, rest⟩ k hk
    rcases Nat.lt_or_eq_of_le (Nat.le_of_lt_succ hk) with hk | rfl
    · exact rest k hk
    · exact top

@[simp]
theorem get_replicate (value : α) (n i : Nat) : (replicate value n).get i = value := by
  induction n with
  | zero => rfl
  | succ n ih => simp [replicate, get, ih]

/-- Reading after a change gives the changed value at the cell that was changed. -/
theorem get_modify_same {n : Nat} (cells : Cells α n) {i j : Nat} (f : α → α)
    (h : SameCell n i j) : (cells.modify i f).get j = f (cells.get j) := by
  induction cells with
  | leaf value => rfl
  | @node n low high ihLow ihHigh =>
    obtain ⟨top, rest⟩ := sameCell_succ.1 h
    cases hb : j.testBit n with
    | true => simp [modify, get, top, hb, ihHigh rest]
    | false => simp [modify, get, top, hb, ihLow rest]

/-- Reading after a change gives the old value at every other cell. -/
theorem get_modify_other {n : Nat} (cells : Cells α n) {i j : Nat} (f : α → α)
    (h : ¬ SameCell n i j) : (cells.modify i f).get j = cells.get j := by
  induction cells with
  | leaf value => exact absurd (fun k hk => absurd hk (Nat.not_lt_zero k)) h
  | @node n low high ihLow ihHigh =>
    cases hi : i.testBit n <;> cases hj : j.testBit n
    · have rest : ¬ SameCell n i j := fun same => h (sameCell_succ.2 ⟨hi.trans hj.symm, same⟩)
      simp [modify, get, hi, hj, ihLow rest]
    · simp [modify, get, hi, hj]
    · simp [modify, get, hi, hj]
    · have rest : ¬ SameCell n i j := fun same => h (sameCell_succ.2 ⟨hi.trans hj.symm, same⟩)
      simp [modify, get, hi, hj, ihHigh rest]

end Cells
end PSystem
