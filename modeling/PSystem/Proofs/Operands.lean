import PSystem.Listing
import PSystem.Proofs.Returns
import PSystem.Proofs.Still

/-!
# Operands

Operands are decoded in two places: a listing looks them up in the stored bytes, and an instruction
fetches them one by one as it goes.  `Fetches kind x` says that the computation `x` takes exactly the
bytes of an operand of that kind, so that the instruction pointer ends where the listing goes on.

Whatever is not a fetch leaves the pointer alone (`Still`), also if it fails.  Together this tells for
every instruction that does not transfer control where execution goes on, however the instruction
ends: `goesOnAt_executeTable`.
-/

namespace PSystem

/-! ## Readable code -/

namespace Memory

variable {m : Memory} {a : Address} {n : Nat}

/-- The `n` bytes from an address on are plain memory: what is read there is what is stored there. -/
def Legible (m : Memory) (a : Address) (n : Nat) : Prop :=
  ∀ i < n, a + UInt16.ofNat i ≠ 0 ∧ (m.cell (a + UInt16.ofNat i)).mapped = false

theorem Legible.mono {k : Nat} (h : m.Legible a n) (le : k ≤ n) : m.Legible a k :=
  fun i hi => h i (Nat.lt_of_lt_of_le hi le)

/-- The bytes that are left after the first `k`. -/
theorem Legible.drop {k : Nat} (h : m.Legible a (k + n)) : m.Legible (a + UInt16.ofNat k) n := by
  intro i hi
  have := h (k + i) (by omega)
  rwa [UInt16.ofNat_add, ← UInt16.add_assoc] at this

theorem Legible.readByte (h : m.Legible a 1) : m.readByte a = .ok (m.peekByte a) := by
  obtain ⟨valid, unmapped⟩ := h 0 (by decide)
  have here : a + UInt16.ofNat 0 = a := UInt16.add_zero a
  rw [here] at valid unmapped
  exact readByte_unmapped valid unmapped

theorem Legible.readWord (h : m.Legible a 2) : m.readWord a = .ok (m.peekWord a) := by
  have first := (h.mono (by decide : 1 ≤ 2)).readByte
  have second : m.readByte (a + 1) = .ok (m.peekByte (a + 1)) := (h.drop (k := 1) (n := 1)).readByte
  rw [Memory.readWord, first, second]
  rfl

theorem Legible.readWords (h : m.Legible a (2 * n)) :
    m.readWords a n = .ok ((List.range n).map fun i => m.peekWord (a + UInt16.ofNat (2 * i))) := by
  apply mapM_eq_ok
  intro i hi
  have inside := List.mem_range.1 hi
  exact ((h.mono (by omega : 2 * i + 2 ≤ 2 * n)).drop).readWord

end Memory

/-! ## Sizes of operands -/

/-- A distance from an address is what was added to it. -/
theorem toNat_add_sub (a b : Word) : (a + b - a).toNat = b.toNat := by
  rw [show a + b - a = b by grind]

namespace OperandValue

variable {m : Memory} {a : Address} {kind : OperandKind}

/-- The number of bytes that an operand takes at an address. -/
def size (m : Memory) (a : Address) (kind : OperandKind) : Nat :=
  ((decode m a kind).2 - a).toNat

theorem decode_snd : (decode m a kind).2 = a + UInt16.ofNat (size m a kind) := by
  rw [size, UInt16.ofNat_toNat]
  grind

theorem size_eq {d : Word} (h : (decode m a kind).2 = a + d) : size m a kind = d.toNat := by
  rw [size, h, toNat_add_sub]

@[simp]
theorem size_byte : size m a .byte = 1 := size_eq (d := 1) rfl

@[simp]
theorem size_level : size m a .level = 1 := size_eq (d := 1) rfl

@[simp]
theorem size_displacement : size m a .displacement = 1 := size_eq (d := 1) rfl

theorem peekBig_snd : (peekBig m a).2 = if m.peekByte a < 0x80 then a + 1 else a + 2 := by
  unfold peekBig
  by_cases h : m.peekByte a < 0x80 <;> simp [h]

theorem size_big : size m a .big = if m.peekByte a < 0x80 then 1 else 2 := by
  have next : (decode m a .big).2 = if m.peekByte a < 0x80 then a + 1 else a + 2 := peekBig_snd
  by_cases short : m.peekByte a < 0x80
  · rw [if_pos short] at next ⊢
    exact size_eq next
  · rw [if_neg short] at next ⊢
    exact size_eq next

theorem size_word : size m a .word = if a % 2 == 1 then 3 else 2 := by
  have next : (decode m a .word).2 = alignAddress a + 2 := rfl
  unfold alignAddress at next
  by_cases odd : a % 2 == 1
  · rw [if_pos odd] at next ⊢
    exact size_eq (d := 3) (by rw [next]; grind)
  · rw [if_neg odd] at next ⊢
    exact size_eq next

theorem size_text : size m a .text = 1 + (m.peekByte a).toNat := by
  have short := (m.peekByte a).toNat_lt
  have next : (decode m a .text).2 = a + (1 + (m.peekByte a).toUInt16) := by
    rw [← UInt16.add_assoc]
    rfl
  rw [size_eq next, UInt16.toNat_add, UInt8.toNat_toUInt16]
  exact Nat.mod_eq_of_lt (by simp; omega)

theorem words_snd_of_none (none_ : m.peekByte a = 0) : (decode m a .words).2 = a + 1 := by
  simp [decode, none_]

theorem words_snd (some_ : m.peekByte a ≠ 0) :
    (decode m a .words).2 = alignAddress (a + 1) + 2 * (m.peekByte a).toUInt16 := by
  simp [decode, some_]

theorem size_words_of_none (none_ : m.peekByte a = 0) : size m a .words = 1 :=
  size_eq (words_snd_of_none none_)

theorem size_words (some_ : m.peekByte a ≠ 0) :
    size m a .words = (if (a + 1) % 2 == 1 then 2 else 1) + 2 * (m.peekByte a).toNat := by
  have short := (m.peekByte a).toNat_lt
  have after (d : Word) (near : d.toNat ≤ 2) :
      (d + 2 * (m.peekByte a).toUInt16).toNat = d.toNat + 2 * (m.peekByte a).toNat := by
    have two : (2 : Word).toNat = 2 := rfl
    rw [UInt16.toNat_add, UInt16.toNat_mul, UInt8.toNat_toUInt16, two]
    omega
  have next := words_snd some_
  unfold alignAddress at next
  by_cases odd : (a + 1) % 2 == 1
  · rw [if_pos odd, show a + 1 + 1 = a + 2 by grind, UInt16.add_assoc] at next
    rw [if_pos odd, size_eq next]
    exact after 2 (by decide)
  · rw [if_neg odd, UInt16.add_assoc] at next
    rw [if_neg odd, size_eq next]
    exact after 1 (by decide)

theorem comparison_snd : (decode m a .comparison).2 =
    if comparesArrays (m.peekByte a) then (decode m (a + 1) .big).2 else a + 1 := by
  by_cases arrays : comparesArrays (m.peekByte a) <;> simp [decode, arrays]

theorem size_comparison : size m a .comparison =
    if comparesArrays (m.peekByte a) then 1 + size m (a + 1) .big else 1 := by
  have next : (decode m a .comparison).2 = _ := comparison_snd
  by_cases arrays : comparesArrays (m.peekByte a)
  · have following : (decode m (a + 1) .big).2 = _ := peekBig_snd
    rw [if_pos arrays, following] at next
    rw [if_pos arrays, size_big]
    by_cases short : m.peekByte (a + 1) < 0x80
    · rw [if_pos short] at next ⊢
      exact size_eq (d := 2) (by rw [next]; grind)
    · rw [if_neg short] at next ⊢
      exact size_eq (d := 3) (by rw [next]; grind)
  · rw [if_neg arrays] at next ⊢
    exact size_eq next

/-- Only a case jump takes more bytes than its counts in a byte allow. -/
theorem size_le (h : kind ≠ .cases) : size m a kind ≤ 512 := by
  have short := (m.peekByte a).toNat_lt
  -- The longest operand is a list of 255 words behind its count and a byte of padding.
  have big (b : Address) : size m b .big ≤ 2 := by
    rw [size_big]
    split <;> omega
  cases kind with
  | byte | level | displacement => simp
  | big => exact Nat.le_trans (big a) (by decide)
  | word =>
    rw [size_word]
    split <;> omega
  | text =>
    rw [size_text]
    omega
  | words =>
    by_cases none_ : m.peekByte a = 0
    · rw [size_words_of_none none_]
      decide
    · rw [size_words none_]
      split <;> omega
  | comparison =>
    have := big (a + 1)
    rw [size_comparison]
    split <;> omega
  | cases => exact absurd rfl h

end OperandValue

namespace Line

variable {m : Memory} {a : Address} {kinds : List OperandKind}

/-- The number of bytes that operands take from an address on. -/
def span (m : Memory) : Address → List OperandKind → Nat
  | _, [] => 0
  | a, kind :: kinds => OperandValue.size m a kind + span m (OperandValue.decode m a kind).2 kinds

theorem decodeOperands_snd : (decodeOperands m a kinds).2 = a + UInt16.ofNat (span m a kinds) := by
  induction kinds generalizing a with
  | nil => exact (UInt16.add_zero a).symm
  | cons kind kinds ih =>
    calc
      _ = (decodeOperands m (OperandValue.decode m a kind).2 kinds).2 := rfl
      _ = a + UInt16.ofNat (OperandValue.size m a kind) + UInt16.ofNat (span m _ kinds) := by
        rw [ih, ← OperandValue.decode_snd]
      _ = a + UInt16.ofNat (span m a (kind :: kinds)) := by
        rw [UInt16.add_assoc, ← UInt16.ofNat_add, span]

theorem span_le (h : .cases ∉ kinds) : span m a kinds ≤ 512 * kinds.length := by
  induction kinds generalizing a with
  | nil => exact Nat.le_refl 0
  | cons kind kinds ih =>
    have first := OperandValue.size_le (m := m) (a := a) fun eq => h (eq ▸ List.mem_cons_self)
    have rest := ih (a := (OperandValue.decode m a kind).2) fun inside =>
      h (List.mem_cons_of_mem _ inside)
    rw [span, List.length_cons]
    omega

/-- The next line of a listing starts behind the operands. -/
theorem add_length : a + (decode m a).length =
    (decodeOperands m (a + 1) (Encoding.ofCode (m.peekByte a)).operands).2 := by
  show a + ((decodeOperands m (a + 1) (Encoding.ofCode (m.peekByte a)).operands).2 - a) = _
  grind

/-- An instruction takes its opcode byte and its operands, and all but a case jump are short. -/
theorem toNat_length (few : kinds.length ≤ 2) (h : .cases ∉ kinds)
    (eq : (Encoding.ofCode (m.peekByte a)).operands = kinds) :
    (decode m a).length.toNat = 1 + span m (a + 1) kinds := by
  have short := span_le (m := m) (a := a + 1) h
  have length : (decode m a).length = (decodeOperands m (a + 1) kinds).2 - a := eq ▸ rfl
  have fits : 1 + span m (a + 1) kinds < 2 ^ 16 := by omega
  calc
    _ = ((1 : Word) + UInt16.ofNat (span m (a + 1) kinds)).toNat := by
      rw [length, decodeOperands_snd, UInt16.add_assoc, toNat_add_sub]
    _ = (UInt16.ofNat (1 + span m (a + 1) kinds)).toNat := by rw [UInt16.ofNat_add]; rfl
    _ = 1 + span m (a + 1) kinds := UInt16.toNat_ofNat_of_lt' fits

end Line

theorem comparesArrays_of_ne {kind : UInt8} (ten : kind.toNat ≠ 10) (twelve : kind.toNat ≠ 12) :
    comparesArrays kind = false := by
  have notTen : kind ≠ 10 := fun is => ten (is ▸ rfl)
  have notTwelve : kind ≠ 12 := fun is => twelve (is ▸ rfl)
  simp [comparesArrays, notTen, notTwelve]

/-! ## Instructions that count their operands in another way -/

/-- The instructions that fetch the operands of their kinds one after the other and go on behind
them. -/
def Opcode.plain : Opcode → Bool
  | .lsa | .lpa | .ldc | .csp | .equ | .neq | .les | .leq | .grt | .geq | .ujp | .fjp | .efj | .nfj
  | .xjp | .clp | .cgp | .cip | .cbp | .cxp | .rnp | .rbp => false
  | _ => true

/-- The comparisons of word arrays by order, which are refused before the size of the arrays is
fetched. -/
def Relation.refuses (r : Relation) (kind : UInt8) : Bool :=
  kind == 12 && r != .eq && r != .ne

/-- The instructions that jump, call or return. -/
def Opcode.leaves : Opcode → Bool
  | .ujp | .fjp | .efj | .nfj | .xjp | .clp | .cgp | .cip | .cbp | .cxp | .rnp | .rbp => true
  | _ => false

/-- The relation that a typed comparison tests. -/
def Opcode.relation? : Opcode → Option Relation
  | .equ => some .eq
  | .neq => some .ne
  | .les => some .lt
  | .leq => some .le
  | .grt => some .gt
  | .geq => some .ge
  | _ => none

theorem Opcode.operands_of_relation? {op : Opcode} {r : Relation} (h : op.relation? = some r) :
    op.operands = [.comparison] := by
  cases op <;> first | rfl | cases h

/-- Only a case jump has more than two short operands. -/
theorem Opcode.operands_short {op : Opcode} (h : op ≠ .xjp) :
    op.operands.length ≤ 2 ∧ .cases ∉ op.operands := by
  cases op <;> first | exact absurd rfl h | decide

namespace Memory

variable (m : Memory) (a : Address)

/-- At an odd address stands a load of no constants. -/
def EmptyConstantsAt : Prop :=
  Encoding.ofCode (m.peekByte a) = .table .ldc ∧ m.peekByte (a + 1) = 0 ∧ a % 2 = 1

/-- At an address stands a comparison of word arrays by order. -/
def RefusedComparisonAt : Prop :=
  ∃ op r, Encoding.ofCode (m.peekByte a) = .table op ∧ op.relation? = some r ∧
    r.refuses (m.peekByte (a + 1)) = true

/-- At an address stands a jump, a call, a return or EXIT. -/
def LeavesAt : Prop :=
  ∃ op, Encoding.ofCode (m.peekByte a) = .table op ∧
    (op.leaves = true ∨
      op = .csp ∧ StandardProcedure.ofCode? (m.peekByte (a + 1)) = some .exit)

/-- Where execution goes on after an instruction that does not leave: most instructions go on with the
next line of the listing. -/
def following : Address :=
  match Encoding.ofCode (m.peekByte a) with
  | .table .ldc => alignAddress (a + 2) + 2 * (m.peekByte (a + 1)).toUInt16
  | .table op =>
    match op.relation? with
    | some r => if r.refuses (m.peekByte (a + 1)) then a + 2 else a + (Line.decode m a).length
    | none => a + (Line.decode m a).length
  | _ => a + (Line.decode m a).length

variable {m a}

theorem following_of_relation {op : Opcode} {r : Relation}
    (code : Encoding.ofCode (m.peekByte a) = .table op) (h : op.relation? = some r) :
    m.following a =
      if r.refuses (m.peekByte (a + 1)) then a + 2 else a + (Line.decode m a).length := by
  unfold following
  rw [code]
  cases op with
  | equ | neq | les | leq | grt | geq =>
    cases h
    rfl
  | _ => cases h

theorem following_of_table {op : Opcode} (code : Encoding.ofCode (m.peekByte a) = .table op)
    (other : op ≠ .ldc) (h : op.relation? = none) :
    m.following a = a + (Line.decode m a).length := by
  unfold following
  rw [code]
  cases op with
  | equ | neq | les | leq | grt | geq => cases h
  | ldc => exact absurd rfl other
  | _ => rfl

theorem following_of_ldc (code : Encoding.ofCode (m.peekByte a) = .table .ldc) :
    m.following a = alignAddress (a + 2) + 2 * (m.peekByte (a + 1)).toUInt16 := by
  unfold following
  rw [code]

theorem add_nothing (a : Address) : a + 2 * (0 : UInt8).toUInt16 = a :=
  UInt16.add_zero a

/-- Two kinds of instruction apart, execution goes on with the next line of the listing. -/
theorem following_eq (some_ : ¬ m.EmptyConstantsAt a) (accepted : ¬ m.RefusedComparisonAt a) :
    m.following a = a + (Line.decode m a).length := by
  cases code : Encoding.ofCode (m.peekByte a) with
  | table op =>
    cases compares : op.relation? with
    | some r =>
      have fine : ¬ r.refuses (m.peekByte (a + 1)) = true := fun refused =>
        accepted ⟨op, r, code, compares, refused⟩
      rw [following_of_relation code compares, if_neg fine]
    | none =>
      by_cases constants : op = .ldc
      · subst constants
        have listed : a + (Line.decode m a).length = (OperandValue.decode m (a + 1) .words).2 := by
          rw [Line.add_length, code]
          rfl
        rw [following_of_ldc code, listed]
        by_cases none_ : m.peekByte (a + 1) = 0
        · -- Without constants the address is even by assumption, and aligning does not move it.
          have even : ¬ a % 2 = 1 := fun odd => some_ ⟨code, none_, odd⟩
          have aligned : alignAddress (a + 2) = a + 2 := by
            unfold alignAddress
            rw [if_neg (by grind)]
          rw [aligned, none_, OperandValue.words_snd_of_none none_, add_nothing]
          grind
        · rw [OperandValue.words_snd none_, UInt16.add_assoc]
          rfl
      · exact following_of_table code constants compares
  | _ =>
    unfold following
    rw [code]

/-- A load of no constants at an odd address goes on one byte behind the next line. -/
theorem following_of_emptyConstants (h : m.EmptyConstantsAt a) :
    m.following a = a + (Line.decode m a).length + 1 := by
  obtain ⟨code, none_, odd⟩ := h
  have listed : a + (Line.decode m a).length = (OperandValue.decode m (a + 1) .words).2 := by
    rw [Line.add_length, code]
    rfl
  have aligned : alignAddress (a + 2) = a + 3 := by
    unfold alignAddress
    rw [if_pos (by grind)]
    grind
  rw [following_of_ldc code, listed, aligned, none_, OperandValue.words_snd_of_none none_,
    add_nothing]
  grind

/-- A refused comparison has at least its opcode and the kind of its operands. -/
theorem RefusedComparisonAt.two_le_length (h : m.RefusedComparisonAt a) :
    2 ≤ (Line.decode m a).length.toNat := by
  obtain ⟨op, r, code, compares, refused⟩ := h
  have kinds : (Encoding.ofCode (m.peekByte a)).operands = [.comparison] := by
    rw [code, Encoding.operands, Opcode.operands_of_relation? compares]
  rw [Line.toNat_length (by decide) (by decide) kinds, Line.span, OperandValue.size_comparison]
  split <;> omega

/-- A refused comparison goes on at the size of its operands. -/
theorem following_of_refusedComparison (h : m.RefusedComparisonAt a) :
    m.following a = a + 2 ∧ (Line.decode m a).length ≠ 2 := by
  obtain ⟨op, r, code, compares, refused⟩ := h
  have listed : a + (Line.decode m a).length = (OperandValue.decode m (a + 1) .comparison).2 := by
    rw [Line.add_length, code, Encoding.operands, Opcode.operands_of_relation? compares]
    rfl
  have arrays : comparesArrays (m.peekByte (a + 1)) = true := by
    simp only [Relation.refuses, Bool.and_eq_true] at refused
    simp [comparesArrays, eq_of_beq refused.1.1]
  refine ⟨by rw [following_of_relation code compares, if_pos refused], fun short => ?_⟩
  have sized : (OperandValue.decode m (a + 1) .comparison).2 =
      if m.peekByte (a + 1 + 1) < 0x80 then a + 1 + 1 + 1 else a + 1 + 1 + 2 := by
    rw [OperandValue.comparison_snd, if_pos arrays, ← OperandValue.peekBig_snd]
    rfl
  rw [short, sized] at listed
  split at listed
  · grind
  · grind

end Memory

namespace Machine

variable {ε α β : Type} {m m' : Machine} {a b : Address}

/-- Where a typed comparison goes on, its operands starting at an address. -/
def afterComparison (r : Relation) (m : Memory) (a : Address) : Address :=
  if r.refuses (m.peekByte a) then a + 1 else (OperandValue.decode m a .comparison).2

/-! ## Fetches -/

/-- The machine that goes on at an address. -/
def movedTo (m : Machine) (a : Address) : Machine :=
  { m with ipc := a - m.ipcBase }

@[simp]
theorem nextAddress_movedTo : (m.movedTo a).nextAddress = a := by
  show m.ipcBase + (a - m.ipcBase) = a
  grind

@[simp]
theorem memory_movedTo : (m.movedTo a).memory = m.memory := rfl

@[simp]
theorem movedTo_movedTo : (m.movedTo a).movedTo b = m.movedTo b := rfl

@[simp]
theorem movedTo_nextAddress : m.movedTo m.nextAddress = m := by
  unfold movedTo nextAddress
  rw [show m.ipcBase + m.ipc - m.ipcBase = m.ipc by grind]

theorem advance_apply (n : Word) : advance n m = .ok () (m.movedTo (m.nextAddress + n)) := by
  unfold advance movedTo nextAddress
  rw [modify_apply, show m.ipcBase + m.ipc + n - m.ipcBase = m.ipc + n by grind]

theorem alignPointer_apply :
    alignPointer m = .ok () (m.movedTo (alignAddress m.nextAddress)) := by
  unfold alignPointer alignAddress
  rw [modify_apply]
  split
  · unfold movedTo nextAddress
    rw [show m.ipcBase + m.ipc + 1 - m.ipcBase = m.ipc + 1 by grind]
  · rw [movedTo_nextAddress]

theorem reading_apply {f : Memory → Except Fault α} {v : α} (h : f m.memory = .ok v) :
    reading f m = .ok v m := by
  unfold reading
  rw [get_bind_apply, h]
  rfl

theorem fetchByte_apply (h : m.memory.Legible m.nextAddress 1) :
    fetchByte m = .ok (m.memory.peekByte m.nextAddress) (m.movedTo (m.nextAddress + 1)) := by
  unfold fetchByte
  rw [get_bind_apply, bind_of_ok (reading_apply h.readByte), bind_of_ok (advance_apply 1)]
  rfl

/-- `x` fetches an operand of a kind, if its bytes can be read. -/
def Fetches (kind : OperandKind) (x : EStateM ε Machine α) : Prop :=
  ∀ m, m.memory.Legible m.nextAddress (OperandValue.size m.memory m.nextAddress kind) →
    ∃ v, x m = .ok v (m.movedTo (OperandValue.decode m.memory m.nextAddress kind).2)

theorem fetches_byte : Fetches .byte fetchByte := fun _ legible =>
  ⟨_, fetchByte_apply (OperandValue.size_byte ▸ legible)⟩

theorem fetches_level : Fetches .level fetchByte := fun _ legible =>
  ⟨_, fetchByte_apply (OperandValue.size_level ▸ legible)⟩

theorem fetches_big : Fetches .big fetchBig := by
  intro m legible
  have next : (OperandValue.decode m.memory m.nextAddress .big).2 = _ := OperandValue.peekBig_snd
  rw [OperandValue.size_big] at legible
  unfold fetchBig
  by_cases short : m.memory.peekByte m.nextAddress < 0x80
  · rw [if_pos short] at legible next
    rw [bind_of_ok (fetchByte_apply legible), if_pos short, next]
    exact ⟨_, rfl⟩
  · rw [if_neg short] at legible next
    have second : (m.movedTo (m.nextAddress + 1)).memory.Legible
        (m.movedTo (m.nextAddress + 1)).nextAddress 1 := by
      rw [nextAddress_movedTo]
      exact legible.drop (k := 1)
    rw [bind_of_ok (fetchByte_apply (legible.mono (by decide))), if_neg short, next,
      bind_of_ok (fetchByte_apply second), nextAddress_movedTo, UInt16.add_assoc]
    exact ⟨_, rfl⟩

theorem fetches_word : Fetches .word fetchWord := by
  intro m legible
  have readable : m.memory.Legible (alignAddress m.nextAddress) 2 := by
    rw [OperandValue.size_word] at legible
    unfold alignAddress
    by_cases odd : m.nextAddress % 2 == 1
    · rw [if_pos odd] at legible ⊢
      exact legible.drop (k := 1)
    · rw [if_neg odd] at legible ⊢
      exact legible
  have next : (OperandValue.decode m.memory m.nextAddress .word).2 =
      alignAddress m.nextAddress + 2 := rfl
  unfold fetchWord
  rw [bind_of_ok alignPointer_apply, get_bind_apply, nextAddress_movedTo,
    bind_of_ok (reading_apply readable.readWord), bind_of_ok (advance_apply 2), next,
    nextAddress_movedTo]
  exact ⟨_, rfl⟩

theorem Fetches.lift {kind : OperandKind} {x : Run Machine α} (h : Fetches kind x) :
    Fetches kind (liftM x : Exec α) := by
  intro m legible
  obtain ⟨v, eq⟩ := h m legible
  exact ⟨v, raising_of_ok eq⟩

/-! ## Taking all operands -/

/-- However `x` ends on a machine, execution goes on at an address then. -/
def GoesOnAt (a : Address) (m : Machine) (x : EStateM ε Machine α) : Prop :=
  Still (m.movedTo a) (endState (x m))

theorem goesOnAt_next (x : EStateM ε Machine α) [h : Keeps Still x] :
    GoesOnAt m.nextAddress m x := by
  unfold GoesOnAt
  rw [movedTo_nextAddress]
  exact h.related m

theorem goesOnAt_movedTo (x : EStateM ε Machine α) [h : Keeps Still x] :
    GoesOnAt a (m.movedTo a) x :=
  h.related (m.movedTo a)

theorem GoesOnAt.lift {x : Run Machine α} (h : GoesOnAt a m x) :
    GoesOnAt a m (liftM x : Exec α) := by
  rw [GoesOnAt, endState_liftM]
  exact h

/-- However `x` ends, execution goes on behind operands of the given kinds, if these can be read. -/
def Takes (kinds : List OperandKind) (x : EStateM ε Machine α) : Prop :=
  ∀ m, m.memory.Legible m.nextAddress (Line.span m.memory m.nextAddress kinds) →
    GoesOnAt (Line.decodeOperands m.memory m.nextAddress kinds).2 m x

theorem takes_nothing (x : EStateM ε Machine α) [Keeps Still x] : Takes [] x :=
  fun _ _ => goesOnAt_next x

theorem Fetches.bind {kind : OperandKind} {kinds : List OperandKind} {x : EStateM ε Machine α}
    {f : α → EStateM ε Machine β} (hx : Fetches kind x) (hf : ∀ v, Takes kinds (f v)) :
    Takes (kind :: kinds) (x >>= f) := by
  intro m legible
  rw [Line.span] at legible
  obtain ⟨v, eq⟩ := hx m (legible.mono (Nat.le_add_right _ _))
  have rest := legible.drop
  rw [← OperandValue.decode_snd] at rest
  have ends := hf v (m.movedTo (OperandValue.decode m.memory m.nextAddress kind).2)
    (by rwa [memory_movedTo, nextAddress_movedTo])
  rw [GoesOnAt, movedTo_movedTo, memory_movedTo, nextAddress_movedTo] at ends
  rw [GoesOnAt, bind_of_ok eq]
  exact ends

theorem Takes.lift {kinds : List OperandKind} {x : Run Machine α} (h : Takes kinds x) :
    Takes kinds (liftM x : Exec α) :=
  fun m legible => (h m legible).lift

/-- Operands of one kind, followed by what fetches nothing. -/
theorem Fetches.takes {kind : OperandKind} {x : EStateM ε Machine α}
    {f : α → EStateM ε Machine β} (hx : Fetches kind x) (hf : ∀ v, Keeps Still (f v)) :
    Takes [kind] (x >>= f) :=
  hx.bind fun v => have := hf v; takes_nothing (f v)

/-! ## Instructions of the table -/

/-- A fault may be raised in the middle of the two steps as well as in one computation. -/
theorem Takes.lift_bind {kinds : List OperandKind} {x : Run Machine α} {f : α → Run Machine β}
    (h : Takes kinds (x >>= f)) :
    Takes kinds ((liftM x : Exec α) >>= fun a => (liftM (f a) : Exec β)) := by
  intro m legible
  rw [GoesOnAt, ← liftM_bind_apply]
  exact h.lift m legible

theorem takes_intermediate {f : Mode → Run Machine Unit} (hf : ∀ mode, Keeps Still (f mode)) :
    Takes [.level, .big] (fetchIntermediate >>= f) := by
  unfold fetchIntermediate
  simp only [bind_assoc, pure_bind]
  exact fetches_level.bind fun _ => fetches_big.takes fun _ => hf _

theorem takes_external {f : Mode → Run Machine Unit} (hf : ∀ mode, Keeps Still (f mode)) :
    Takes [.byte, .big] (fetchExternal >>= f) := by
  unfold fetchExternal
  simp only [bind_assoc, pure_bind]
  exact fetches_byte.bind fun _ => fetches_big.takes fun _ => hf _

theorem takes_indexPacked : Takes [.byte, .byte] indexPacked :=
  fetches_byte.bind fun _ => fetches_byte.takes fun _ => inferInstance

theorem takes_adjustSet : Takes [.byte] adjustSet :=
  fetches_byte.takes fun _ => inferInstance

theorem takes_loadWords : Takes [.byte] loadWords :=
  fetches_byte.takes fun _ => inferInstance

theorem takes_storeWords : Takes [.byte] storeWords :=
  fetches_byte.takes fun _ => inferInstance

theorem takes_moveWords : Takes [.big] moveWords :=
  fetches_big.takes fun _ => inferInstance

theorem takes_indexArray : Takes [.big] indexArray :=
  fetches_big.takes fun _ => inferInstance

theorem takes_breakpoint : Takes [.big] breakpoint :=
  fetches_big.takes fun _ => inferInstance

theorem takes_operands {op : Opcode} (h : op.plain = true) :
    Takes op.operands (executeTable op) := by
  cases op with
  | lde => exact (takes_external works_load).lift_bind
  | lae => exact (takes_external works_loadAddress).lift_bind
  | ste => exact (takes_external works_storeAt).lift_bind
  | lod => exact (takes_intermediate works_load).lift_bind
  | lda => exact (takes_intermediate works_loadAddress).lift_bind
  | str => exact (takes_intermediate works_storeAt).lift_bind
  | ixp => exact takes_indexPacked.lift
  | adj => exact takes_adjustSet.lift
  | ldm => exact takes_loadWords.lift
  | stm => exact takes_storeWords.lift
  | ixa => exact takes_indexArray.lift
  | mov => exact takes_moveWords.lift
  | bpt => exact takes_breakpoint.lift
  | sas => exact fetches_byte.lift.takes fun max => inferInstance
  | ldci => exact fetches_word.lift.takes fun _ => inferInstance
  | inc | ind | lao | ldo | sro | lla | ldl | stl =>
    exact fetches_big.lift.takes fun _ => inferInstance
  | lsa | lpa | ldc | csp | equ | neq | les | leq | grt | geq | ujp | fjp | efj | nfj | xjp | clp
  | cgp | cip | cbp | cxp | rnp | rbp => cases h
  | _ =>
    refine @takes_nothing _ _ _ (still_executeTable ?_)
    rfl

theorem takes_loadText (characters : Bool) : Takes [.text] (loadText characters) := by
  intro m legible
  have next : (Line.decodeOperands m.memory m.nextAddress [.text]).2 =
      m.nextAddress + 1 + (m.memory.peekByte m.nextAddress).toUInt16 := rfl
  have count : m.memory.Legible m.nextAddress 1 := legible.mono (by
    rw [Line.span, OperandValue.size_text]
    omega)
  unfold loadText GoesOnAt
  rw [get_bind_apply, bind_of_ok (fetchByte_apply count), bind_of_ok (advance_apply _),
    nextAddress_movedTo, movedTo_movedTo, next]
  exact (works_push _).related _

/-- A load of constants goes on behind them, from an even address on even if there are none. -/
theorem goesOnAt_loadConstants (legible : m.memory.Legible m.nextAddress
      (OperandValue.size m.memory m.nextAddress .words)) :
    GoesOnAt (alignAddress (m.nextAddress + 1) + 2 * (m.memory.peekByte m.nextAddress).toUInt16)
      m loadConstants := by
  have count : m.memory.Legible m.nextAddress 1 := legible.mono (by
    by_cases none_ : m.memory.peekByte m.nextAddress = 0
    · exact Nat.le_of_eq (OperandValue.size_words_of_none none_).symm
    · rw [OperandValue.size_words none_]
      split <;> omega)
  -- The constants begin at the next even address; what is legible covers the padding as well.
  have readable : m.memory.Legible (alignAddress (m.nextAddress + 1))
      (2 * (m.memory.peekByte m.nextAddress).toNat) := by
    by_cases none_ : m.memory.peekByte m.nextAddress = 0
    · rw [none_]
      exact fun i hi => absurd hi (Nat.not_lt_zero i)
    · rw [OperandValue.size_words none_] at legible
      unfold alignAddress
      split
      · rename_i odd
        rw [if_pos odd] at legible
        rw [UInt16.add_assoc]
        exact legible.drop
      · rename_i even
        rw [if_neg even] at legible
        exact legible.drop
  unfold loadConstants GoesOnAt
  rw [bind_of_ok (fetchByte_apply count), bind_of_ok alignPointer_apply, get_bind_apply,
    nextAddress_movedTo, nextAddress_movedTo, bind_of_ok (reading_apply readable.readWords),
    bind_of_ok (advance_apply _), nextAddress_movedTo]
  exact (still_onStore _).related _

/-- A standard procedure other than EXIT goes on behind its number. -/
theorem goesOnAt_callStandard (legible : m.memory.Legible m.nextAddress 1)
    (stays : StandardProcedure.ofCode? (m.memory.peekByte m.nextAddress) ≠ some .exit) :
    GoesOnAt (m.nextAddress + 1) m callStandard := by
  unfold callStandard GoesOnAt
  rw [liftM_bind_of_ok (fetchByte_apply legible)]
  cases found : StandardProcedure.ofCode? (m.memory.peekByte m.nextAddress) with
  | none => exact goesOnAt_movedTo (throw _)
  | some procedure =>
    have := still_perform fun is_exit => stays (found.trans (congrArg some is_exit))
    exact goesOnAt_movedTo (perform procedure)

/-! ### Typed comparisons -/

theorem goesOnAt_compareTyped {r : Relation} (legible : m.memory.Legible m.nextAddress
      (OperandValue.size m.memory m.nextAddress .comparison)) :
    GoesOnAt (afterComparison r m.memory m.nextAddress) m (compareTyped r) := by
  rw [OperandValue.size_comparison] at legible
  have kindLegible : m.memory.Legible m.nextAddress 1 := legible.mono (by split <;> omega)
  -- operands on the stack are compared where the kind byte ends
  have unsized (x : Run Machine Unit) [Keeps Still x]
      (here : afterComparison r m.memory m.nextAddress = m.nextAddress + 1) :
      GoesOnAt (afterComparison r m.memory m.nextAddress) (m.movedTo (m.nextAddress + 1)) x := by
    rw [here]
    exact goesOnAt_movedTo x
  -- operands in memory need their size as well
  have sized (f : Word → Run Machine Unit) [∀ w, Keeps Still (f w)]
      (arrays : comparesArrays (m.memory.peekByte m.nextAddress) = true)
      (accepted : r.refuses (m.memory.peekByte m.nextAddress) = false) :
      GoesOnAt (afterComparison r m.memory m.nextAddress) (m.movedTo (m.nextAddress + 1))
        (fetchBig >>= f) := by
    have takes : Takes [.big] (fetchBig >>= f) := fetches_big.takes inferInstance
    rw [if_pos arrays] at legible
    have ends := takes (m.movedTo (m.nextAddress + 1))
      (by rw [nextAddress_movedTo]; exact legible.drop (k := 1))
    rw [nextAddress_movedTo] at ends
    rw [afterComparison, accepted, OperandValue.comparison_snd, if_pos arrays]
    exact ends
  have stays (h : comparesArrays (m.memory.peekByte m.nextAddress) = false) :
      afterComparison r m.memory m.nextAddress = m.nextAddress + 1 := by
    rw [afterComparison, OperandValue.comparison_snd, h]
    exact ite_self _
  have refused (h : r.refuses (m.memory.peekByte m.nextAddress) = true) :
      afterComparison r m.memory m.nextAddress = m.nextAddress + 1 := by
    rw [afterComparison, h]
    rfl
  unfold compareTyped GoesOnAt
  rw [bind_of_ok (fetchByte_apply kindLegible)]
  change GoesOnAt _ (m.movedTo (m.nextAddress + 1)) _
  generalize m.memory.peekByte m.nextAddress = kind at stays refused sized ⊢
  by_cases equality : r = .eq ∨ r = .ne
  · simp only [if_pos equality]
    split
    case h_1 is | h_2 is | h_3 is | h_4 is =>
      exact unsized _ (stays (comparesArrays_of_ne (by omega) (by omega)))
    case h_5 is =>
      obtain rfl : kind = 10 := UInt8.toNat_inj.1 is
      exact sized _ rfl rfl
    case h_6 is =>
      obtain rfl : kind = 12 := UInt8.toNat_inj.1 is
      refine sized _ rfl ?_
      rcases equality with rfl | rfl <;> rfl
    case h_7 ten twelve =>
      exact unsized _ (stays (comparesArrays_of_ne ten twelve))
  · simp only [if_neg equality]
    split
    case h_1 is | h_2 is | h_3 is | h_4 is =>
      exact unsized _ (stays (comparesArrays_of_ne (by omega) (by omega)))
    case h_5 is =>
      obtain rfl : kind = 10 := UInt8.toNat_inj.1 is
      exact sized _ rfl rfl
    case h_6 is =>
      obtain rfl : kind = 12 := UInt8.toNat_inj.1 is
      refine unsized _ (refused ?_)
      simpa [Relation.refuses] using equality
    case h_7 ten twelve =>
      exact unsized _ (stays (comparesArrays_of_ne ten twelve))

theorem goesOnAt_relation {op : Opcode} {r : Relation} (h : op.relation? = some r)
    (legible : m.memory.Legible m.nextAddress (OperandValue.size m.memory m.nextAddress .comparison)) :
    GoesOnAt (afterComparison r m.memory m.nextAddress) m (executeTable op) := by
  have lifted : GoesOnAt (afterComparison r m.memory m.nextAddress) m
      (liftM (compareTyped r) : Exec Unit) := (goesOnAt_compareTyped legible).lift
  cases op with
  | equ | neq | les | leq | grt | geq =>
    cases h
    exact lifted
  | _ => cases h

/-! ### All instructions -/

/-- What was fetched before belongs to the instruction. -/
theorem GoesOnAt.of_bind {x : EStateM ε Machine α} {f : α → EStateM ε Machine β} {v : α}
    (hx : x m = .ok v (m.movedTo b)) (h : GoesOnAt a (m.movedTo b) (f v)) :
    GoesOnAt a m (x >>= f) := by
  rw [GoesOnAt, bind_of_ok hx]
  exact h

/-- An instruction of the table that does not leave goes on behind its operands, whether it succeeds
or fails. -/
theorem goesOnAt_executeTable {op : Opcode}
    (code : Encoding.ofCode (m.memory.peekByte m.nextAddress) = .table op)
    (stays : op.leaves = false)
    (inside : op = .csp →
      StandardProcedure.ofCode? (m.memory.peekByte (m.nextAddress + 1)) ≠ some .exit)
    (legible : m.memory.Legible (m.nextAddress + 1)
      (Line.span m.memory (m.nextAddress + 1) op.operands)) :
    GoesOnAt (m.memory.following m.nextAddress) (m.movedTo (m.nextAddress + 1))
      (executeTable op) := by
  have next : m.nextAddress + (Line.decode m.memory m.nextAddress).length =
      (Line.decodeOperands m.memory (m.nextAddress + 1) op.operands).2 := by
    rw [Line.add_length, code]
    rfl
  have there : (m.movedTo (m.nextAddress + 1)).nextAddress = m.nextAddress + 1 :=
    nextAddress_movedTo
  -- Most opcodes take just the operands they are listed with; comparisons, constants and standard
  -- procedures read theirs in ways of their own.
  have takes (h : Takes op.operands (executeTable op)) :
      GoesOnAt (m.nextAddress + (Line.decode m.memory m.nextAddress).length)
        (m.movedTo (m.nextAddress + 1)) (executeTable op) := by
    have ends := h (m.movedTo (m.nextAddress + 1)) (by rw [there]; exact legible)
    rw [there] at ends
    rw [next]
    exact ends
  cases compares : op.relation? with
  | some r =>
    rw [Opcode.operands_of_relation? compares] at next legible
    have ends := goesOnAt_relation (m := m.movedTo (m.nextAddress + 1)) compares
      (by rw [there]; exact legible)
    rw [there] at ends
    rw [Memory.following_of_relation code compares, next]
    rw [afterComparison, UInt16.add_assoc] at ends
    exact ends
  | none =>
    cases op with
    | ldc =>
      have ends := goesOnAt_loadConstants (m := m.movedTo (m.nextAddress + 1))
        (by rw [there]; exact legible)
      rw [there, UInt16.add_assoc] at ends
      rw [Memory.following_of_ldc code]
      exact ends.lift
    | csp =>
      have ends := goesOnAt_callStandard (m := m.movedTo (m.nextAddress + 1))
        (by rw [there]; exact legible.mono (by simp [Line.span, Opcode.operands]))
        (by rw [there]; exact inside rfl)
      rw [there] at ends
      rw [Memory.following_of_table code (by decide) rfl, next]
      exact ends
    | lsa =>
      rw [Memory.following_of_table code (by decide) rfl]
      exact takes (takes_loadText false).lift
    | lpa =>
      rw [Memory.following_of_table code (by decide) rfl]
      exact takes (takes_loadText true).lift
    | equ | neq | les | leq | grt | geq => cases compares
    | ujp | fjp | efj | nfj | xjp | clp | cgp | cip | cbp | cxp | rnp | rbp => cases stays
    | _ =>
      rw [Memory.following_of_table code (by decide) rfl]
      exact takes (takes_operands rfl)

/-- An instruction that does not leave goes on behind its operands, whether it succeeds or fails. -/
theorem goesOnAt_executeNext (stays : ¬ m.memory.LeavesAt m.nextAddress)
    (legible : m.memory.Legible m.nextAddress
      (Line.decode m.memory m.nextAddress).length.toNat) :
    GoesOnAt (m.memory.following m.nextAddress) m executeNext := by
  -- Every opcode but the case jump has at most two operands, so their length is not cut off to a
  -- word.
  have short : (Encoding.ofCode (m.memory.peekByte m.nextAddress)).operands.length ≤ 2 ∧
      .cases ∉ (Encoding.ofCode (m.memory.peekByte m.nextAddress)).operands := by
    cases code : Encoding.ofCode (m.memory.peekByte m.nextAddress) with
    | table op =>
      refine Opcode.operands_short ?_
      rintro rfl
      exact absurd ⟨_, code, .inl rfl⟩ stays
    | _ => exact ⟨Nat.zero_le 2, nofun⟩
  rw [Line.toNat_length short.1 short.2 rfl] at legible
  have opcode := fetchByte_apply (legible.mono (Nat.le_add_right 1 _))
  have rest := legible.drop
  refine GoesOnAt.of_bind (raising_of_ok opcode) ?_
  unfold execute
  cases code : Encoding.ofCode (m.memory.peekByte m.nextAddress) with
  | table op =>
    rw [code] at rest
    refine goesOnAt_executeTable code (Bool.eq_false_iff.2 fun leaves => ?_) (fun is exits => ?_) rest
    · exact stays ⟨op, code, .inl leaves⟩
    · exact stays ⟨op, code, .inr ⟨is, exits⟩⟩
  | shortConstant n | shortLocal n | shortGlobal n | shortIndirect n | unused n =>
    have next : m.memory.following m.nextAddress = m.nextAddress + 1 := by
      rw [Memory.following, Line.add_length, code]
      rfl
    rw [next]
    exact goesOnAt_movedTo _

end Machine
end PSystem
