import PSystem.Listing
import PSystem.Proofs.CaseJumps

/-!
# Disassembling assembled code

An `Instruction` is an opcode with the operands that its encoding declares, and an `Item` of a procedure
is an instruction or a mark between instructions.  `Item.directives` emits it.  A listing that starts
where assembled code was placed decodes the emitted instructions one after another, each where it was
emitted, and ends behind the code: `listing_of_assembled`.

One operand at a time: `Draft.writes_operand` says which bytes an operand is emitted as, and
`decode_operand` that these bytes are decoded as the operand again.  Words stand at even offsets, so the
code has to be placed at an even address.
-/

namespace PSystem

/-! ## Instructions -/

/-- An operand as it is emitted. -/
inductive Operand where
  /-- An unsigned byte, or a count of levels or results. -/
  | byte (value : UInt8)
  /-- The label that a jump leads to. -/
  | label (label : Label)
  | big (value : Word)
  | word (value : Word)
  | text (characters : Bytes)
  | words (values : List Word)
  /-- A comparison type, with the size of its operands for arrays. -/
  | comparison (kind : UInt8) (size : Option Word)
  /-- The bounds of a case jump, its default and its targets. -/
  | cases (low high : Int) (default : Label) (targets : List Label)
  deriving DecidableEq, Repr

/-- An instruction as it is emitted. -/
structure Instruction where
  code : UInt8
  operands : List Operand
  deriving DecidableEq, Repr

/-- A part of a procedure. -/
inductive Item where
  | instruction (i : Instruction)
  /-- The label stands for the instruction that follows. -/
  | bind (label : Label)
  /-- The exit code starts here. -/
  | exit
  deriving DecidableEq, Repr

/-- Whether an operand is one of a kind. -/
def Operand.Fits : OperandKind → Operand → Prop
  | .byte, .byte _ => True
  | .level, .byte _ => True
  | .displacement, .label _ => True
  | .big, .big w => w < 0x8000
  | .word, .word _ => True
  | .text, .text cs => cs.length ≤ 255
  | .words, .words ws => ws.length ≤ 255
  | .comparison, .comparison kind none => comparesArrays kind = false
  | .comparison, .comparison kind (some w) => comparesArrays kind = true ∧ w < 0x8000
  | .cases, .cases low high _ targets =>
    (-0x8000 ≤ low ∧ low < 0x8000) ∧ (-0x8000 ≤ high ∧ high < 0x8000) ∧
      (targets.length : Int) = max 0 (high - low + 1)
  | _, _ => False

/-- An instruction has the operands that its opcode calls for. -/
def Instruction.Fits (i : Instruction) : Prop :=
  List.Forall₂ Operand.Fits (Encoding.ofCode i.code).operands i.operands

/-- How an operand that stands behind the opcode is emitted. -/
def Operand.directives : Operand → List Directive
  | .byte v => [.byte v]
  | .big w => [.big w]
  | .word w => [.word w]
  | .text cs => [.text cs]
  | .words ws => .byte (UInt8.ofNat ws.length) :: ws.map .word
  | .comparison kind none => [.byte kind]
  | .comparison kind (some w) => [.byte kind, .big w]
  | .label _ | .cases .. => []

/-- How an instruction is emitted.  Jumps are emitted as a whole. -/
def Instruction.directives (i : Instruction) : List Directive :=
  match i.operands with
  | [.label l] => [.branch i.code l]
  | [.cases low high default targets] => [.cases low high default targets]
  | operands => .op i.code :: operands.flatMap Operand.directives

/-- How a part of a procedure is emitted. -/
def Item.directives : Item → List Directive
  | instruction i => i.directives
  | bind label => [.bind label]
  | exit => [.exit]

/-- The instructions that are emitted from a draft on, each with its offset. -/
def emitted (d : Draft) : List Item → List (Nat × Instruction)
  | [] => []
  | .instruction i :: rest => (d.offset, i) :: emitted (i.directives.foldl Draft.apply d) rest
  | .bind label :: rest => emitted (d.apply (.bind label)) rest
  | .exit :: rest => emitted (d.apply .exit) rest

/-! ## Stored bytes -/

namespace Memory

variable {m : Memory} {a i : Nat} {b : UInt8} {xs ys bytes code : Bytes}

theorem Holds.peekByte (h : m.Holds (UInt16.ofNat a) bytes) (hb : bytes[i]? = some b) :
    m.peekByte (UInt16.ofNat (a + i)) = b := by
  obtain ⟨bound, rfl⟩ := List.getElem?_eq_some_iff.1 hb
  rw [UInt16.ofNat_add]
  exact h i bound

theorem Holds.of_prefix (h : m.Holds (UInt16.ofNat a) code) (stands : bytes <+: code.drop i) :
    m.Holds (UInt16.ofNat (a + i)) bytes := by
  intro k bound
  rw [← UInt16.ofNat_add, Nat.add_assoc]
  exact h.peekByte (Bytes.getElem?_of_stands stands bound)

theorem Holds.left (h : m.Holds (UInt16.ofNat a) (xs ++ ys)) : m.Holds (UInt16.ofNat a) xs :=
  Holds.of_prefix (i := 0) h (List.prefix_append xs ys)

theorem Holds.right (h : m.Holds (UInt16.ofNat a) (xs ++ ys)) : m.Holds (UInt16.ofNat (a + xs.length)) ys :=
  h.of_prefix (by rw [List.drop_left])

theorem Holds.head (h : m.Holds (UInt16.ofNat a) (b :: bytes)) : m.peekByte (UInt16.ofNat a) = b :=
  Holds.peekByte (i := 0) h rfl

theorem Holds.tail (h : m.Holds (UInt16.ofNat a) (b :: bytes)) : m.Holds (UInt16.ofNat (a + 1)) bytes :=
  Holds.of_prefix (i := 1) h List.prefix_rfl

theorem Holds.word {w : Word} (h : m.Holds (UInt16.ofNat a) (m.order.bytes w)) :
    m.peekWord (UInt16.ofNat a) = w := by
  have second : m.peekByte (UInt16.ofNat a + 1) = _ := UInt16.ofNat_add a 1 ▸ h.tail.head
  rw [peekWord, h.head, second]
  exact ByteOrder.join_split m.order w

theorem Holds.text (h : m.Holds (UInt16.ofNat a) bytes) :
    ((List.range bytes.length).map fun i => m.peekByte (UInt16.ofNat a + UInt16.ofNat i)) = bytes := by
  apply List.ext_getElem (by simp)
  intro i _ bound
  rw [List.getElem_map, List.getElem_range, ← UInt16.ofNat_add]
  exact h.peekByte (List.getElem?_eq_getElem bound)

theorem Holds.words {ws : List Word} (h : m.Holds (UInt16.ofNat a) (ws.flatMap m.order.bytes)) :
    ((List.range ws.length).map fun i => m.peekWord (UInt16.ofNat a + UInt16.ofNat (2 * i))) = ws := by
  induction ws generalizing a with
  | nil => rfl
  | cons w ws ih =>
    rw [List.flatMap_cons] at h
    have later := ih (a := a + 2) h.right
    have place (i : Nat) : UInt16.ofNat a + UInt16.ofNat (2 * (i + 1)) =
        UInt16.ofNat (a + 2) + UInt16.ofNat (2 * i) := by
      rw [← UInt16.ofNat_add, ← UInt16.ofNat_add]
      congr 1
      omega
    rw [List.length_cons, List.range_succ_eq_map, List.map_cons, List.map_map]
    congr 1
    · exact (congrArg m.peekWord (UInt16.add_zero _)).trans h.left.word
    · refine Eq.trans (List.map_congr_left fun i _ => ?_) later
      exact congrArg m.peekWord (place i)

end Memory

/-! ## Operands behind the opcode -/

/-- The bytes of an operand at an offset. -/
def Operand.bytes (order : ByteOrder) (offset : Nat) : Operand → Bytes
  | .byte v => [v]
  | .big w => bigBytes w
  | .word w => padding offset ++ order.bytes w
  | .text cs => UInt8.ofNat cs.length :: cs
  | .words [] => [0]
  | .words (w :: ws) =>
    UInt8.ofNat (ws.length + 1) :: (padding (offset + 1) ++ (w :: ws).flatMap order.bytes)
  | .comparison kind none => [kind]
  | .comparison kind (some w) => kind :: bigBytes w
  | .label _ | .cases .. => []

namespace Draft

variable {d : Draft}

/-- What an operand is emitted as. -/
theorem writes_operand (d : Draft) (x : Operand) :
    Writes (x.bytes d.order d.offset) d (x.directives.foldl apply d) := by
  cases x with
  | byte v => exact writes_push d v
  | label l => exact writes_nothing d
  | big w => exact writes_big d w
  | word w => exact writes_word d w
  | text cs => exact writes_text d cs
  | words ws =>
    cases ws with
    | nil => exact writes_push d 0
    | cons w ws =>
      have count := writes_push d (UInt8.ofNat (ws.length + 1))
      have rest := writes_words (d.push (UInt8.ofNat (ws.length + 1))) w ws
      rw [count.offset, List.length_singleton] at rest
      exact count.trans rest
  | comparison kind size =>
    cases size with
    | none => exact writes_push d kind
    | some w => exact (writes_push d kind).trans (writes_big _ w)
  | cases low high default targets => exact writes_nothing d

end Draft

/-- The bytes of operands that follow each other. -/
def operandBytes (order : ByteOrder) : (offset : Nat) → List Operand → Bytes
  | _, [] => []
  | offset, x :: xs =>
    x.bytes order offset ++ operandBytes order (offset + (x.bytes order offset).length) xs

theorem Draft.writes_operands (d : Draft) (xs : List Operand) :
    Draft.Writes (operandBytes d.order d.offset xs) d
      ((xs.flatMap Operand.directives).foldl Draft.apply d) := by
  induction xs generalizing d with
  | nil => exact writes_nothing d
  | cons x xs ih =>
    have first := writes_operand d x
    have rest := ih (x.directives.foldl apply d)
    rw [first.order, first.offset] at rest
    rw [List.flatMap_cons, List.foldl_append]
    exact first.trans rest

/-! ## Decoding operands -/

/-- What a listing shows for an operand; `leads` says which displacements stand for a label. -/
inductive Operand.Shown (leads : Label → Int → Address → Prop) : Operand → OperandValue → Prop
  | byte (v : UInt8) : Shown leads (.byte v) (.byte v)
  | label {l : Label} {distance : Int} {origin : Address} (h : leads l distance origin) :
    Shown leads (.label l) (.displacement distance origin)
  | big (w : Word) : Shown leads (.big w) (.big w)
  | word (w : Word) : Shown leads (.word w) (.word w)
  | text (cs : Bytes) : Shown leads (.text cs) (.text cs)
  | words (ws : List Word) : Shown leads (.words ws) (.words ws)
  | comparison (kind : UInt8) (size : Option Word) :
    Shown leads (.comparison kind size) (.comparison kind size)
  | cases (low high : Int) (default : Label) (targets : List Label) :
    Shown leads (.cases low high default targets) (.cases low high)

/-- The text of an operand of an instruction with a given opcode. -/
def Operand.Written (leads : Label → Int → Address → Prop) (code : UInt8) : Operand → String → Prop
  -- calls of standard procedures show their names
  | .byte v, t => t = match Encoding.ofCode code, StandardProcedure.ofCode? v with
    | .table .csp, some procedure => procedure.name
    | _, _ => toString v.toNat
  | .label l, t => ∃ distance origin, leads l distance origin ∧
      t = if 0 ≤ distance then Hex.pad 4 (origin + Word.ofSigned distance).toNat else s!"jtab{distance}"
  | .big w, t => t = toString w.toNat
  | .word w, t => t = toString (Word.signed w)
  | .text cs, t => t = "'" ++ String.ofList (cs.map fun c => Char.ofNat c.toNat) ++ "'"
  | .words ws, t => t = " ".intercalate (ws.map fun w => Hex.pad 4 w.toNat)
  | .comparison kind none, t => t = toString kind.toNat
  | .comparison kind (some size), t => t = s!"{kind.toNat} {size.toNat}"
  | .cases low high _ _, t => t = s!"{low}..{high}"

/-- The text of an instruction whose operands have the given texts.  Opcodes that contain their operand show it
as a number. -/
def Instruction.text (x : Instruction) (operands : List String) : String :=
  match Encoding.ofCode x.code with
  | .shortConstant n | .shortLocal n | .shortGlobal n | .shortIndirect n =>
    s!"{(Encoding.ofCode x.code).mnemonic} {n.toNat}"
  | .unused _ => (Encoding.ofCode x.code).mnemonic
  | .table _ =>
    if operands.isEmpty then (Encoding.ofCode x.code).mnemonic
    else (Encoding.ofCode x.code).mnemonic ++ " " ++ ", ".intercalate operands

theorem Operand.Shown.written {leads : Label → Int → Address → Prop} {x : Operand} {value : OperandValue}
    (h : x.Shown leads value) (code : UInt8) :
    x.Written leads code (value.render (Encoding.ofCode code)) := by
  cases h with
  | label h => exact ⟨_, _, h, rfl⟩
  | comparison kind size => cases size <;> rfl
  | byte | big | word | text | words | cases => rfl

namespace OperandValue

variable {m : Memory} {a base i : Nat} {leads : Label → Int → Address → Prop}

/-- The high part of a long operand, with its mark. -/
theorem toNat_marked {b : UInt8} (small : b < 0x80) : (0x80 ||| b : UInt8).toNat = 0x80 + b.toNat := by
  have below : b.toNat < 2 ^ 7 := UInt8.lt_iff_toNat_lt.1 small
  rw [UInt8.toNat_or]
  exact (Nat.two_pow_add_eq_or_of_lt below 1).symm

theorem unmark {b : UInt8} (small : b < 0x80) :
    (0x80 ||| b : UInt8).toUInt16 &&& 0x7F = b.toUInt16 := by
  have below : b.toNat < 2 ^ 7 := UInt8.lt_iff_toNat_lt.1 small
  apply UInt16.toNat_inj.1
  rw [UInt16.toNat_and, UInt8.toNat_toUInt16, UInt8.toNat_toUInt16, toNat_marked small]
  refine (Nat.and_two_pow_sub_one_eq_mod _ 7).trans ?_
  omega

theorem short_byte {w : Word} (short : w < 0x80) : w.toUInt8 < 0x80 ∧ w.toUInt8.toUInt16 = w := by
  have below : w.toNat < 0x80 := UInt16.lt_iff_toNat_lt.1 short
  constructor
  · rw [UInt8.lt_iff_toNat_lt, UInt16.toNat_toUInt8]
    exact (Nat.mod_le _ _).trans_lt below
  · apply UInt16.toNat_inj.1
    rw [UInt8.toNat_toUInt16, UInt16.toNat_toUInt8, Nat.mod_eq_of_lt (by omega)]

theorem high_byte_lt {w : Word} (small : w < 0x8000) : (w >>> 8).toUInt8 < 0x80 := by
  have below : w.toNat < 0x8000 := UInt16.lt_iff_toNat_lt.1 small
  rw [UInt8.lt_iff_toNat_lt, UInt16.toNat_toUInt8, UInt16.toNat_shiftRight]
  show w.toNat >>> 8 % 256 < 128
  rw [Nat.shiftRight_eq_div_pow]
  omega

theorem peekBig_of_holds {w : Word} (h : m.Holds (UInt16.ofNat a) (bigBytes w)) (small : w < 0x8000) :
    peekBig m (UInt16.ofNat a) = (w, UInt16.ofNat (a + (bigBytes w).length)) := by
  have next : UInt16.ofNat (a + 1) = UInt16.ofNat a + 1 := UInt16.ofNat_add a 1
  -- A word below 128 is one byte with the top bit clear; any other is two, the first with it set.
  unfold bigBytes at h ⊢
  unfold peekBig
  split at h
  · rename_i short
    obtain ⟨below, value⟩ := short_byte short
    rw [if_pos short, h.head]
    dsimp only
    rw [if_pos below, value]
    exact congrArg (Prod.mk w) next.symm
  · rename_i long
    have below := high_byte_lt small
    have second := h.tail.head
    rw [next] at second
    have marked : ¬ ((0x80 : UInt8) ||| (w >>> 8).toUInt8) < 0x80 := by
      rw [UInt8.lt_iff_toNat_lt, toNat_marked below]
      exact Nat.not_lt.2 (Nat.le_add_right ..)
    rw [if_neg long, h.head]
    dsimp only
    rw [if_neg marked, second, unmark below]
    exact congrArg₂ Prod.mk (ByteOrder.join_split .big w) (UInt16.ofNat_add a 2).symm

theorem toNat_count {n : Nat} (few : n ≤ 255) : (UInt8.ofNat n).toNat = n :=
  UInt8.toNat_ofNat_of_lt' (show n < 256 by omega)

theorem toUInt16_count {n : Nat} (few : n ≤ 255) : (UInt8.ofNat n).toUInt16 = UInt16.ofNat n := by
  apply UInt16.toNat_inj.1
  rw [UInt8.toNat_toUInt16, toNat_count few, UInt16.toNat_ofNat_of_lt' (show n < 0x10000 by omega)]

theorem decode_text {cs : Bytes} (h : m.Holds (UInt16.ofNat a) (UInt8.ofNat cs.length :: cs))
    (few : cs.length ≤ 255) :
    decode m (UInt16.ofNat a) .text = (.text cs, UInt16.ofNat (a + (cs.length + 1))) := by
  have next : UInt16.ofNat (a + 1) = UInt16.ofNat a + 1 := UInt16.ofNat_add a 1
  unfold decode
  dsimp only
  rw [h.head, toNat_count few, toUInt16_count few, ← next, h.tail.text, ← UInt16.ofNat_add, Nat.add_assoc,
    Nat.add_comm 1]

/-- A list of words is decoded from its count and its words behind the padding. -/
theorem decode_words {w : Word} {ws : List Word} {pad : Bytes}
    (h : m.Holds (UInt16.ofNat a) (UInt8.ofNat (ws.length + 1) :: (pad ++ (w :: ws).flatMap m.order.bytes)))
    (few : ws.length + 1 ≤ 255)
    (aligned : alignAddress (UInt16.ofNat (a + 1)) = UInt16.ofNat (a + 1 + pad.length)) :
    decode m (UInt16.ofNat a) .words =
      (.words (w :: ws), UInt16.ofNat (a + (pad.length + 2 * (ws.length + 1) + 1))) := by
  have next : UInt16.ofNat (a + 1) = UInt16.ofNat a + 1 := UInt16.ofNat_add a 1
  have some_ : ¬ (UInt8.ofNat (ws.length + 1) == 0) = true := by
    rw [beq_iff_eq, ← UInt8.toNat_inj, toNat_count few]
    exact Nat.succ_ne_zero _
  have twice : (2 : UInt16) * UInt16.ofNat (ws.length + 1) = UInt16.ofNat (2 * (ws.length + 1)) :=
    (UInt16.ofNat_mul 2 _).symm
  have read := h.tail.right.words
  rw [List.length_cons] at read
  unfold decode
  dsimp only
  rw [h.head, if_neg some_, toNat_count few, toUInt16_count few, ← next, aligned, read, twice,
    ← UInt16.ofNat_add]
  congr 2
  omega

/-- A comparison type is decoded from its byte and, for arrays, the size behind it. -/
theorem decode_comparison {kind : UInt8} {size : Option Word}
    (h : m.Holds (UInt16.ofNat a) ((Operand.comparison kind size).bytes m.order i))
    (fits : (Operand.comparison kind size).Fits .comparison) :
    decode m (UInt16.ofNat a) .comparison = (.comparison kind size,
      UInt16.ofNat (a + ((Operand.comparison kind size).bytes m.order i).length)) := by
  have next : UInt16.ofNat (a + 1) = UInt16.ofNat a + 1 := UInt16.ofNat_add a 1
  unfold decode
  dsimp only
  cases size with
  | none =>
    have simple : comparesArrays kind = false := fits
    rw [Memory.Holds.head h, if_neg (by rw [simple]; exact Bool.false_ne_true), ← next]
    rfl
  | some w =>
    obtain ⟨arrays, small⟩ : comparesArrays kind = true ∧ w < 0x8000 := fits
    rw [Memory.Holds.head h, if_pos arrays, ← next, peekBig_of_holds (Memory.Holds.tail h) small,
      Nat.add_assoc, Nat.add_comm 1]
    rfl

/-- An operand that stands behind its opcode is decoded from its bytes. -/
theorem decode_operand {kind : OperandKind} {x : Operand} (h : m.Holds (UInt16.ofNat (base + i)) (x.bytes m.order i))
    (even : base % 2 = 0) (fits : x.Fits kind) (apart : kind ≠ .displacement) (apart' : kind ≠ .cases) :
    ∃ value, decode m (UInt16.ofNat (base + i)) kind =
        (value, UInt16.ofNat (base + i + (x.bytes m.order i).length)) ∧
      x.Shown leads value := by
  have next (n : Nat) : UInt16.ofNat n + 1 = UInt16.ofNat (n + 1) := (UInt16.ofNat_add n 1).symm
  have aligned (n k : Nat) (hn : n = base + k) :
      alignAddress (UInt16.ofNat n) = UInt16.ofNat (n + (padding k).length) := by
    rw [Machine.alignAddress_ofNat, length_padding]
    congr 2
    omega
  -- One case for each kind of operand. Displacements and case tables need the labels of the body
  -- and are decoded with their directives.
  cases kind with
  | displacement => exact absurd rfl apart
  | cases => exact absurd rfl apart'
  | byte | level =>
    cases x with
    | byte v =>
      refine ⟨.byte v, ?_, .byte v⟩
      show (OperandValue.byte (m.peekByte _), _) = _
      rw [h.head, next]
      rfl
    | _ => exact fits.elim
  | big =>
    cases x with
    | big w =>
      refine ⟨.big w, ?_, .big w⟩
      show (OperandValue.big (peekBig m _).1, (peekBig m _).2) = _
      rw [peekBig_of_holds h fits]
      rfl
    | _ => exact fits.elim
  | word =>
    cases x with
    | word w =>
      refine ⟨.word w, ?_, .word w⟩
      show (OperandValue.word (m.peekWord (alignAddress _)), alignAddress _ + 2) = _
      rw [aligned _ _ rfl, h.right.word]
      refine congrArg (Prod.mk _) ?_
      rw [Operand.bytes, List.length_append, ← Nat.add_assoc]
      exact (UInt16.ofNat_add _ 2).symm
    | _ => exact fits.elim
  | text =>
    cases x with
    | text cs => exact ⟨.text cs, decode_text h fits, .text cs⟩
    | _ => exact fits.elim
  | words =>
    cases x with
    -- An empty list has no padding after its count, so it is not decoded as the others are.
    | words ws =>
      refine ⟨.words ws, ?_, .words ws⟩
      cases ws with
      | nil =>
        show (if (m.peekByte _ == 0) = true then _ else _ : OperandValue × Address) = _
        rw [h.head, next]
        rfl
      | cons w ws =>
        rw [decode_words h fits (aligned _ (i + 1) (Nat.add_assoc ..))]
        simp only [Operand.bytes, List.length_cons, List.length_append, ProcedureSpec.length_words]
    | _ => exact fits.elim
  | comparison =>
    cases x with
    | comparison kind size =>
      exact ⟨.comparison kind size, decode_comparison h fits, .comparison kind size⟩
    | _ => exact fits.elim

end OperandValue

/-! ## Decoding instructions -/

/-- Jumps have nothing but their displacement, and only one opcode has a case table. -/
theorem Encoding.operands_cases (code : UInt8) :
    (OperandKind.displacement ∉ (Encoding.ofCode code).operands ∧
        OperandKind.cases ∉ (Encoding.ofCode code).operands) ∨
      (Encoding.ofCode code).operands = [.displacement] ∨
      (Encoding.ofCode code).operands = [.cases] ∧ code = Opcode.xjp.code := by
  have all : ∀ n : Fin 256, (OperandKind.displacement ∉ (Encoding.ofCode (UInt8.ofNat n)).operands ∧
        OperandKind.cases ∉ (Encoding.ofCode (UInt8.ofNat n)).operands) ∨
      (Encoding.ofCode (UInt8.ofNat n)).operands = [.displacement] ∨
      (Encoding.ofCode (UInt8.ofNat n)).operands = [.cases] ∧
        UInt8.ofNat n = Opcode.xjp.code := by decide +kernel
  have this := all ⟨code.toNat, code.toNat_lt⟩
  rwa [UInt8.ofNat_toNat] at this

namespace Line

variable {m : Memory} {base i : Nat} {leads : Label → Int → Address → Prop}

theorem decodeOperands_of_holds {kinds : List OperandKind} {xs : List Operand}
    (h : m.Holds (UInt16.ofNat (base + i)) (operandBytes m.order i xs)) (even : base % 2 = 0)
    (fits : List.Forall₂ Operand.Fits kinds xs) (apart : .displacement ∉ kinds)
    (apart' : .cases ∉ kinds) :
    ∃ values, decodeOperands m (UInt16.ofNat (base + i)) kinds =
        (values, UInt16.ofNat (base + i + (operandBytes m.order i xs).length)) ∧
      List.Forall₂ (Operand.Shown leads) xs values := by
  induction fits generalizing i with
  | nil => exact ⟨[], rfl, .nil⟩
  | @cons kind x kinds xs fit fits ih =>
    rw [List.mem_cons, not_or] at apart apart'
    obtain ⟨value, decoded, shown⟩ :=
      OperandValue.decode_operand h.left even fit (Ne.symm apart.1) (Ne.symm apart'.1)
    have later := h.right
    rw [Nat.add_assoc] at later
    obtain ⟨values, decoded', shown'⟩ := ih later apart.2 apart'.2
    refine ⟨value :: values, ?_, .cons shown shown'⟩
    have place : base + i + (operandBytes m.order i (x :: xs)).length =
        base + (i + (x.bytes m.order i).length) +
          (operandBytes m.order (i + (x.bytes m.order i).length) xs).length := by
      rw [operandBytes, List.length_append]
      omega
    rw [Nat.add_assoc] at decoded
    rw [decodeOperands, decoded]
    dsimp only
    rw [decoded', place]

/-- A line shows an instruction that starts at an address. -/
structure Lists (leads : Label → Int → Address → Prop) (a : Address) (x : Instruction) (line : Line) :
    Prop where
  address : line.address = a
  opcode : line.opcode = x.code
  operands : List.Forall₂ (Operand.Shown leads) x.operands line.operands
  text : ∃ texts, List.Forall₂ (Operand.Written leads x.code) x.operands texts ∧ line.text = x.text texts

/-- Text is made of opcode and operands. -/
theorem lists_of_shown {a : Address} {x : Instruction} {line : Line} (address : line.address = a)
    (opcode : line.opcode = x.code) (shown : List.Forall₂ (Operand.Shown leads) x.operands line.operands) :
    line.Lists leads a x := by
  refine ⟨address, opcode, shown, line.operands.map (·.render (Encoding.ofCode x.code)), ?_, ?_⟩
  · exact List.forall₂_map_right_iff.2 (shown.imp fun _ _ one => one.written x.code)
  · rw [text, encoding, mnemonic, encoding, opcode, Instruction.text]
    cases Encoding.ofCode x.code with
    | table _ => simp only [List.isEmpty_map]
    | _ => rfl

/-- The line that is decoded at an address shows an instruction, and a listing goes on at `next`. -/
structure Decodes (m : Memory) (leads : Label → Int → Address → Prop) (a next : Address)
    (x : Instruction) : Prop where
  lists : (decode m a).Lists leads a x
  next : a + (decode m a).length = next

theorem decodes_of_decodeOperands {a next : Address} {x : Instruction} {values : List OperandValue}
    (opcode : m.peekByte a = x.code)
    (decoded : decodeOperands m (a + 1) (Encoding.ofCode x.code).operands = (values, next))
    (shown : List.Forall₂ (Operand.Shown leads) x.operands values) : Decodes m leads a next x := by
  have line : decode m a = { address := a, opcode := x.code, operands := values, length := next - a } := by
    unfold decode
    rw [opcode]
    dsimp only
    rw [decoded]
  constructor
  · rw [line]
    exact lists_of_shown rfl rfl shown
  · rw [line, UInt16.add_comm]
    exact UInt16.sub_add_cancel next a

end Line

/-! ## Assembled instructions -/

/-- What a listing shows for the displacement to a label in a body that was placed at `base`: the
distance to its offset, or the entry of the jump table that holds its offset. -/
def Body.Reaches (order : ByteOrder) (directives : List Directive) (body : Body) (base : Nat) (l : Label)
    (distance : Int) (origin : Address) : Prop :=
  ∃ target, Bound order directives l target ∧
    (0 ≤ distance ∧ origin + Word.ofSigned distance = UInt16.ofNat (base + target) ∨
      ∃ k, body.jumpTable[k]? = some target ∧ distance = -((10 + 2 * k : Nat) : Int))

namespace Body

variable {before after : List Directive} {body : Body} {m : Memory} {base : Nat}
  {leads : Label → Int → Address → Prop}

/-- An instruction without a jump is listed with its operands. -/
theorem decodes_plain {x : Instruction} {offset : Nat} (even : base % 2 = 0) (fits : x.Fits)
    (apart : .displacement ∉ (Encoding.ofCode x.code).operands)
    (apart' : .cases ∉ (Encoding.ofCode x.code).operands)
    (holds : m.Holds (UInt16.ofNat (base + offset)) (x.code :: operandBytes m.order (offset + 1) x.operands)) :
    Line.Decodes m leads (UInt16.ofNat (base + offset))
      (UInt16.ofNat (base + (offset + (1 + (operandBytes m.order (offset + 1) x.operands).length)))) x := by
  have tail := holds.tail
  rw [Nat.add_assoc] at tail
  obtain ⟨values, decoded, shown⟩ := Line.decodeOperands_of_holds tail even fits apart apart'
  refine Line.decodes_of_decodeOperands holds.head ?_ shown
  rw [← Nat.add_assoc, UInt16.ofNat_add] at decoded
  refine decoded.trans (congrArg (Prod.mk values) (congrArg UInt16.ofNat ?_))
  omega

/-- A jump instruction is listed with the displacement to its label. -/
theorem decodes_branch {code : UInt8} {l : Label}
    (assembled : assemble m.order (before ++ .branch code l :: after) = .ok body)
    (placed : m.Holds (UInt16.ofNat base) body.code)
    (kinds : (Encoding.ofCode code).operands = [.displacement]) :
    Line.Decodes m (Reaches m.order (before ++ .branch code l :: after) body base)
      (UInt16.ofNat (base + (draft m.order before).offset))
      (UInt16.ofNat (base + ((draft m.order before).offset + 2))) ⟨code, [.label l]⟩ := by
  have jump : ⟨(draft m.order before).offset, code, l⟩ ∈
      jumps m.order (before ++ .branch code l :: after) := mem_jumps rfl
  obtain ⟨target, byte, bound, -, opcode, displacement, encodes⟩ := assemble_spec assembled jump
  dsimp only at opcode displacement encodes bound
  generalize (draft m.order before).offset = offset at opcode displacement encodes ⊢
  have next (n : Nat) : UInt16.ofNat (base + n) + 1 = UInt16.ofNat (base + (n + 1)) :=
    (UInt16.ofNat_add (base + n) 1).symm
  have decoded : Line.decodeOperands m (UInt16.ofNat (base + offset) + 1)
      (Encoding.ofCode code).operands = ([.displacement (signedByte byte)
        (UInt16.ofNat (base + (offset + 2)))], UInt16.ofNat (base + (offset + 2))) := by
    rw [kinds, next]
    unfold Line.decodeOperands OperandValue.decode
    dsimp only
    rw [placed.peekByte displacement, next]
    rfl
  refine Line.decodes_of_decodeOperands (placed.peekByte opcode) decoded (.cons (.label ?_) .nil)
  refine ⟨target, bound, ?_⟩
  -- A near label is ahead of the instruction; any other goes through the jump table of the
  -- procedure.
  rcases encodes with ⟨ahead, near, rfl⟩ | ⟨k, entry, few, rfl⟩
  · refine .inl ?_
    rw [Machine.signedByte_ahead (by omega), Machine.ofSigned_natCast, ← UInt16.ofNat_add]
    exact ⟨Int.natCast_nonneg _, congrArg UInt16.ofNat (by omega)⟩
  · exact .inr ⟨k, entry, Machine.signedByte_entry few⟩

/-- A case jump is listed with its bounds, and its default jump and its words belong to it. -/
theorem decodes_cases {low high : Int} {default : Label} {targets : List Label}
    (assembled : assemble m.order (before ++ .cases low high default targets :: after) = .ok body)
    (placed : m.Holds (UInt16.ofNat base) body.code) (even : base % 2 = 0)
    (lowest : -0x8000 ≤ low ∧ low < 0x8000) (highest : -0x8000 ≤ high ∧ high < 0x8000)
    (counted : (targets.length : Int) = max 0 (high - low + 1)) :
    Line.Decodes m leads (UInt16.ofNat (base + (draft m.order before).offset))
      (UInt16.ofNat (base +
        ((draft m.order before).apply (.cases low high default targets)).offset))
      ⟨Opcode.xjp.code, [.cases low high default targets]⟩ := by
  obtain ⟨-, spec⟩ := caseJump_spec assembled
  have stop : ((draft m.order before).apply (.cases low high default targets)).offset =
      ((draft m.order before).bounds low high).offset + 2 + 2 * targets.length := by
    rw [Draft.apply_cases, Draft.offset_foldl_caseWord, Draft.offset_branch]
  have opcode := (placed.of_prefix spec.opcode).head
  have bounds := placed.of_prefix spec.bounds
  have place := spec.place
  rw [stop, ← place]
  generalize (draft m.order before).offset = offset at opcode bounds ⊢
  -- The bounds are on the next even address. The body starts at an even one, so its own offsets
  -- tell which.
  have aligned : alignAddress (UInt16.ofNat (base + offset) + 1) =
      UInt16.ofNat (base + (offset + 1 + (offset + 1) % 2)) := by
    rw [show UInt16.ofNat (base + offset) + 1 = UInt16.ofNat (base + offset + 1) from
      (UInt16.ofNat_add _ 1).symm, Machine.alignAddress_ofNat]
    congr 1
    omega
  generalize offset + 1 + (offset + 1) % 2 = x at aligned bounds ⊢
  have first := bounds.left.word
  have second : m.peekWord (UInt16.ofNat (base + x) + 2) = Word.ofSigned high := by
    rw [show UInt16.ofNat (base + x) + 2 = UInt16.ofNat (base + x + 2) from
      (UInt16.ofNat_add _ 2).symm]
    exact bounds.right.word
  -- The number of targets is what the bounds leave room for, so the lister skips just the table.
  have entries : UInt16.ofNat (high - low + 1).toNat = UInt16.ofNat targets.length := by
    congr 1
    omega
  have decoded : Line.decodeOperands m (UInt16.ofNat (base + offset) + 1)
      (Encoding.ofCode Opcode.xjp.code).operands =
        ([.cases low high], UInt16.ofNat (base + (x + 6 + 2 * targets.length))) := by
    have kinds : (Encoding.ofCode Opcode.xjp.code).operands = [.cases] := rfl
    rw [kinds]
    unfold Line.decodeOperands OperandValue.decode
    dsimp only
    rw [aligned, first, second, Machine.signed_ofSigned lowest.1 lowest.2,
      Machine.signed_ofSigned highest.1 highest.2, entries]
    have sum : base + (x + 6 + 2 * targets.length) = base + x + 6 + 2 * targets.length := by omega
    rw [sum, UInt16.ofNat_add _ (2 * targets.length), UInt16.ofNat_add _ 6, UInt16.ofNat_mul]
    rfl
  exact Line.decodes_of_decodeOperands opcode decoded (.cons (.cases ..) .nil)

/-- An instruction without a jump is emitted as its opcode and its operands. -/
theorem directives_of_plain {x : Instruction} (fits : x.Fits)
    (apart : .displacement ∉ (Encoding.ofCode x.code).operands)
    (apart' : .cases ∉ (Encoding.ofCode x.code).operands) :
    x.directives = .op x.code :: x.operands.flatMap Operand.directives := by
  unfold Instruction.directives
  unfold Instruction.Fits at fits
  split
  · rename_i l eq
    rw [eq] at fits
    obtain ⟨kind, kinds, fit, -, eq'⟩ := List.forall₂_cons_right_iff.1 fits
    rw [eq', List.mem_cons, not_or] at apart
    cases kind with
    | displacement => exact absurd rfl apart.1
    | _ => exact fit.elim
  · rename_i low high default targets eq
    rw [eq] at fits
    obtain ⟨kind, kinds, fit, -, eq'⟩ := List.forall₂_cons_right_iff.1 fits
    rw [eq', List.mem_cons, not_or] at apart'
    cases kind with
    | cases => exact absurd rfl apart'.1
    | _ => exact fit.elim
  · rfl

theorem operand_of_fits_singleton {kind : OperandKind} {operands : List Operand}
    (fits : List.Forall₂ Operand.Fits [kind] operands) : ∃ x, operands = [x] ∧ x.Fits kind := by
  obtain ⟨x, rest, fit, none_, eq⟩ := List.forall₂_cons_left_iff.1 fits
  cases none_
  exact ⟨x, eq, fit⟩

/-- An assembled instruction is listed, and the listing goes on where the next one was emitted. -/
theorem decodes_of_assembled {x : Instruction} (fits : x.Fits)
    (assembled : assemble m.order (before ++ (x.directives ++ after)) = .ok body)
    (placed : m.Holds (UInt16.ofNat base) body.code) (even : base % 2 = 0) :
    Line.Decodes m (Reaches m.order (before ++ (x.directives ++ after)) body base)
      (UInt16.ofNat (base + (draft m.order before).offset))
      (UInt16.ofNat (base + (x.directives.foldl Draft.apply (draft m.order before)).offset)) x := by
  obtain ⟨code, operands⟩ := x
  rcases Encoding.operands_cases code with ⟨apart, apart'⟩ | kinds | ⟨kinds, rfl⟩
  · -- the opcode and its operands stand where they were written
    have directives := directives_of_plain fits apart apart'
    have opcode := Draft.writes_op (draft m.order before) code
    have writes := opcode.trans (Draft.writes_operands ((draft m.order before).op code) operands)
    rw [opcode.order, opcode.offset, order_draft] at writes
    have emits : (⟨code, operands⟩ : Instruction).directives.foldl Draft.apply (draft m.order before) =
        (operands.flatMap Operand.directives).foldl Draft.apply ((draft m.order before).op code) := by
      rw [directives]
      rfl
    rw [← emits] at writes
    have grows : ((⟨code, operands⟩ : Instruction).directives.foldl Draft.apply
        (draft m.order before)).Grows
          (draft m.order (before ++ ((⟨code, operands⟩ : Instruction).directives ++ after))) := by
      simp only [draft, List.foldl_append]
      exact Draft.foldl_related Draft.grows_apply _ after
    have holds := placed.of_prefix (prefix_of_writes assembled (inside_draft ..) writes grows)
    rw [writes.offset, List.length_append]
    exact decodes_plain even fits apart apart' holds
  · unfold Instruction.Fits at fits
    dsimp only at fits
    rw [kinds] at fits
    obtain ⟨y, rfl, fit⟩ := operand_of_fits_singleton fits
    cases y with
    | label l =>
      rw [show ((⟨code, [.label l]⟩ : Instruction).directives.foldl Draft.apply
        (draft m.order before)).offset = (draft m.order before).offset + 2 from
          Draft.offset_branch ..]
      exact decodes_branch assembled placed kinds
    | _ => exact fit.elim
  · unfold Instruction.Fits at fits
    dsimp only at fits
    rw [kinds] at fits
    obtain ⟨y, rfl, fit⟩ := operand_of_fits_singleton fits
    cases y with
    | cases low high default targets =>
      obtain ⟨lowest, highest, counted⟩ := fit
      exact decodes_cases assembled placed even lowest highest counted
    | _ => exact fit.elim

end Body

/-! ## Assembled procedures -/

namespace Listing

variable {m : Memory} {base : Nat} {body : Body}

/-- The directives of a procedure. -/
def source (items : List Item) : List Directive :=
  items.flatMap Item.directives

/-- Lines for the instructions that are emitted behind others, by induction on the parts of the
procedure that are left. -/
theorem lists_of_draft {before : List Directive} {items : List Item}
    {leads : Label → Int → Address → Prop} (fits : ∀ x, .instruction x ∈ items → x.Fits)
    (assembled : Body.assemble m.order (before ++ source items) = .ok body)
    (placed : m.Holds (UInt16.ofNat base) body.code) (even : base % 2 = 0)
    (hleads : leads = Body.Reaches m.order (before ++ source items) body base) :
    let start := UInt16.ofNat (base + (draft m.order before).offset)
    let lines := linear m start (emitted (draft m.order before) items).length
    List.Forall₂ (fun x line => line.Lists leads (UInt16.ofNat (base + x.1)) x.2)
        (emitted (draft m.order before) items) lines ∧
      lines.foldl (fun a line => a + line.length) start = UInt16.ofNat (base + body.code.length) := by
  intro start lines
  -- The induction moves each item into what has been drafted before, since where a line is listed
  -- depends only on that.
  induction items generalizing before with
  | nil =>
    refine ⟨.nil, ?_⟩
    rw [Body.length_code assembled, source, List.flatMap_nil, List.append_nil]
    rfl
  | cons item items ih =>
    have fits' : ∀ x, .instruction x ∈ items → x.Fits := fun x h => fits x (List.mem_cons_of_mem _ h)
    have whole : before ++ item.directives ++ source items = before ++ source (item :: items) :=
      List.append_assoc ..
    have later := ih fits' (whole ▸ assembled) (whole ▸ hleads)
    have emits : draft m.order (before ++ item.directives) =
        item.directives.foldl Draft.apply (draft m.order before) := List.foldl_append ..
    rw [emits] at later
    cases item with
    | bind l => exact later
    | exit => exact later
    | instruction x =>
      obtain ⟨lists, next⟩ :=
        Body.decodes_of_assembled (fits x List.mem_cons_self) assembled placed even
      obtain ⟨lines', last⟩ := later
      change _ = UInt16.ofNat (base +
        ((Item.instruction x).directives.foldl Draft.apply (draft m.order before)).offset) at next
      rw [← next] at lines' last
      subst hleads
      exact ⟨.cons lists lines', last⟩

/-- Assembled code can be placed wherever it fits in free cells above address 0.  A listing of code that
was placed at an even address has a line for each instruction that was emitted, in order, at the address
where it was emitted, with its opcode and operands and the text of both, and goes on behind the code. -/
theorem listing_of_assembled (order : ByteOrder) (items : List Item) (body : Body) (base : Nat)
    (fits : ∀ x, .instruction x ∈ items → x.Fits)
    (assembled : Body.assemble order (source items) = .ok body) (even : base % 2 = 0) :
    (∀ memory : Memory, 0 < base → base + body.code.length ≤ 0x10000 →
      (∀ a : Address, base ≤ a.toNat → a.toNat < base + body.code.length →
        (memory.cell a).mapped = false ∧ (memory.cell a).readOnly = false) →
      ∃ m, Memory.writeBytes (UInt16.ofNat base) body.code memory = .ok () m ∧
        m.order = memory.order ∧ m.Holds (UInt16.ofNat base) body.code) ∧
    ∀ m : Memory, m.order = order → m.Holds (UInt16.ofNat base) body.code →
      let lines := linear m (UInt16.ofNat base) (emitted (draft order []) items).length
      List.Forall₂ (fun x line => line.Lists (Body.Reaches order (source items) body base)
          (UInt16.ofNat (base + x.1)) x.2) (emitted (draft order []) items) lines ∧
        lines.foldl (fun a line => a + line.length) (UInt16.ofNat base) =
          UInt16.ofNat (base + body.code.length) := by
  constructor
  · intro memory positive within free
    exact Memory.exists_holds_of_free (Memory.free_of_unmarked positive within free) within
  · rintro m rfl placed
    have none_ : [] ++ source items = source items := rfl
    exact lists_of_draft fits (none_ ▸ assembled) placed even (congrArg (Body.Reaches _ · _ _) none_.symm)

/-- A procedure with a word behind padding, a case table, a sized comparison and a jump back. -/
def listedItems : List Item :=
  [.bind 0, .instruction ⟨Opcode.ldci.code, [.word 300]⟩,
    .instruction ⟨Opcode.xjp.code, [.cases 0 1 0 [0, 1]]⟩, .bind 1,
    .instruction ⟨Opcode.equ.code, [.comparison 12 (some 200)]⟩,
    .instruction ⟨Opcode.ujp.code, [.label 0]⟩]

/-- Its body. -/
def listedBody : Body where
  code := [199, 0, 1, 44, 172, 0, 0, 0, 0, 1, 185, 246, 0, 12, 255, 254, 175, 12, 128, 200, 185, 246]
  jumpTable := [0]
  exit := 20

theorem fits_listedItems : ∀ x, .instruction x ∈ listedItems → x.Fits := by
  intro x h
  simp only [listedItems, List.mem_cons, Item.instruction.injEq, reduceCtorEq, List.not_mem_nil, or_false,
    false_or] at h
  rcases h with rfl | rfl | rfl | rfl
  · exact .cons trivial .nil
  · exact .cons ⟨by decide, by decide, by decide⟩ .nil
  · exact .cons ⟨by decide, by decide⟩ .nil
  · exact .cons trivial .nil

/-- Lines show the opcodes of the instructions that they list, in the same order. -/
theorem opcodes_of_lists {leads : Label → Int → Address → Prop} {xs : List (Nat × Instruction)}
    {lines : List Line}
    (h : List.Forall₂ (fun x line => line.Lists leads (UInt16.ofNat (base + x.1)) x.2) xs lines) :
    lines.map (·.opcode) = xs.map (·.2.code) := by
  induction h with
  | nil => rfl
  | cons lists _ ih => rw [List.map_cons, List.map_cons, lists.opcode, ih]

/-- The procedure can be placed at 0x1000 and is listed there. -/
theorem listing_of_assembled_listed :
    ∃ m : Memory, m.Holds 0x1000 listedBody.code ∧
      (linear m 0x1000 4).map (·.opcode) =
        [Opcode.ldci.code, Opcode.xjp.code, Opcode.equ.code, Opcode.ujp.code] ∧
      (linear m 0x1000 4).foldl (fun a line => a + line.length) 0x1000 = 0x1016 := by
  have assembled : Body.assemble .big (source listedItems) = .ok listedBody := by decide
  obtain ⟨places, lists⟩ :=
    listing_of_assembled .big listedItems listedBody 0x1000 fits_listedItems assembled (by decide)
  have blank (a : Address) : ({ Memory.empty with order := .big } : Memory).cell a = {} :=
    Cells.get_replicate ..
  obtain ⟨m, -, order, holds⟩ := places { Memory.empty with order := .big } (by decide)
    (by decide) fun a _ _ => by rw [blank]; exact ⟨rfl, rfl⟩
  obtain ⟨lines, last⟩ := lists m order holds
  exact ⟨m, holds, opcodes_of_lists lines, last⟩

end Listing
end PSystem
