import PSystem.Proofs.BoundedStack
import PSystem.Proofs.CaseJumps
import PSystem.Proofs.SetAlgebra

/-!
# Set instructions on the stack

A set lies on the evaluation stack as its words with their number on top (`WordSet.counted`).  Set
instructions take up to two such sets, or integers, from the stack.  `SetInstruction` is an
instruction together with its operands: `words` are these operands as they lie on the stack, `code`
is the instruction in the code, and `Answers` says what the words in their place mean.

`Machine.Replaces x before a after` says that `x` changes the words on the stack from `before` to
`after` and touches nothing else of the machine but the memory that holds them; whatever lies below
the operands is part of both lists.
-/

namespace PSystem

open Store (Turns capacity)

/-! ## Counted sets -/

namespace WordSet

variable {a : WordSet} {rest : List Word}

/-- A set as it lies on the stack, the number of its words first. -/
def counted (a : WordSet) : List Word :=
  UInt16.ofNat a.words.length :: a.words

theorem toNat_count (few : a.words.length ≤ maxWords) :
    (UInt16.ofNat a.words.length).toNat = a.words.length := by
  change a.words.length ≤ 255 at few
  rw [UInt16.toNat_ofNat', Nat.mod_eq_of_lt (by omega)]

/-- A counted set is popped as a whole. -/
theorem pop_turns (few : a.words.length ≤ maxWords) (rest : List Word) :
    Turns pop (a.counted ++ rest) (.ok a) rest := by
  have small : ¬ maxWords < (UInt16.ofNat a.words.length).toNat := by
    rw [toNat_count few]
    omega
  have block : Turns (Store.popBlock (UInt16.ofNat a.words.length).toNat) (a.words ++ rest)
      (.ok a.words) rest := by
    rw [toNat_count few]
    exact Turns.popBlock a.words rest
  refine Turns.bind (Turns.pop _ _) ?_
  dsimp only
  rw [if_neg small]
  exact Turns.bind block (Turns.pure a rest)

/-- A set is pushed with its count. -/
theorem push_turns (room : a.counted.length + rest.length ≤ capacity) :
    Turns a.push rest (.ok ()) (a.counted ++ rest) := by
  rw [counted, List.length_cons] at room
  exact Turns.bind (Turns.pushBlock (by omega))
    (Turns.push _ (by rw [List.length_append]; omega))

/-- The words are a counted set that is popped as a set with the given elements. -/
def Denotes (words : List Word) (elements : Set Int) : Prop :=
  ∃ a : WordSet, words = a.counted ∧ a.elements = elements ∧
    ∀ rest, Turns pop (words ++ rest) (.ok a) rest

theorem denotes_counted (few : a.words.length ≤ maxWords) : Denotes a.counted a.elements :=
  ⟨a, rfl, rfl, pop_turns few⟩

/-- What a range that is accepted contains. -/
theorem elements_of_range {low high : Int} (accepted : range low high = .ok a) :
    a.elements = Set.Icc low high ∧ a.words.length ≤ maxWords := by
  -- a range that ends before it starts is accepted anywhere and has no words
  by_cases none : high < low
  · cases (range_of_lt none).symm.trans accepted
    have bare : empty.elements = ∅ := by
      ext e
      rw [mem_elements, contains_eq, word_of_le (Nat.zero_le _), bit_zero, Bool.and_false]
      simp
    exact ⟨by rw [bare, Set.Icc_eq_empty_of_lt none], Nat.zero_le _⟩
  · have le := Int.not_lt.1 none
    have inside : ¬ (low ∉ Set.Icc 0 maxElement ∨ high ∉ Set.Icc 0 maxElement) := by
      rw [← range_fails_iff le]
      rintro ⟨v, failed⟩
      cases failed.symm.trans accepted
    rw [not_or, not_not, not_not] at inside
    obtain ⟨b, ok, elements, few⟩ := range_of_inside le inside.1 inside.2
    cases ok.symm.trans accepted
    exact ⟨elements, few⟩

end WordSet

/-- A set with few enough words to be counted. -/
structure CountedSet where
  set : WordSet
  few : set.words.length ≤ WordSet.maxWords

namespace CountedSet

/-- The set on the stack. -/
def words (a : CountedSet) : List Word :=
  a.set.counted

/-- What the set contains. -/
def elements (a : CountedSet) : Set Int :=
  a.set.elements

theorem pop_turns (a : CountedSet) (rest : List Word) :
    Turns WordSet.pop (a.words ++ rest) (.ok a.set) rest :=
  WordSet.pop_turns a.few rest

end CountedSet

/-! ## Operations and relations -/

/-- An operation that makes a set of two. -/
inductive SetOperation where
  | union | inter | diff
  deriving DecidableEq, Repr

namespace SetOperation

/-- The instruction that carries out the operation. -/
def opcode : SetOperation → Opcode
  | union => .uni
  | inter => .int
  | diff => .dif

/-- The operation on words. -/
def apply : SetOperation → WordSet → WordSet → WordSet
  | union => WordSet.union
  | inter => WordSet.inter
  | diff => WordSet.diff

/-- The operation on what the sets contain. -/
def onElements : SetOperation → Set Int → Set Int → Set Int
  | union, s, t => s ∪ t
  | inter, s, t => s ∩ t
  | diff, s, t => s \ t

variable (op : SetOperation) (a b : WordSet)

theorem elements_apply : (op.apply a b).elements = op.onElements a.elements b.elements := by
  ext e
  cases op with
  | union =>
    show e ∈ (a.union b).elements ↔ e ∈ a.elements ∪ b.elements
    simp only [Set.mem_union, WordSet.mem_elements, WordSet.contains_union, Bool.or_eq_true,
      and_or_left]
  | inter =>
    show e ∈ (a.inter b).elements ↔ e ∈ a.elements ∩ b.elements
    simp only [Set.mem_inter_iff, WordSet.mem_elements, WordSet.contains_inter, Bool.and_eq_true]
    tauto
  | diff =>
    show e ∈ (a.diff b).elements ↔ e ∈ a.elements \ b.elements
    simp only [Set.mem_sdiff, WordSet.mem_elements, WordSet.contains_diff, Bool.and_eq_true,
      Bool.not_eq_true', ← Bool.not_eq_true]
    tauto

theorem length_apply : (op.apply a b).words.length = max a.words.length b.words.length := by
  cases op <;> exact WordSet.length_combine

end SetOperation

namespace Relation

/-- The typed comparison of a relation. -/
def opcode : Relation → Opcode
  | eq => .equ
  | ne => .neq
  | lt => .les
  | le => .leq
  | gt => .grt
  | ge => .geq

/-- The relation on what two sets contain. -/
def onElements : Relation → Set Int → Set Int → Prop
  | eq, s, t => s = t
  | ne, s, t => s ≠ t
  | lt, s, t => s ⊂ t
  | le, s, t => s ⊆ t
  | gt, s, t => t ⊂ s
  | ge, s, t => t ⊆ s

theorem holdsSets_iff (r : Relation) (a b : CountedSet) :
    r.holdsSets a.set b.set = true ↔ r.onElements a.elements b.elements := by
  cases r with
  | eq => exact WordSet.equals_iff_elements a.few b.few
  | ne =>
    have differ : (!a.set.equals b.set) = true ↔ ¬ a.set.equals b.set = true := by
      rw [Bool.not_eq_true', Bool.not_eq_true]
    exact differ.trans (not_congr (WordSet.equals_iff_elements a.few b.few))
  | lt => exact WordSet.isProperSubset_iff_elements a.few b.few
  | le => exact WordSet.isSubset_iff_elements a.few b.few
  | gt => exact WordSet.isProperSubset_iff_elements b.few a.few
  | ge => exact WordSet.isSubset_iff_elements b.few a.few

end Relation

/-! ## Words of the machine -/

namespace Machine

variable {α β : Type} {m : Machine}

/-- What a typed comparison does on sets. -/
def compareSets (r : Relation) : Run Machine Unit := do
  let b ← popSet
  let a ← popSet
  pushBool (r.holdsSets a b)

/-- What a typed comparison does on sets is found under their kind. -/
theorem exists_comparison (r : Relation) : ∃ f : UInt8 → Run Machine Unit,
    executeTable r.opcode = liftM (fetchByte >>= f) ∧ f 8 = compareSets r := by
  cases r <;> exact ⟨_, rfl, rfl⟩

/-- Started with the words `before` on the stack, the computation returns `a` and leaves the words
`after`; nothing else of the machine changes than its store. -/
def Replaces (x : Run Machine α) (before : List Word) (a : α) (after : List Word) : Prop :=
  ∀ m : Machine, m.store.Holds before → ∃ s, s.Holds after ∧ x m = .ok a (m.withStore s)

namespace Replaces

variable {x : Run Machine α} {f : α → Run Machine β} {before between after ws : List Word}
  {a : α} {b : β}

theorem of_turns {x : Run Store α} (h : Turns x before (.ok a) after) :
    Replaces (onStore x) before a after := by
  intro m holds
  obtain ⟨s, now, ran⟩ := h m.store holds
  refine ⟨s, now, ?_⟩
  rw [onStore, ran]
  rfl

theorem bind (first : Replaces x before a between) (next : Replaces (f a) between b after) :
    Replaces (x >>= f) before b after := by
  intro m holds
  obtain ⟨s, holds', ran⟩ := first m holds
  obtain ⟨t, holds'', ran'⟩ := next (m.withStore s) holds'
  exact ⟨t, holds'', (bind_of_ok ran).trans ran'⟩

theorem pure (a : α) (ws : List Word) : Replaces (Pure.pure a) ws a ws :=
  fun m holds => ⟨m.store, holds, rfl⟩

theorem orFault {x : Except Fault α} (ok : x = .ok a) (ws : List Word) :
    Replaces (orFault x) ws a ws := by
  rw [ok]
  exact pure a ws

theorem pop (w : Word) (ws : List Word) : Replaces Machine.pop (w :: ws) w ws :=
  of_turns (Turns.pop w ws)

theorem popInt (w : Word) (ws : List Word) :
    Replaces Machine.popInt (w :: ws) (Word.signed w) ws :=
  of_turns (Turns.bind (Turns.pop w ws) (Turns.pure _ ws))

theorem pushBool (t : Bool) (room : 1 + ws.length ≤ capacity) :
    Replaces (Machine.pushBool t) ws () (Word.ofTruth t :: ws) :=
  of_turns (Turns.push _ (by omega))

theorem popSet (a : CountedSet) (ws : List Word) :
    Replaces Machine.popSet (a.words ++ ws) a.set ws :=
  of_turns (a.pop_turns ws)

theorem pushSet {s : WordSet} (room : s.counted.length + ws.length ≤ capacity) :
    Replaces (Machine.pushSet s) ws () (s.counted ++ ws) :=
  of_turns (WordSet.push_turns room)

theorem rangeSet {low high : Word} {s : WordSet}
    (accepted : WordSet.range (Word.signed low) (Word.signed high) = .ok s)
    (room : s.counted.length + ws.length ≤ capacity) :
    Replaces Machine.rangeSet (high :: low :: ws) () (s.counted ++ ws) :=
  bind (popInt high _) (bind (popInt low _) (bind (orFault accepted _) (pushSet room)))

theorem singletonSet {e : Word} {s : WordSet} (accepted : WordSet.singleton (Word.signed e) = .ok s)
    (room : s.counted.length + ws.length ≤ capacity) :
    Replaces Machine.singletonSet (e :: ws) () (s.counted ++ ws) :=
  bind (popInt e _) (bind (orFault accepted _) (pushSet room))

theorem testMember (e : Word) (a : CountedSet) (room : 1 + ws.length ≤ capacity) :
    Replaces Machine.testMember (a.words ++ e :: ws) ()
      (Word.ofTruth (a.set.contains (Word.signed e)) :: ws) :=
  bind (popSet a _) (bind (popInt e _) (pushBool _ room))

theorem binarySet (f : WordSet → WordSet → WordSet) (a b : CountedSet)
    (room : (f a.set b.set).counted.length + ws.length ≤ capacity) :
    Replaces (Machine.binarySet f) (b.words ++ (a.words ++ ws)) ()
      ((f a.set b.set).counted ++ ws) :=
  bind (popSet b _) (bind (popSet a _) (pushSet room))

theorem adjusting (a : CountedSet) (n : UInt8) (room : n.toNat + ws.length ≤ capacity) :
    Replaces (do onStore (Store.pushBlock ((← Machine.popSet).adjusted n.toNat).words))
      (a.words ++ ws) () ((a.set.adjusted n.toNat).words ++ ws) := by
  have pushed : Turns (Store.pushBlock (a.set.adjusted n.toNat).words) ws (.ok ())
      ((a.set.adjusted n.toNat).words ++ ws) :=
    Turns.pushBlock (by rw [WordSet.length_adjusted]; exact room)
  exact bind (popSet a _) (of_turns pushed)

theorem compareSets (r : Relation) (a b : CountedSet) (room : 1 + ws.length ≤ capacity) :
    Replaces (Machine.compareSets r) (b.words ++ (a.words ++ ws)) ()
      (Word.ofTruth (r.holdsSets a.set b.set) :: ws) :=
  bind (popSet b _) (bind (popSet a _) (pushBool _ room))

end Replaces

/-! ## Code of one and two bytes -/

variable {op : Opcode} {b : UInt8} {bytes : Bytes}

theorem readByte_of_reads {memory : Memory} {a : Address} (reads : memory.Reads a.toNat bytes)
    {i : Nat} (hb : bytes[i]? = some b) : memory.readByte (a + UInt16.ofNat i) = .ok b := by
  have read := reads i b hb
  rwa [UInt16.ofNat_add, UInt16.ofNat_toNat] at read

/-- An instruction without an operand. -/
theorem executeNext_of_plain {x : Run Machine Unit} (encoded : Encoding.ofCode op.code = .table op)
    (program : executeTable op = liftM x) (reads : m.memory.Reads m.nextAddress.toNat [op.code]) :
    executeNext m = (liftM x : Exec Unit) (m.movedTo (m.nextAddress + 1)) := by
  have opcode : m.memory.readByte (m.nextAddress + 0) = .ok op.code :=
    readByte_of_reads reads (i := 0) rfl
  rw [UInt16.add_zero] at opcode
  rw [executeNext_of_read encoded opcode, program]

/-- An instruction whose operand is a byte. -/
theorem executeNext_of_fetching {f : UInt8 → Run Machine Unit}
    (encoded : Encoding.ofCode op.code = .table op)
    (program : executeTable op = liftM (fetchByte >>= f))
    (reads : m.memory.Reads m.nextAddress.toNat [op.code, b]) :
    executeNext m = (liftM (f b) : Exec Unit) (m.movedTo (m.nextAddress + 2)) := by
  have opcode : m.memory.readByte (m.nextAddress + 0) = .ok op.code :=
    readByte_of_reads reads (i := 0) rfl
  have operand : m.memory.readByte (m.nextAddress + 1) = .ok b :=
    readByte_of_reads reads (i := 1) rfl
  rw [UInt16.add_zero] at opcode
  have fetched := fetchByte_of_read (m := m.movedTo (m.nextAddress + 1)) (b := b)
    (by rw [nextAddress_movedTo]; exact operand)
  rw [nextAddress_movedTo, movedTo_movedTo, UInt16.add_assoc] at fetched
  rw [executeNext_of_read encoded opcode, program, liftM_bind_apply,
    liftM_bind_of_ok fetched]
  rfl

end Machine

/-! ## Instructions on sets -/

/-- An instruction with its operands; of two sets, `a` lies below `b`. -/
inductive SetInstruction where
  /-- All elements from one to another. -/
  | range (low high : Word)
  | singleton (e : Word)
  | member (e : Word) (a : CountedSet)
  | binary (op : SetOperation) (a b : CountedSet)
  /-- The set in exactly `n` words without a count. -/
  | adjust (a : CountedSet) (n : UInt8)
  | compare (r : Relation) (a b : CountedSet)

namespace SetInstruction

open Machine hiding counted
open WordSet

/-- The bytes of the instruction; eight is the kind of sets in comparisons. -/
def code : SetInstruction → Bytes
  | range .. => [Opcode.srs.code]
  | singleton _ => [Opcode.sgs.code]
  | member .. => [Opcode.inn.code]
  | binary op .. => [op.opcode.code]
  | adjust _ n => [Opcode.adj.code, n]
  | compare r .. => [r.opcode.code, 8]

/-- The operands on the stack, from the top down. -/
def words : SetInstruction → List Word
  | range low high => [high, low]
  | singleton e => [e]
  | member e a => a.words ++ [e]
  | binary _ a b | compare _ a b => b.words ++ a.words
  | adjust a _ => a.words

/-- The words that take the place of the operands, or the fault of elements that no set has. -/
def result : SetInstruction → Except Fault (List Word)
  | range low high => (WordSet.range (Word.signed low) (Word.signed high)).map counted
  | singleton e => (WordSet.singleton (Word.signed e)).map counted
  | member e a => .ok [Word.ofTruth (a.set.contains (Word.signed e))]
  | binary op a b => .ok (op.apply a.set b.set).counted
  | adjust a n => .ok (a.set.adjusted n.toNat).words
  | compare r a b => .ok [Word.ofTruth (r.holdsSets a.set b.set)]

/-- What these words mean in terms of the elements of the operands. -/
def Answers : SetInstruction → List Word → Prop
  | range low high, ws => Denotes ws (Set.Icc (Word.signed low) (Word.signed high))
  | singleton e, ws => Denotes ws {Word.signed e}
  | member e a, ws => ∃ t, ws = [if t then 1 else 0] ∧ (t = true ↔ Word.signed e ∈ a.elements)
  | binary op a b, ws => Denotes ws (op.onElements a.elements b.elements)
  | adjust a n, ws =>
    ws.length = n.toNat ∧ Denotes (n.toUInt16 :: ws) {e ∈ a.elements | e < 16 * n.toNat}
  | compare r a b, ws =>
    ∃ t, ws = [if t then 1 else 0] ∧ (t = true ↔ r.onElements a.elements b.elements)

variable {i : SetInstruction} {m : Machine} {ws rest : List Word}

theorem map_eq_ok {x : Except Fault WordSet} (h : x.map counted = .ok ws) :
    ∃ s, x = .ok s ∧ ws = s.counted := by
  cases x with
  | ok s =>
    cases h
    exact ⟨s, rfl, rfl⟩
  | error e => cases h

/-- Adjusted words with their number are a counted set again. -/
theorem denotes_adjusted (a : CountedSet) (n : UInt8) :
    Denotes (n.toUInt16 :: (a.set.adjusted n.toNat).words)
      {e ∈ a.elements | e < 16 * n.toNat} := by
  have size : (a.set.adjusted n.toNat).words.length = n.toNat := length_adjusted
  have few : (a.set.adjusted n.toNat).words.length ≤ maxWords := by
    rw [size]
    exact Nat.le_of_lt_succ n.toNat_lt
  have denotes := denotes_counted few
  have count : UInt16.ofNat n.toNat = n.toUInt16 := UInt16.toNat_inj.1 (by simp)
  rw [counted, size, count, elements_adjusted] at denotes
  exact denotes

/-- The result means what it should. -/
theorem answers_of_result (accepted : i.result = .ok ws) : i.Answers ws := by
  cases i with
  | range low high =>
    obtain ⟨s, ok, rfl⟩ := map_eq_ok accepted
    obtain ⟨elements, few⟩ := elements_of_range ok
    show Denotes s.counted _
    rw [← elements]
    exact denotes_counted few
  | singleton e =>
    obtain ⟨s, ok, rfl⟩ := map_eq_ok accepted
    obtain ⟨elements, few⟩ := elements_of_range ok
    show Denotes s.counted _
    rw [← Set.Icc_self, ← elements]
    exact denotes_counted few
  | member e a =>
    cases accepted
    exact ⟨_, rfl, contains_iff_mem a.few⟩
  | binary op a b =>
    cases accepted
    -- The larger operand bounds the result, so it can be counted in a word.
    have few : (op.apply a.set b.set).words.length ≤ maxWords := by
      rw [op.length_apply]
      exact Nat.max_le.2 ⟨a.few, b.few⟩
    show Denotes _ (op.onElements a.set.elements b.set.elements)
    rw [← op.elements_apply]
    exact denotes_counted few
  | adjust a n =>
    cases accepted
    exact ⟨length_adjusted, denotes_adjusted a n⟩
  | compare r a b =>
    cases accepted
    exact ⟨_, rfl, r.holdsSets_iff a b⟩

/-- What the machine does once it has fetched the code of the instruction. -/
theorem exists_computation (reads : m.memory.Reads m.nextAddress.toNat i.code)
    (accepted : i.result = .ok ws) (room : ws.length + rest.length ≤ capacity) :
    ∃ x : Run Machine Unit,
      executeNext m = (liftM x : Exec Unit) (m.movedTo (m.nextAddress + UInt16.ofNat i.code.length)) ∧
      Replaces x (i.words ++ rest) () (ws ++ rest) := by
  cases i with
  | range low high =>
    obtain ⟨s, ok, rfl⟩ := map_eq_ok accepted
    exact ⟨rangeSet, executeNext_of_plain rfl rfl reads, .rangeSet ok room⟩
  | singleton e =>
    obtain ⟨s, ok, rfl⟩ := map_eq_ok accepted
    exact ⟨singletonSet, executeNext_of_plain rfl rfl reads, .singletonSet ok room⟩
  | member e a =>
    cases accepted
    refine ⟨testMember, executeNext_of_plain rfl rfl reads, ?_⟩
    rw [words, List.append_assoc]
    exact .testMember e a room
  | binary op a b =>
    cases accepted
    refine ⟨binarySet op.apply, executeNext_of_plain ?_ ?_ reads, ?_⟩
    · cases op <;> rfl
    · cases op <;> rfl
    · rw [words, List.append_assoc]
      exact .binarySet op.apply a b room
  | adjust a n =>
    cases accepted
    rw [length_adjusted] at room
    exact ⟨_, executeNext_of_fetching rfl rfl reads, .adjusting a n room⟩
  | compare r a b =>
    cases accepted
    -- what is compared is told by the byte behind the opcode
    obtain ⟨f, program, onSets⟩ := exists_comparison r
    refine ⟨f 8, executeNext_of_fetching ?_ program reads, ?_⟩
    · cases r <;> rfl
    · rw [onSets, words, List.append_assoc]
      exact .compareSets r a b room

end SetInstruction

/-! ## Words stored and loaded again -/

namespace Machine

variable {memory memory' : Memory} {target : Address} {ws rest : List Word} {n : Nat} {m : Machine}

/-- `n` words of a program from an address on: their cells can be written and lie outside the
evaluation stack. -/
def Storable (memory : Memory) (target : Address) (n : Nat) : Prop :=
  ∀ i < 2 * n, memory.Free (target + UInt16.ofNat i) ∧
    ¬ (Store.limit ≤ target + UInt16.ofNat i ∧ target + UInt16.ofNat i < Store.top)

/-- The `n` words from an address on are the same in both memories, and so are their marks. -/
structure SameWords (memory memory' : Memory) (target : Address) (n : Nat) : Prop where
  order : memory'.order = memory.order
  cells : ∀ i < 2 * n, memory'.cell (target + UInt16.ofNat i) = memory.cell (target + UInt16.ofNat i)

/-- The given words stand at an address, where they can be read. -/
structure Stand (memory : Memory) (target : Address) (ws : List Word) : Prop where
  legible : memory.Legible target (2 * ws.length)
  words : ∀ i (h : i < ws.length), memory.peekWord (target + UInt16.ofNat (2 * i)) = ws[i]

theorem Stand.same (h : Stand memory target ws) (same : SameWords memory memory' target ws.length) :
    Stand memory' target ws where
  legible i hi := by
    rw [same.cells i hi]
    exact h.legible i hi
  words i hi := by
    have byte (j : Nat) (hj : j < 2 * ws.length) :
        memory'.peekByte (target + UInt16.ofNat j) = memory.peekByte (target + UInt16.ofNat j) :=
      congrArg Cell.value (same.cells j hj)
    have second := byte (2 * i + 1) (by omega)
    rw [UInt16.ofNat_add, ← UInt16.add_assoc] at second
    rw [← h.words i hi]
    exact Memory.peekWord_congr same.order (byte (2 * i) (by omega)) second

theorem Stand.readWords (h : Stand memory target ws) : memory.readWords target ws.length = .ok ws := by
  rw [h.legible.readWords]
  congr 1
  apply List.ext_getElem
  · rw [List.length_map, List.length_range]
  · intro i _ hi
    rw [List.getElem_map, List.getElem_range, h.words i hi]

theorem onStore_of_ok {α : Type} {x : Run Store α} {a : α} {s : Store} (h : x m.store = .ok a s) :
    onStore x m = .ok a (m.withStore s) := by
  rw [onStore, h]
  rfl

/-- STM takes its words and the address below them from the stack, and the words stand there. -/
theorem storeBlock_ok (holds : m.store.Holds (ws ++ target :: rest))
    (storable : Storable m.memory target ws.length) :
    ∃ s, s.Holds rest ∧ Stand s.memory target ws ∧
      (do
        let words ← onStore (Store.popBlock ws.length)
        let a ← pop
        onMemory (Memory.writeWords a words) : Run Machine Unit) m = .ok () (m.withStore s) := by
  obtain ⟨s, between, popped⟩ := Turns.popBlock ws (target :: rest) m.store holds
  obtain ⟨t, left, popped'⟩ := Turns.pop target rest s between
  -- both pops leave memory as it can be written
  have guarded : Memory.Guarded m.memory t.memory :=
    IsTrans.trans _ _ _ (Keeps.of_ok (R := Store.Works) popped).quiet.memory
      (Keeps.of_ok (R := Store.Works) popped').quiet.memory
  have free (i : Nat) (hi : i < 2 * ws.length) : t.memory.Free (target + UInt16.ofNat i) :=
    guarded.free (storable i hi).1
  obtain ⟨memory, written⟩ := Memory.writeWords_free free
  have kept : Memory.Guarded t.memory memory := Keeps.of_ok written
  -- the words that are left on the stack lie elsewhere
  have off : Memory.AgreesOff (fun a => ¬ t.Live a) t.memory memory := by
    refine (Memory.keeps_writeWords_off fun i hi => ?_).of_ok written
    rintro ⟨low, high⟩
    exact (storable i hi).2 ⟨UInt16.le_trans left.low low, high⟩
  have short : 2 * ws.length ≤ 2 ^ 16 := by
    have few := holds.length_le
    rw [List.length_append] at few
    change _ ≤ 2040 at few
    omega
  refine ⟨{ t with memory := memory }, left.elsewhere kept off, ⟨fun i hi => ?_, fun i hi => ?_⟩, ?_⟩
  · have here := kept.free (free i hi)
    exact ⟨here.valid, here.unmapped⟩
  · exact Memory.peekWord_of_writeWords written (fun i hi => (free i hi).unmapped) short i hi
  · have stored : onMemory (Memory.writeWords target ws) ((m.withStore s).withStore t) =
        .ok () (((m.withStore s).withStore t).withStore { t with memory := memory }) := by
      apply onStore_of_ok
      show Store.onMemory _ t = _
      rw [Store.onMemory, written]
    have taken : pop (m.withStore s) = .ok target ((m.withStore s).withStore t) :=
      onStore_of_ok popped'
    rw [bind_of_ok (onStore_of_ok popped), bind_of_ok taken]
    exact stored

/-- LDM takes an address from the stack and pushes the words that stand there. -/
theorem loadBlock_ok (holds : m.store.Holds (target :: rest)) (stand : Stand m.memory target ws)
    (room : ws.length + rest.length ≤ capacity) :
    ∃ s, s.Holds (ws ++ rest) ∧
      (do
        let a ← pop
        let words ← reading (·.readWords a ws.length)
        onStore (Store.pushBlock words) : Run Machine Unit) m = .ok () (m.withStore s) := by
  obtain ⟨s, between, popped⟩ := Turns.pop target rest m.store holds
  obtain ⟨t, loaded, pushed⟩ := Turns.pushBlock room s between
  refine ⟨t, loaded, ?_⟩
  have read : reading (·.readWords target ws.length) (m.withStore s) = .ok ws (m.withStore s) := by
    apply reading_apply
    rw [← stand.readWords]
    exact congrArg (·.readWords target ws.length) (memory_of_pop popped)
  have taken : pop m = .ok target (m.withStore s) := onStore_of_ok popped
  rw [bind_of_ok taken, bind_of_ok read]
  exact onStore_of_ok (m := m.withStore s) pushed

/-- What STM stores, LDM loads: words on the stack above an address are stored there, and as long as
they stay in memory, they are pushed again for that address. -/
def Reloads (ws : List Word) (n : UInt8) : Prop :=
  ∀ (m : Machine) (target : Address) (rest : List Word),
    m.memory.Reads m.nextAddress.toNat [Opcode.stm.code, n] →
    m.store.Holds (ws ++ target :: rest) → Storable m.memory target n.toNat →
    ∃ s, executeNext m = .ok () ((m.withStore s).movedTo (m.nextAddress + 2)) ∧ s.Holds rest ∧
      ∀ (m' : Machine) (rest' : List Word), SameWords s.memory m'.memory target n.toNat →
        m'.memory.Reads m'.nextAddress.toNat [Opcode.ldm.code, n] →
        m'.store.Holds (target :: rest') → n.toNat + rest'.length ≤ capacity →
        ∃ s', executeNext m' = .ok () ((m'.withStore s').movedTo (m'.nextAddress + 2)) ∧
          s'.Holds (ws ++ rest')

theorem reloads {n : UInt8} (size : ws.length = n.toNat) : Reloads ws n := by
  intro m target rest reads holds storable
  rw [← size] at storable ⊢
  obtain ⟨s, left, stand, stored⟩ :=
    storeBlock_ok (m := m.movedTo (m.nextAddress + 2)) holds storable
  rw [size] at stored
  -- The second half starts at any machine with the same block, since the words are fetched from
  -- memory alone.
  refine ⟨s, ?_, left, fun m' rest' same reads' holds' room => ?_⟩
  · rw [executeNext_of_fetching (f := fun n => do
      let words ← onStore (Store.popBlock n.toNat)
      let a ← pop
      onMemory (Memory.writeWords a words)) rfl rfl reads]
    exact raising_of_ok stored
  · obtain ⟨s', pushed, loaded⟩ :=
      loadBlock_ok (m := m'.movedTo (m'.nextAddress + 2)) holds' (stand.same same) room
    rw [size] at loaded
    refine ⟨s', ?_, pushed⟩
    rw [executeNext_of_fetching (f := fun n => do
      let a ← pop
      let words ← reading (·.readWords a n.toNat)
      onStore (Store.pushBlock words)) rfl rfl reads']
    exact raising_of_ok loaded

end Machine

namespace SetInstruction

open Machine hiding counted
open WordSet

/-! ## Set instructions respect the stack -/

/-- A set instruction takes its operands from the stack and puts its answer in their place, whatever
lies below, and goes on behind its code.  A set that is adjusted to `n` words has the elements below
`16 * n` once `n` is pushed as its count; so it has after its words were stored and loaded again. -/
theorem executeNext_respects_stack (i : SetInstruction) {m : Machine} {ws rest : List Word}
    (reads : m.memory.Reads m.nextAddress.toNat i.code) (holds : m.store.Holds (i.words ++ rest))
    (accepted : i.result = .ok ws) (room : ws.length + rest.length ≤ capacity) :
    (∃ s, executeNext m =
        .ok () ((m.withStore s).movedTo (m.nextAddress + UInt16.ofNat i.code.length)) ∧
      s.Holds (ws ++ rest)) ∧
    i.Answers ws ∧
    ∀ a n, i = .adjust a n → Reloads ws n ∧
      ∀ rest' : List Word, n.toNat + 1 + rest'.length ≤ capacity →
        Turns (Store.push n.toUInt16) (ws ++ rest') (.ok ()) (n.toUInt16 :: ws ++ rest') := by
  refine ⟨?_, answers_of_result accepted, ?_⟩
  · obtain ⟨x, executes, replaces⟩ := exists_computation reads accepted room
    obtain ⟨s, after, ran⟩ := replaces (m.movedTo _) holds
    exact ⟨s, executes.trans (raising_of_ok ran), after⟩
  · rintro a n rfl
    obtain ⟨size, -⟩ := answers_of_result accepted
    refine ⟨reloads size, fun rest' room' => ?_⟩
    exact Turns.push _ (by rw [List.length_append, size]; omega)

/-- The set of 3 and 17. -/
def threeAndSeventeen : CountedSet where
  set := ⟨[8, 2]⟩
  few := by decide

/-- A machine with an instruction of up to two bytes to execute next, and words that were pushed. -/
def onPushed (first second : UInt8) (words : List Word) : Machine :=
  { create default default default default none with
    store := endState (Store.pushAll words
      ⟨(Memory.empty.store 0x1000 first).store 0x1001 second, Store.top⟩)
    ipc := 0x1000 }

theorem holds_onPushed (first second : UInt8) {words : List Word} (room : words.length ≤ capacity) :
    (onPushed first second words).store.Holds words.reverse := by
  have blank (a : Address) : Memory.empty.cell a = ({} : Cell) :=
    Cells.get_replicate ({} : Cell) 16 a.toNat
  have pushes : Turns (Store.pushAll words) [] (.ok ()) (words.reverse ++ []) :=
    Turns.pushAll (by simpa using room)
  obtain ⟨s, holds, ran⟩ := pushes _ (Store.holds_top
    (m := (Memory.empty.store 0x1000 first).store 0x1001 second) fun a _ _ => by simp [blank])
  have store : (onPushed first second words).store = s := congrArg endState ran
  rw [List.append_nil] at holds
  rwa [store]

/-- The set lies on a word of seven, and is adjusted to one word; and 17, which lies between them, is found
in it. -/
theorem executeNext_respects_stack_adjusting :
    ((∃ s, executeNext (onPushed Opcode.adj.code 1 [7, 2, 8, 2]) =
        .ok () (((onPushed Opcode.adj.code 1 [7, 2, 8, 2]).withStore s).movedTo 0x1002) ∧
      s.Holds [8, 7]) ∧ Denotes [1, 8] {e ∈ threeAndSeventeen.elements | e < 16}) ∧
    (∃ s, executeNext (onPushed Opcode.inn.code 0 [7, 17, 2, 8, 2]) =
        .ok () (((onPushed Opcode.inn.code 0 [7, 17, 2, 8, 2]).withStore s).movedTo 0x1001) ∧
      s.Holds [1, 7]) ∧ 17 ∈ threeAndSeventeen.elements := by
  constructor
  · have reads : (onPushed Opcode.adj.code 1 [7, 2, 8, 2]).memory.Reads
        (onPushed Opcode.adj.code 1 [7, 2, 8, 2]).nextAddress.toNat
        (adjust threeAndSeventeen 1).code := by
      decide +kernel
    have room : [(8 : Word)].length + [(7 : Word)].length ≤ capacity := by decide
    obtain ⟨executed, ⟨-, denotes⟩, -⟩ :=
      executeNext_respects_stack (adjust threeAndSeventeen 1) reads
        (holds_onPushed _ _ (by decide)) rfl room
    exact ⟨executed, denotes⟩
  · have reads : (onPushed Opcode.inn.code 0 [7, 17, 2, 8, 2]).memory.Reads
        (onPushed Opcode.inn.code 0 [7, 17, 2, 8, 2]).nextAddress.toNat
        (member 17 threeAndSeventeen).code := by
      decide +kernel
    have found : (member 17 threeAndSeventeen).result = .ok [1] := by decide
    have room : [(1 : Word)].length + [(7 : Word)].length ≤ capacity := by decide
    obtain ⟨executed, ⟨t, one, told⟩, -⟩ :=
      executeNext_respects_stack (member 17 threeAndSeventeen) reads
        (holds_onPushed _ _ (by decide)) found room
    have true_ : t = true := by
      cases t
      · exact absurd one (by decide)
      · rfl
    exact ⟨executed, told.1 true_⟩

end SetInstruction
end PSystem
