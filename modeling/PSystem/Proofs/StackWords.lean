import PSystem.Proofs.Store

/-!
# The evaluation stack as a list of words

`Store.Holds s ws` says that the evaluation stack of `s` can be worked with and that `ws` are its
words, the top one first.  A pop takes the head of the list away and a push puts a word before it,
as long as there is room (`Turns.pop`, `Turns.push`).

`Store.Turns x before result after` says what a computation does to the list: started on `before`
it ends with `result` and leaves `after`.  Computations that turn lists into lists follow one
another (`Turns.bind`), so what an operation does to the stack is read off its definition.
-/

namespace PSystem
namespace Store

variable {α β : Type} {s : Store} {m m' : Memory} {a : Address} {w : Word} {ws us : List Word}

/-! ## Words in memory -/

/-- The number of words that the stack has room for. -/
def capacity : Nat := 2040

theorem toNat_top : top.toNat = 0xFFF0 := rfl

theorem toNat_limit : limit.toNat = 0xF000 := rfl

theorem toNat_add_two (below : a < top) : (a + 2).toNat = a.toNat + 2 := by
  rw [UInt16.lt_iff_toNat_lt, toNat_top] at below
  rw [UInt16.toNat_add]
  simp only [UInt16.reduceToNat]
  omega

theorem toNat_add_one (below : a < top) : (a + 1).toNat = a.toNat + 1 := by
  rw [UInt16.lt_iff_toNat_lt, toNat_top] at below
  rw [UInt16.toNat_add]
  simp only [UInt16.reduceToNat]
  omega

/-- The address of the word at a depth, as long as it does not wrap around. -/
theorem toNat_depth {d : Nat} (fits : a.toNat + 2 * d < 2 ^ 16) :
    (a + UInt16.ofNat d * 2).toNat = a.toNat + 2 * d := by
  rw [UInt16.toNat_add, UInt16.toNat_mul, UInt16.toNat_ofNat']
  simp only [UInt16.reduceToNat]
  omega

/-- The words from an address below the bottom of the stack start with the word there. -/
theorem wordsFrom_succ (below : a < top) (m : Memory) (n : Nat) :
    wordsFrom m a (n + 1) = m.peekWord a :: wordsFrom m (a + 2) n := by
  rw [wordsFrom, if_pos below]

theorem wordsFrom_of_top_le (bottom : top ≤ a) (m : Memory) (n : Nat) : wordsFrom m a n = [] := by
  cases n with
  | zero => rfl
  | succ n => rw [wordsFrom, if_neg (UInt16.not_lt.2 bottom)]

/-- Asking for more words than there are gives no more of them. -/
theorem wordsFrom_enough {n n' : Nat} (enough : top.toNat ≤ a.toNat + 2 * n)
    (enough' : top.toNat ≤ a.toNat + 2 * n') : wordsFrom m a n = wordsFrom m a n' := by
  induction n generalizing a n' with
  | zero =>
    have bottom : top ≤ a := UInt16.le_iff_toNat_le.2 (by omega)
    rw [wordsFrom_of_top_le bottom, wordsFrom_of_top_le bottom]
  | succ n ih =>
    by_cases below : a < top
    · have next := toNat_add_two below
      rw [UInt16.lt_iff_toNat_lt] at below
      obtain ⟨n', rfl⟩ : ∃ k, n' = k + 1 := ⟨n' - 1, by omega⟩
      rw [← UInt16.lt_iff_toNat_lt] at below
      rw [wordsFrom_succ below, wordsFrom_succ below]
      congr 1
      exact ih (by omega) (by omega)
    · have bottom : top ≤ a := UInt16.not_lt.1 below
      rw [wordsFrom_of_top_le bottom, wordsFrom_of_top_le bottom]

/-- Words from `a` on depend on the bytes from `a` on. -/
theorem wordsFrom_congr (even : a.toNat % 2 = 0) (order : m'.order = m.order)
    (same : ∀ b, a ≤ b → b < top → m'.peekByte b = m.peekByte b) (n : Nat) :
    wordsFrom m' a n = wordsFrom m a n := by
  induction n generalizing a with
  | zero => rfl
  | succ n ih =>
    by_cases below : a < top
    · have next := toNat_add_two below
      have second := toNat_add_one below
      -- an even address below the bottom is not the last one
      have inside : a + 1 < top := by
        rw [UInt16.lt_iff_toNat_lt, toNat_top] at below ⊢
        omega
      have rest : wordsFrom m' (a + 2) n = wordsFrom m (a + 2) n := by
        apply ih (by omega)
        intro b hb
        apply same
        rw [UInt16.le_iff_toNat_le] at hb ⊢
        omega
      have here : m'.peekWord a = m.peekWord a :=
        Memory.peekWord_congr order (same a (UInt16.le_refl a) below)
          (same (a + 1) (by rw [UInt16.le_iff_toNat_le]; omega) inside)
      rw [wordsFrom_succ below, wordsFrom_succ below, here, rest]
    · have bottom : top ≤ a := UInt16.not_lt.1 below
      rw [wordsFrom_of_top_le bottom, wordsFrom_of_top_le bottom]

theorem length_wordsFrom {n : Nat} (even : a.toNat % 2 = 0) (high : a ≤ top)
    (enough : top.toNat ≤ a.toNat + 2 * n) :
    a.toNat + 2 * (wordsFrom m a n).length = top.toNat := by
  rw [UInt16.le_iff_toNat_le, toNat_top] at high
  rw [toNat_top] at enough ⊢
  induction n generalizing a with
  | zero =>
    rw [wordsFrom, List.length_nil]
    omega
  | succ n ih =>
    rw [wordsFrom]
    split
    · rename_i below
      have next := toNat_add_two below
      rw [UInt16.lt_iff_toNat_lt, toNat_top] at below
      have rest := ih (a := a + 2) (by omega) (by omega) (by omega)
      rw [List.length_cons]
      omega
    · rename_i bottom
      rw [UInt16.lt_iff_toNat_lt, toNat_top] at bottom
      rw [List.length_nil]
      omega

/-! ## Blocks -/

theorem pushAll_append (us vs : List Word) :
    pushAll (us ++ vs) = (do pushAll us; pushAll vs) := by
  induction us with
  | nil => rfl
  | cons u us ih =>
    rw [List.cons_append, pushAll, pushAll, ih, bind_assoc]

/-- The first word of a block is pushed last. -/
theorem pushBlock_cons (u : Word) (us : List Word) :
    pushBlock (u :: us) = (do pushBlock us; push u) := by
  have last : pushAll [u] = push u := bind_pure (push u)
  rw [pushBlock, List.reverse_cons, pushAll_append, last]
  rfl

/-! ## Stacks -/

/-- The pointer is in range and on a word of the stack, and the cells of the stack are plain memory
that can be written. -/
structure Usable (s : Store) : Prop where
  even : s.sp.toNat % 2 = 0
  low : limit ≤ s.sp
  high : s.sp ≤ top
  free : ∀ a, limit ≤ a → a < top → s.memory.Free a

/-- The evaluation stack can be worked with, and `ws` are its words, the top one first. -/
structure Holds (s : Store) (ws : List Word) : Prop extends Usable s where
  words : s.allWords = ws

theorem Usable.holds (h : s.Usable) : s.Holds s.allWords :=
  ⟨h, rfl⟩

/-- The stack is empty where no word was pushed. -/
theorem holds_top {m : Memory}
    (open_ : ∀ a, limit ≤ a → a < top → (m.cell a).readOnly = false ∧ (m.cell a).mapped = false) :
    Holds ⟨m, top⟩ [] where
  even := show top.toNat % 2 = 0 by decide
  low := show limit ≤ top by decide
  high := UInt16.le_refl top
  free := by
    intro a low high
    refine ⟨?_, (open_ a low high).2, (open_ a low high).1⟩
    rintro rfl
    exact absurd low (by decide)
  words := wordsFrom_of_top_le (UInt16.le_refl top) m 0x8000

theorem holds_empty : Store.empty.Holds [] := by
  apply holds_top
  intro a _ _
  have blank : Memory.empty.cell a = ({} : Cell) := Cells.get_replicate ({} : Cell) 16 a.toNat
  rw [blank]
  exact ⟨rfl, rfl⟩

theorem allWords_eq {n : Nat} (enough : top.toNat ≤ s.sp.toNat + 2 * n) :
    s.allWords = wordsFrom s.memory s.sp n :=
  wordsFrom_enough (by rw [toNat_top]; omega) enough

/-- The pointer tells how many words there are. -/
theorem Holds.pointer (h : s.Holds ws) : s.sp.toNat + 2 * ws.length = top.toNat := by
  rw [← h.words]
  exact length_wordsFrom h.even h.high (by rw [toNat_top]; omega)

theorem Holds.below_top (h : s.Holds (w :: ws)) : s.sp < top := by
  have place := h.pointer
  rw [List.length_cons] at place
  rw [UInt16.lt_iff_toNat_lt]
  omega

/-- The head of the list is on top, the tail in the words after it. -/
theorem Holds.cons (h : s.Holds (w :: ws)) :
    s.memory.peekWord s.sp = w ∧ { s with sp := s.sp + 2 }.Holds ws := by
  have below := h.below_top
  -- The pointer is below the top, so two more do not wrap and the rest ends where the whole did.
  have next := toNat_add_two below
  have place := h.pointer
  have low := h.low
  have words := h.words
  rw [List.length_cons] at place
  rw [allWords_eq (n := ws.length + 1) (by omega), wordsFrom_succ below, List.cons.injEq] at words
  rw [UInt16.le_iff_toNat_le] at low
  refine ⟨words.1, ⟨?_, ?_, ?_, h.free⟩, ?_⟩
  · have := h.even
    show (s.sp + 2).toNat % 2 = 0
    omega
  · show limit ≤ s.sp + 2
    rw [UInt16.le_iff_toNat_le]
    omega
  · show s.sp + 2 ≤ top
    rw [UInt16.le_iff_toNat_le]
    omega
  · rw [allWords_eq (n := ws.length) (by show top.toNat ≤ (s.sp + 2).toNat + _; omega)]
    exact words.2

theorem Holds.length_le (h : s.Holds ws) : ws.length ≤ capacity := by
  have place := h.pointer
  have low := h.low
  rw [toNat_top] at place
  rw [UInt16.le_iff_toNat_le, toNat_limit] at low
  show ws.length ≤ 2040
  omega

/-- The pointer of an empty stack is at the bottom, and that of no other. -/
theorem Holds.top_le_iff (h : s.Holds ws) : top ≤ s.sp ↔ ws = [] := by
  have place := h.pointer
  rw [← List.length_eq_zero_iff, UInt16.le_iff_toNat_le]
  omega

/-- The first words are the first of the list. -/
theorem Holds.take (h : s.Holds ws) (n : Nat) : s.words n = ws.take n := by
  unfold Store.words
  induction n generalizing s ws with
  | zero => rfl
  | succ n ih =>
    cases ws with
    | nil => exact wordsFrom_of_top_le (h.top_le_iff.2 rfl) _ _
    | cons w ws =>
      obtain ⟨head, rest⟩ := h.cons
      rw [wordsFrom_succ h.below_top, head, ih rest, List.take_succ_cons]

/-- Each word of the list lies two cells above the one before it. -/
theorem Holds.word (h : s.Holds ws) {d : Nat} (hd : ws[d]? = some w) :
    s.memory.peekWord (s.sp + UInt16.ofNat (2 * d)) = w := by
  induction ws generalizing s d with
  | nil => cases hd
  | cons v ws ih =>
    obtain ⟨head, rest⟩ := h.cons
    cases d with
    | zero =>
      rw [List.getElem?_cons_zero, Option.some.injEq] at hd
      rw [Nat.mul_zero, show UInt16.ofNat 0 = 0 from rfl, UInt16.add_zero, head, hd]
    | succ d =>
      have next := ih rest (List.getElem?_cons_succ.symm.trans hd)
      rwa [Memory.add_two_add] at next

/-- The cells of the words on the stack. -/
def Live (s : Store) (a : Address) : Prop :=
  s.sp ≤ a ∧ a < top

/-- The words stay where memory changes elsewhere. -/
theorem Holds.elsewhere (h : s.Holds ws) (guarded : Memory.Guarded s.memory m)
    (off : Memory.AgreesOff (fun a => ¬ s.Live a) s.memory m) :
    { s with memory := m }.Holds ws where
  even := h.even
  low := h.low
  high := h.high
  free a low high := guarded.free (h.free a low high)
  words := by
    have same (b : Address) (hb : s.sp ≤ b) (below : b < top) : m.peekByte b = s.memory.peekByte b :=
      off.peekByte (not_not_intro ⟨hb, below⟩)
    rw [← h.words]
    exact wordsFrom_congr h.even guarded.order same _

/-! ## Computations on the stack -/

/-- Started on a stack with the words `before`, the computation ends with `result` and leaves the
words `after`. -/
def Turns (x : Run Store α) (before : List Word) (result : Except Fault α) (after : List Word) :
    Prop :=
  ∀ s : Store, s.Holds before → ∃ s' : Store, s'.Holds after ∧
    x s = match result with
      | .ok a => .ok a s'
      | .error e => .error e s'

namespace Turns

variable {x : Run Store α} {f : α → Run Store β} {before between after : List Word} {a : α}
  {e : Fault} {result : Except Fault β}

theorem pure (a : α) (ws : List Word) : Turns (Pure.pure a) ws (.ok a) ws :=
  fun s h => ⟨s, h, rfl⟩

theorem throw (e : Fault) (ws : List Word) : Turns (MonadExcept.throw e : Run Store α) ws (.error e) ws :=
  fun s h => ⟨s, h, rfl⟩

/-- A computation and what follows its result. -/
theorem bind (first : Turns x before (.ok a) between) (next : Turns (f a) between result after) :
    Turns (x >>= f) before result after := by
  intro s h
  obtain ⟨t, ht, ran⟩ := first s h
  obtain ⟨u, hu, then_⟩ := next t ht
  exact ⟨u, hu, (bind_of_ok ran).trans then_⟩

/-- Nothing follows a fault. -/
theorem bind_error (first : Turns x before (.error e) after) :
    Turns (x >>= f) before (.error e) after := by
  intro s h
  obtain ⟨t, ht, ran⟩ := first s h
  exact ⟨t, ht, bind_of_error ran⟩

/-- The top word can be popped. -/
theorem pop (w : Word) (ws : List Word) : Turns Store.pop (w :: ws) (.ok w) ws := by
  intro s h
  obtain ⟨head, rest⟩ := h.cons
  refine ⟨_, rest, ?_⟩
  have below := h.below_top
  have low := h.low
  have even := h.even
  have next := toNat_add_one below
  rw [UInt16.le_iff_toNat_le, toNat_limit] at low
  have here := h.free s.sp h.low below
  have after := h.free (s.sp + 1) (by rw [UInt16.le_iff_toNat_le, toNat_limit]; omega) (by
    rw [UInt16.lt_iff_toNat_lt, toNat_top] at below ⊢
    omega)
  have read := Memory.readWord_unmapped here.valid after.valid here.unmapped after.unmapped
  rw [Store.pop, if_neg (UInt16.not_le.2 below), read, head]

/-- A word can be pushed as long as there is room. -/
theorem push (w : Word) {ws : List Word} (room : ws.length < capacity) :
    Turns (Store.push w) ws (.ok ()) (w :: ws) := by
  intro s h
  have place := h.pointer
  rw [toNat_top] at place
  change ws.length < 2040 at room
  have fits : ¬ s.sp < limit + 2 := by
    rw [UInt16.lt_iff_toNat_lt, limit_add_two]
    omega
  have down := sub_two_of_room fits
  have below : s.sp - 2 < top := by
    rw [UInt16.lt_iff_toNat_lt, toNat_top]
    omega
  have next := toNat_add_one below
  obtain ⟨memory, pushed, guarded, word, off⟩ :=
    push_free fits (h.free _ (limit_le_sub_two fits) below)
      (h.free _ (limit_le_sub_one fits) (by rw [UInt16.lt_iff_toNat_lt, toNat_top]; omega)) w
  -- the words that were there lie above the two cells written
  have kept (b : Address) (hb : s.sp ≤ b) (_ : b < top) :
      memory.peekByte b = s.memory.peekByte b := by
    rw [UInt16.le_iff_toNat_le] at hb
    apply off.peekByte
    rintro (rfl | rfl) <;> omega
  refine ⟨_, ⟨⟨?_, limit_le_sub_two fits, UInt16.le_of_lt below, ?_⟩, ?_⟩, pushed⟩
  · have even := h.even
    show (s.sp - 2).toNat % 2 = 0
    omega
  · exact fun a low high => guarded.free (h.free a low high)
  · rw [allWords_eq (n := ws.length + 1) (by dsimp only; rw [toNat_top]; omega),
      wordsFrom_succ below, word]
    dsimp only
    rw [UInt16.sub_add_cancel, wordsFrom_congr h.even guarded.order kept,
      ← allWords_eq (by rw [toNat_top]; omega), h.words]

/-- A pop finds nothing on an empty stack. -/
theorem pop_empty : Turns Store.pop [] (.error (.system .stackUnderflow)) [] := by
  intro s h
  refine ⟨s, h, ?_⟩
  rw [Store.pop, if_pos (h.top_le_iff.2 rfl)]

/-- A push onto a full stack is refused. -/
theorem push_full (w : Word) {ws : List Word} (full : ws.length = capacity) :
    Turns (Store.push w) ws (.error .stackOverflow) ws := by
  intro s h
  refine ⟨s, h, ?_⟩
  have place := h.pointer
  rw [full, toNat_top] at place
  change s.sp.toNat + 2 * 2040 = 0xFFF0 at place
  have tight : s.sp < limit + 2 := by
    rw [UInt16.lt_iff_toNat_lt, limit_add_two]
    omega
  rw [Store.push, if_pos tight]

/-- A word on the stack is seen without a pop. -/
theorem peek {d : Nat} (hd : ws[d]? = some w) :
    Turns (Store.peek (UInt16.ofNat d)) ws (.ok w) ws := by
  intro s h
  refine ⟨s, h, ?_⟩
  have inside : d < ws.length := (List.getElem?_eq_some_iff.1 hd).1
  have place := h.pointer
  have low := h.low
  rw [toNat_top] at place
  rw [UInt16.le_iff_toNat_le, toNat_limit] at low
  have there := toNat_depth (a := s.sp) (d := d) (by omega)
  have below : s.sp + UInt16.ofNat d * 2 < top := by
    rw [UInt16.lt_iff_toNat_lt, there, toNat_top]
    omega
  have next := toNat_add_one below
  have first := h.free _ (by rw [UInt16.le_iff_toNat_le, toNat_limit]; omega) below
  have second := h.free (s.sp + UInt16.ofNat d * 2 + 1)
    (by rw [UInt16.le_iff_toNat_le, toNat_limit]; omega)
    (by rw [UInt16.lt_iff_toNat_lt, toNat_top]; omega)
  have read := Memory.readWord_unmapped first.valid second.valid first.unmapped second.unmapped
  -- The place of the word is given by a product of words, which agrees with that of the numbers.
  have twice : UInt16.ofNat d * 2 = UInt16.ofNat (2 * d) := by
    rw [Nat.mul_comm, UInt16.ofNat_mul]
    rfl
  rw [Store.peek, if_neg (UInt16.not_le.2 below), read, twice, h.word hd]

/-- A peek past the words finds nothing, at depths that stay within the addresses. -/
theorem peek_beyond {d : Nat} (beyond : ws.length ≤ d) (near : d ≤ 7) :
    Turns (Store.peek (UInt16.ofNat d)) ws (.error (.system .stackUnderflow)) ws := by
  intro s h
  refine ⟨s, h, ?_⟩
  have place := h.pointer
  rw [toNat_top] at place
  have bottom : top ≤ s.sp + UInt16.ofNat d * 2 := by
    rw [UInt16.le_iff_toNat_le, toNat_depth (by omega), toNat_top]
    omega
  rw [Store.peek, if_pos bottom]

/-- Words are pushed from the head of their list on. -/
theorem pushAll {us ws : List Word} (room : us.length + ws.length ≤ capacity) :
    Turns (Store.pushAll us) ws (.ok ()) (us.reverse ++ ws) := by
  induction us generalizing ws with
  | nil => exact pure () ws
  | cons u us ih =>
    rw [List.length_cons] at room
    rw [List.reverse_cons, List.append_assoc]
    exact bind (push u (by omega)) (ih (by rw [List.length_cons]; omega))

end Turns
end Store
end PSystem
