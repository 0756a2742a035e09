import PSystem.Decimal.Operation
import PSystem.Proofs.Memory
import PSystem.WordSet

/-!
# What evaluation does to the store

`Store.Works` is what every operation on the evaluation stack keeps: it writes to memory only as
`Memory.Guarded` allows, it does not move the pointer below the limit of the stack, and it does not
move it past the bottom of the stack by a whole word.  Long integers and sets are built from pushes
and pops and keep it too.  `Store.Quiet` leaves the bottom of the stack out.

`Store.Upper` says that no cell below the limit changed.  Pushes keep it without any assumption,
since a push that would reach below the limit fails before it writes.
-/

namespace PSystem
namespace Store

variable {α : Type} {s s' : Store} {w : Word}

/-! ## Relations -/

/-- What operations on the evaluation stack keep. -/
structure Quiet (s s' : Store) : Prop where
  memory : Memory.Guarded s.memory s'.memory
  bounded : limit ≤ s.sp → limit ≤ s'.sp

instance : IsPreorder Store Quiet where
  refl _ := ⟨Std.Refl.refl _, id⟩
  trans _ _ _ h h' := ⟨IsTrans.trans _ _ _ h.memory h'.memory, h'.bounded ∘ h.bounded⟩

/-- The pointer is not a whole word past the bottom of the stack, so that what is pushed can be
popped. -/
def Capped (s : Store) : Prop :=
  s.sp < top + 2

/-- What operations on the evaluation stack keep, at both of its ends. -/
structure Works (s s' : Store) : Prop where
  quiet : Quiet s s'
  capped : s.Capped → s'.Capped

instance : IsPreorder Store Works where
  refl _ := ⟨Std.Refl.refl _, id⟩
  trans _ _ _ h h' := ⟨IsTrans.trans _ _ _ h.quiet h'.quiet, h'.capped ∘ h.capped⟩

instance (priority := low) quiet_of_works {ε : Type} (x : EStateM ε Store α) [works : Keeps Works x] :
    Keeps Quiet x :=
  works.mono fun _ _ h => h.quiet

/-- Only cells of the evaluation stack, or above it, changed. -/
def Upper (s s' : Store) : Prop :=
  Memory.AgreesOff (limit ≤ ·) s.memory s'.memory

instance : IsPreorder Store Upper where
  refl _ := Std.Refl.refl (r := Memory.AgreesOff (limit ≤ ·)) _
  trans _ _ _ h h' := IsTrans.trans (r := Memory.AgreesOff (limit ≤ ·)) _ _ _ h h'

/-! ## Words -/

instance works_onMemory (x : Run Memory α) [Keeps Memory.Guarded x] : Keeps Works (onMemory x) :=
  keeps_onMemory (R := Memory.Guarded) x fun _ _ h => ⟨⟨h, id⟩, id⟩

theorem limit_add_two : (limit + 2).toNat = 0xF002 := rfl

/-- Room for a word on the stack: the pointer stays in bounds when it moves down. -/
theorem sub_two_of_room (h : ¬ s.sp < limit + 2) : (s.sp - 2).toNat = s.sp.toNat - 2 := by
  rw [UInt16.lt_iff_toNat_lt, limit_add_two] at h
  have hs := s.sp.toNat_lt
  rw [UInt16.toNat_sub]
  simp only [UInt16.reduceToNat]
  omega

theorem limit_le_sub_two (h : ¬ s.sp < limit + 2) : limit ≤ s.sp - 2 := by
  have down := sub_two_of_room h
  rw [UInt16.lt_iff_toNat_lt, limit_add_two] at h
  rw [UInt16.le_iff_toNat_le, down]
  show 0xF000 ≤ s.sp.toNat - 2
  omega

theorem limit_le_sub_one (h : ¬ s.sp < limit + 2) : limit ≤ s.sp - 2 + 1 := by
  have down := sub_two_of_room h
  have hs := s.sp.toNat_lt
  rw [UInt16.lt_iff_toNat_lt, limit_add_two] at h
  rw [UInt16.le_iff_toNat_le, UInt16.toNat_add, down]
  show 0xF000 ≤ (s.sp.toNat - 2 + 1) % 2 ^ 16
  omega

theorem Capped.sub_two (h : s.Capped) (room : ¬ s.sp < limit + 2) :
    Capped { s with sp := s.sp - 2 } := by
  have down := sub_two_of_room room
  unfold Capped at h ⊢
  rw [UInt16.lt_iff_toNat_lt] at h ⊢
  dsimp only
  omega

instance works_push (w : Word) : Keeps Works (push w) := by
  constructor
  intro s
  unfold push
  split
  · exact Std.Refl.refl s
  · rename_i room
    -- the pointer moves before the write, and stays moved if the write fails
    have kept := (works_onMemory (Memory.writeWord (s.sp - 2) w)).related { s with sp := s.sp - 2 }
    have here := limit_le_sub_two room
    exact ⟨⟨kept.quiet.memory, fun _ => kept.quiet.bounded here⟩,
      fun capped => kept.capped (capped.sub_two room)⟩

instance upper_push (w : Word) : Keeps Upper (push w) := by
  constructor
  intro s
  unfold push
  split
  · exact Std.Refl.refl s
  · rename_i room
    have kept : Keeps (Memory.AgreesOff (limit ≤ ·)) (Memory.writeWord (s.sp - 2) w) :=
      Memory.keeps_writeWord_off (limit_le_sub_two room) (limit_le_sub_one room)
    have lifted : Keeps Upper (onMemory (Memory.writeWord (s.sp - 2) w)) :=
      keeps_onMemory (R := Memory.AgreesOff (limit ≤ ·)) _ fun _ _ h => h
    exact lifted.related { s with sp := s.sp - 2 }

theorem limit_le_add_two (h : ¬ top ≤ s.sp) (hs : limit ≤ s.sp) : limit ≤ s.sp + 2 := by
  rw [UInt16.le_iff_toNat_le] at h hs ⊢
  rw [UInt16.toNat_add]
  change ¬ 0xFFF0 ≤ s.sp.toNat at h
  change 0xF000 ≤ s.sp.toNat at hs
  show 0xF000 ≤ (s.sp.toNat + 2) % 2 ^ 16
  omega

/-- How a pop ends. -/
theorem pop_cases (s : Store) :
    (∃ e, pop s = .error e s ∧ (top ≤ s.sp ∧ e = .system .stackUnderflow ∨
      s.memory.readWord s.sp = .error e)) ∨
    ∃ w, ¬ top ≤ s.sp ∧ s.memory.readWord s.sp = .ok w ∧
      pop s = .ok w { s with sp := s.sp + 2 } := by
  unfold pop
  split
  · rename_i empty
    exact .inl ⟨_, rfl, .inl ⟨empty, rfl⟩⟩
  · rename_i room
    cases hw : s.memory.readWord s.sp with
    | ok w => exact .inr ⟨w, room, rfl, rfl⟩
    | error e => exact .inl ⟨e, rfl, .inr rfl⟩

theorem capped_add_two (h : ¬ top ≤ s.sp) : Capped { s with sp := s.sp + 2 } := by
  unfold Capped
  rw [UInt16.le_iff_toNat_le] at h
  rw [UInt16.lt_iff_toNat_lt, UInt16.toNat_add, UInt16.toNat_add]
  change ¬ 0xFFF0 ≤ s.sp.toNat at h
  show (s.sp.toNat + 2) % 2 ^ 16 < 0xFFF2
  omega

instance works_pop : Keeps Works pop := by
  constructor
  intro s
  rcases pop_cases s with ⟨e, h, -⟩ | ⟨w, room, -, h⟩
  · rw [h]
    exact Std.Refl.refl s
  · rw [h]
    exact ⟨⟨Std.Refl.refl _, limit_le_add_two room⟩, fun _ => capped_add_two room⟩

instance works_peek (depth : Word) : Keeps Works (peek depth) := by
  constructor
  intro s
  unfold peek
  dsimp only
  split
  · exact Std.Refl.refl s
  · cases s.memory.readWord (s.sp + depth * 2) with
    | ok w => exact Std.Refl.refl s
    | error e => exact Std.Refl.refl s

/-! ## Typed values and blocks -/

instance works_pushInt (v : Int) : Keeps Works (pushInt v) := by
  unfold pushInt
  infer_instance

instance works_popInt : Keeps Works popInt := by
  unfold popInt
  infer_instance

instance works_pushBool (b : Bool) : Keeps Works (pushBool b) := by
  unfold pushBool
  infer_instance

instance works_popBool : Keeps Works popBool := by
  unfold popBool
  infer_instance

instance works_pushReal (r : Single) : Keeps Works (pushReal r) := by
  unfold pushReal
  infer_instance

instance works_popReal : Keeps Works popReal := by
  unfold popReal
  infer_instance

/-- A relation that every push keeps is kept by a sequence of pushes. -/
theorem keeps_pushAll {R : Store → Store → Prop} [IsPreorder Store R]
    [∀ w, Keeps R (push w)] (ws : List Word) : Keeps R (pushAll ws) := by
  induction ws with
  | nil => exact Keeps.pure ()
  | cons w ws ih =>
    unfold pushAll
    infer_instance

instance works_pushBlock (ws : List Word) : Keeps Works (pushBlock ws) :=
  keeps_pushAll ws.reverse

instance upper_pushBlock (ws : List Word) : Keeps Upper (pushBlock ws) :=
  keeps_pushAll ws.reverse

instance works_popBlock (n : Nat) : Keeps Works (popBlock n) := by
  unfold popBlock
  infer_instance

/-! ## Pushes that succeed -/

/-- The cells of the stack, and those above it, are plain memory that can be written. -/
def Open (m : Memory) : Prop :=
  ∀ a, limit ≤ a → m.Free a

theorem Open.guarded {m m' : Memory} (h : Open m) (g : Memory.Guarded m m') : Open m' := by
  intro a ha
  have free := h a ha
  exact ⟨free.valid, (g.mapped a).trans free.unmapped, (g.readOnly a).trans free.unlocked⟩

/-- A push onto two cells of plain memory writes the word there and nothing else. -/
theorem push_free (room : ¬ s.sp < limit + 2) (low : s.memory.Free (s.sp - 2))
    (high : s.memory.Free (s.sp - 2 + 1)) (w : Word) :
    ∃ memory, push w s = .ok () { memory := memory, sp := s.sp - 2 } ∧
      Memory.Guarded s.memory memory ∧ memory.peekWord (s.sp - 2) = w ∧
      Memory.AgreesOff (fun a => a = s.sp - 2 ∨ a = s.sp - 2 + 1) s.memory memory := by
  have written := Memory.writeWord_free (w := w) low high
  have off : Keeps (Memory.AgreesOff fun a => a = s.sp - 2 ∨ a = s.sp - 2 + 1)
      (Memory.writeWord (s.sp - 2) w) := Memory.keeps_writeWord_off (.inl rfl) (.inr rfl)
  refine ⟨_, ?_, Keeps.of_ok written,
    Memory.peekWord_of_writeWord low.unmapped high.unmapped written, off.of_ok written⟩
  unfold push
  rw [if_neg room]
  unfold onMemory
  rw [written]

theorem push_open (h : Open s.memory) (room : ¬ s.sp < limit + 2) (w : Word) :
    ∃ memory, push w s = .ok () { memory := memory, sp := s.sp - 2 } ∧ Open memory ∧
      memory.peekWord (s.sp - 2) = w ∧
      Memory.AgreesOff (fun a => a = s.sp - 2 ∨ a = s.sp - 2 + 1) s.memory memory := by
  obtain ⟨memory, pushed, guarded, word, off⟩ :=
    push_free room (h _ (limit_le_sub_two room)) (h _ (limit_le_sub_one room)) w
  exact ⟨memory, pushed, h.guarded guarded, word, off⟩

theorem sub_ofNat_toNat {a : Address} {n : Nat} (h : n ≤ a.toNat) :
    (a - UInt16.ofNat n).toNat = a.toNat - n := by
  have ha := a.toNat_lt
  rw [UInt16.toNat_sub, UInt16.toNat_ofNat']
  omega

/-- Words that fit are pushed one below the other. -/
theorem pushAll_open (ws : List Word) (h : Open s.memory)
    (room : limit.toNat + 2 * ws.length ≤ s.sp.toNat) :
    ∃ memory,
      pushAll ws s = .ok () { memory := memory, sp := s.sp - UInt16.ofNat (2 * ws.length) } ∧
      (∀ i (hi : i < ws.length),
        memory.peekWord (s.sp - UInt16.ofNat (2 * (i + 1))) = ws[i]) ∧
      Memory.AgreesOff (· < s.sp) s.memory memory ∧ memory.order = s.memory.order := by
  change 0xF000 + 2 * ws.length ≤ s.sp.toNat at room
  induction ws generalizing s with
  | nil =>
    refine ⟨s.memory, ?_, ?_, fun _ _ => rfl, rfl⟩
    · simp [pushAll]
    · intro i hi
      cases hi
  | cons w ws ih =>
    rw [List.length_cons] at room
    have fits : ¬ s.sp < limit + 2 := by
      rw [UInt16.lt_iff_toNat_lt, limit_add_two]
      omega
    have down := sub_two_of_room fits
    obtain ⟨memory, pushed, open_, word, off⟩ := push_open h fits w
    obtain ⟨memory', rest, words, below, order⟩ :=
      ih (s := { memory := memory, sp := s.sp - 2 }) open_ (by dsimp only; omega)
    -- the words that follow go below the first
    have step (n : Nat) : s.sp - 2 - UInt16.ofNat n = s.sp - UInt16.ofNat (n + 2) := by
      apply UInt16.toNat_inj.1
      simp only [UInt16.toNat_sub, UInt16.toNat_ofNat', UInt16.reduceToNat]
      omega
    have kept : Memory.Guarded s.memory memory := by
      have := (works_push w).of_ok pushed
      exact this.quiet.memory
    refine ⟨memory', ?_, ?_, ?_, order.trans kept.order⟩
    · unfold pushAll
      rw [bind_of_ok pushed, rest, step]
      rfl
    · intro i hi
      cases i with
      | zero =>
        -- the pushes that follow stay below the word
        have one : ¬ s.sp - 2 + 1 < s.sp - 2 := by
          rw [UInt16.lt_iff_toNat_lt, UInt16.toNat_add, down]
          have := s.sp.toNat_lt
          simp only [UInt16.reduceToNat]
          omega
        exact (Memory.peekWord_congr order (below.peekByte (UInt16.lt_irrefl _))
          (below.peekByte one)).trans word
      | succ i =>
        have := words i (by simpa using hi)
        rw [step] at this
        exact this
    · -- what lies at or above the old pointer is not written
      intro a (ha : ¬ a < s.sp)
      have high : ¬ a < s.sp - 2 := by
        rw [UInt16.lt_iff_toNat_lt] at ha ⊢
        omega
      refine (below a high).trans (off a ?_)
      rintro (rfl | rfl)
      · rw [UInt16.lt_iff_toNat_lt] at ha
        omega
      · apply ha
        rw [UInt16.lt_iff_toNat_lt, UInt16.toNat_add, down]
        have := s.sp.toNat_lt
        simp only [UInt16.reduceToNat]
        omega

/-- A block that fits ends on top of the stack, its head on top. -/
theorem pushBlock_open (ws : List Word) (h : Open s.memory)
    (room : limit.toNat + 2 * ws.length ≤ s.sp.toNat) :
    ∃ s', pushBlock ws s = .ok () s' ∧ s'.sp = s.sp - UInt16.ofNat (2 * ws.length) ∧
      ∀ i (hi : i < ws.length), s'.memory.peekWord (s'.sp + UInt16.ofNat (2 * i)) = ws[i] := by
  have reversed : ws.reverse.length = ws.length := List.length_reverse
  obtain ⟨memory, pushed, words, -⟩ := pushAll_open ws.reverse h (by rwa [reversed])
  rw [reversed] at pushed
  refine ⟨_, pushed, rfl, ?_⟩
  intro i hi
  -- a block is pushed from its last word to its first
  have word := words (ws.length - 1 - i) (by rw [reversed]; omega)
  have place : s.sp - UInt16.ofNat (2 * (ws.length - 1 - i + 1)) =
      s.sp - UInt16.ofNat (2 * ws.length) + UInt16.ofNat (2 * i) := by
    change 0xF000 + 2 * ws.length ≤ s.sp.toNat at room
    have := s.sp.toNat_lt
    apply UInt16.toNat_inj.1
    rw [UInt16.toNat_add, sub_ofNat_toNat (by omega), sub_ofNat_toNat (by omega),
      UInt16.toNat_ofNat']
    omega
  rw [place] at word
  rw [word, List.getElem_reverse]
  congr 1
  omega

end Store

/-! ## Sets -/

namespace WordSet

instance works_pop : Keeps Store.Works pop := by
  unfold pop
  infer_instance

instance works_push (a : WordSet) : Keeps Store.Works a.push := by
  unfold push
  infer_instance

end WordSet

/-! ## Long integers -/

namespace Decimal

instance works_popDigits (n : Nat) (above : Magnitude) : Keeps Store.Works (popDigits n above) := by
  induction n generalizing above with
  | zero => exact Keeps.pure above
  | succ n ih =>
    unfold popDigits
    infer_instance

instance works_orFault {α : Type} (x : Except Fault α) : Keeps Store.Works (orFault x) := by
  cases x with
  | ok a => exact Keeps.pure a
  | error e => exact Keeps.throw e

instance works_pop : Keeps Store.Works pop := by
  unfold pop
  infer_instance

instance works_pushSized (a : Decimal) (words : Nat) : Keeps Store.Works (a.pushSized words) := by
  have (ws : List Word) : Keeps Store.Works (Store.pushAll ws) := Store.keeps_pushAll ws
  unfold pushSized
  infer_instance

instance works_push (a : Decimal) : Keeps Store.Works a.push := by
  unfold push
  infer_instance

instance works_binary (f : Decimal → Decimal → Except Fault Decimal) :
    Keeps Store.Works (binary f) := by
  unfold binary
  infer_instance

instance works_perform (operation : Operation) : Keeps Store.Works (perform operation) := by
  cases operation with
  | compare =>
    unfold perform
    have (code : Word) (a b : Decimal) : Keeps Store.Works
        (match relation? code with
          | some holds => Store.pushBool (holds a b)
          | none => throw (.invalidIndex (Word.signed code))) := by
      cases relation? code with
      | some holds => exact Store.works_pushBool _
      | none => exact Keeps.throw _
    infer_instance
  | _ =>
    unfold perform
    infer_instance

instance works_execute : Keeps Store.Works execute := by
  have (code : Word) : Keeps Store.Works
      (match Operation.ofCode? code with
        | some operation => perform operation
        | none => throw (.unimplemented (.decimalOperation code))) := by
    cases Operation.ofCode? code with
    | some operation => exact works_perform operation
    | none => exact Keeps.throw _
  unfold execute
  infer_instance

end Decimal
end PSystem
