import PSystem.Proofs.InstructionRuns

/-!
# Moves of bytes

MOVELEFT copies a range of bytes from its low end up, MOVERIGHT from its high end down.  Where the ranges
overlap, a byte may be read that the same move has written.  Main statement: `moves_bytes`.

A `Sweep` is the order of the copies.  What a step reads is what the step `lag` steps before it wrote, if
there was one, so step `k` writes what stood at the source of step `k % lag` when the move began
(`Copied.step`).  Where the order is such that no byte is written before it is read, `lag` is 0 or no step
reaches back so far.
-/

namespace PSystem

namespace Memory

variable {m m' : Memory} {a b : Address} {n : Nat}

/-- The cells of `n` addresses from `a` on. -/
def InRange (a : Address) (n : Nat) (b : Address) : Prop :=
  a ≤ b ∧ b.toNat < a.toNat + n

theorem within_store (v : UInt8) (h : m.Free a) : Within (fun b => b = a) m (m.store a v) where
  toGuarded := guarded_store h.unlocked
  off _ hb := cell_store_of_ne fun eq => hb eq.symm

theorem Guarded.legible (h : Guarded m m') (legible : m.Legible a n) : m'.Legible a n :=
  fun i hi => ⟨(legible i hi).1, (h.mapped _).trans (legible i hi).2⟩

theorem Legible.readByte_add {i : Nat} (h : m.Legible a n) (hi : i < n) :
    m.readByte (a + UInt16.ofNat i) = .ok (m.peekByte (a + UInt16.ofNat i)) :=
  readByte_unmapped (h i hi).1 (h i hi).2

end Memory

namespace Machine

open Memory (InRange)

variable {m : Machine} {memory memory' : Memory} {source destination : Address} {n k : Nat}

/-! ## Orders of copies -/

/-- The ranges of a move end within the addresses, and their cells are those of a program. -/
structure Movable (memory : Memory) (source destination : Address) (n : Nat) : Prop where
  source_fits : source.toNat + n ≤ 2 ^ 16
  destination_fits : destination.toNat + n ≤ 2 ^ 16
  legible : memory.Legible source n
  free : ∀ i < n, memory.Free (destination + UInt16.ofNat i)

/-- An order in which `n` bytes are copied. -/
structure Sweep (source destination : Address) (n : Nat) where
  /-- The distance from the start of the range of the byte that a step copies. -/
  offset : Nat → Nat
  /-- How many steps after a byte was written it is read. -/
  lag : Nat
  inside : ∀ k < n, offset k < n
  apart : ∀ k < n, ∀ j < k,
    destination + UInt16.ofNat (offset k) ≠ destination + UInt16.ofNat (offset j)
  meets : ∀ k < n, ∀ j < k,
    source + UInt16.ofNat (offset k) = destination + UInt16.ofNat (offset j) ↔ j + lag = k

namespace Sweep

variable (w : Sweep source destination n)

/-- The cells written by the first `k` steps. -/
def Written (k : Nat) (b : Address) : Prop :=
  ∃ j < k, b = destination + UInt16.ofNat (w.offset j)

/-- A step depends on itself if no byte it reads was written before. -/
theorem mod_lag (early : w.lag = 0 ∨ k < w.lag) : k % w.lag = k := by
  rcases early with none | early
  · rw [none, Nat.mod_zero]
  · exact Nat.mod_eq_of_lt early

/-- The first `k` steps are done: each has put at its place what stood at the source of the step that it
depends on. -/
structure Copied (memory memory' : Memory) (k : Nat) : Prop
    extends Memory.Within (w.Written k) memory memory' where
  bytes : ∀ j < k, memory'.peekByte (destination + UInt16.ofNat (w.offset j)) =
    memory.peekByte (source + UInt16.ofNat (w.offset (j % w.lag)))

variable {w}

theorem copied_zero (memory : Memory) : w.Copied memory memory 0 where
  toWithin := Std.Refl.refl memory
  bytes j hj := absurd hj (Nat.not_lt_zero j)

/-- What the next step reads. -/
theorem Copied.peekByte (h : w.Copied memory memory' k) (hk : k < n) :
    memory'.peekByte (source + UInt16.ofNat (w.offset k)) =
      memory.peekByte (source + UInt16.ofNat (w.offset (k % w.lag))) := by
  by_cases late : 0 < w.lag ∧ w.lag ≤ k
  · have met := (w.meets k hk (k - w.lag) (by omega)).2 (by omega)
    rw [met, h.bytes (k - w.lag) (by omega), Nat.mod_eq_sub_mod late.2]
  · -- no step has reached the cell
    have unwritten : ¬ w.Written k (source + UInt16.ofNat (w.offset k)) := by
      rintro ⟨j, hj, met⟩
      have := (w.meets k hk j hj).1 met
      omega
    rw [h.off.peekByte unwritten, w.mod_lag (by omega)]

theorem Copied.step (h : w.Copied memory memory' k) (hk : k < n)
    (free : memory'.Free (destination + UInt16.ofNat (w.offset k))) :
    w.Copied memory (memory'.store (destination + UInt16.ofNat (w.offset k))
      (memory'.peekByte (source + UInt16.ofNat (w.offset k)))) (k + 1) where
  toWithin := by
    refine IsTrans.trans _ _ _ (h.mono ?_) ((Memory.within_store _ free).mono ?_)
    · rintro b ⟨j, hj, rfl⟩
      exact ⟨j, by omega, rfl⟩
    · rintro b rfl
      exact ⟨k, by omega, rfl⟩
  bytes j hj := by
    rcases Nat.lt_or_eq_of_le (Nat.le_of_lt_succ hj) with before | rfl
    · rw [Memory.peekByte, Memory.cell_store_of_ne (w.apart k hk j before)]
      exact h.bytes j before
    · rw [Memory.peekByte_store_self, h.peekByte hk]

/-- Where no step reads what another one wrote, the bytes are those that stood at the source. -/
theorem Copied.whole (h : w.Copied memory memory' n) (far : w.lag = 0 ∨ n ≤ w.lag) {j : Nat}
    (hj : j < n) :
    memory'.peekByte (destination + UInt16.ofNat (w.offset j)) =
      memory.peekByte (source + UInt16.ofNat (w.offset j)) := by
  rw [h.bytes j hj, w.mod_lag (by omega)]

/-- The steps from `k` on finish the move. -/
theorem Copied.endsIn_copyBytes (movable : Movable memory source destination n) {r : Nat}
    (rest : k + r = n) (h : w.Copied memory m.memory k) :
    EndsIn (copyBytes source destination ((List.range' k r).map fun i => UInt16.ofNat (w.offset i))) m
      fun s => s.sp = m.store.sp ∧ w.Copied memory s.memory n := by
  induction r generalizing k m with
  | zero =>
    obtain rfl : k = n := rest
    exact ⟨m.store, rfl, rfl, h⟩
  | succ r ih =>
    have hk : k < n := by omega
    have read := (h.toGuarded.legible movable.legible).readByte_add (w.inside k hk)
    have free := h.toGuarded.free (movable.free _ (w.inside k hk))
    obtain ⟨s, ran, sp, copied⟩ := ih (m := m.withMemory _) (by omega) (h.step hk free)
    refine ⟨s, ?_, sp, copied⟩
    rw [List.range'_succ, List.map_cons, copyBytes, bind_of_ok (reading_apply read),
      bind_of_ok (onMemory_of_ok (Memory.writeByte_free free))]
    exact ran

/-! ## Both directions -/

/-- From the low end up. -/
def upward (source_fits : source.toNat + n ≤ 2 ^ 16) (destination_fits : destination.toNat + n ≤ 2 ^ 16) :
    Sweep source destination n where
  offset k := k
  lag := destination.toNat - source.toNat
  inside _ hk := hk
  apart k hk j hj := by
    rw [Ne, ← UInt16.toNat_inj, toNat_add_ofNat (by omega), toNat_add_ofNat (by omega)]
    omega
  meets k hk j hj := by
    rw [← UInt16.toNat_inj, toNat_add_ofNat (by omega), toNat_add_ofNat (by omega)]
    omega

/-- From the high end down. -/
def downward (source_fits : source.toNat + n ≤ 2 ^ 16)
    (destination_fits : destination.toNat + n ≤ 2 ^ 16) : Sweep source destination n where
  offset k := n - 1 - k
  lag := source.toNat - destination.toNat
  inside _ hk := by omega
  apart k hk j hj := by
    rw [Ne, ← UInt16.toNat_inj, toNat_add_ofNat (by omega), toNat_add_ofNat (by omega)]
    omega
  meets k hk j hj := by
    rw [← UInt16.toNat_inj, toNat_add_ofNat (by omega), toNat_add_ofNat (by omega)]
    omega

end Sweep

/-- What MOVELEFT leaves in the range it writes. -/
structure MovedLeft (source destination : Address) (n : Nat) (memory memory' : Memory) : Prop where
  /-- No byte is read after it was written. -/
  whole : destination ≤ source ∨ source.toNat + n ≤ destination.toNat → ∀ i < n,
    memory'.peekByte (destination + UInt16.ofNat i) = memory.peekByte (source + UInt16.ofNat i)
  /-- The bytes before the destination are repeated. -/
  periodic : source < destination → destination.toNat < source.toNat + n → ∀ i < n,
    memory'.peekByte (destination + UInt16.ofNat i) =
      memory.peekByte (source + UInt16.ofNat (i % (destination.toNat - source.toNat)))

/-- What MOVERIGHT leaves in the range it writes. -/
structure MovedRight (source destination : Address) (n : Nat) (memory memory' : Memory) : Prop where
  /-- No byte is read after it was written. -/
  whole : source ≤ destination ∨ destination.toNat + n ≤ source.toNat → ∀ i < n,
    memory'.peekByte (destination + UInt16.ofNat i) = memory.peekByte (source + UInt16.ofNat i)
  /-- The bytes behind the destination are repeated. -/
  periodic : destination < source → source.toNat < destination.toNat + n → ∀ i < n,
    memory'.peekByte (destination + UInt16.ofNat (n - 1 - i)) =
      memory.peekByte (source + UInt16.ofNat (n - 1 - i % (source.toNat - destination.toNat)))

namespace Sweep

variable {source_fits : source.toNat + n ≤ 2 ^ 16} {destination_fits : destination.toNat + n ≤ 2 ^ 16}

theorem Copied.movedLeft (h : (upward source_fits destination_fits).Copied memory memory' n) :
    MovedLeft source destination n memory memory' where
  whole clean i hi := by
    rw [UInt16.le_iff_toNat_le] at clean
    have far : destination.toNat - source.toNat = 0 ∨ n ≤ destination.toNat - source.toNat := by omega
    exact h.whole far hi
  periodic _ _ i hi := h.bytes i hi

theorem Copied.movedRight (h : (downward source_fits destination_fits).Copied memory memory' n) :
    MovedRight source destination n memory memory' where
  whole clean i hi := by
    rw [UInt16.le_iff_toNat_le] at clean
    have far : source.toNat - destination.toNat = 0 ∨ n ≤ source.toNat - destination.toNat := by omega
    have same := h.whole far (j := n - 1 - i) (by omega)
    have turned : (downward source_fits destination_fits).offset (n - 1 - i) = i := by
      show n - 1 - (n - 1 - i) = i
      omega
    rwa [turned] at same
  periodic _ _ i hi := h.bytes i hi

end Sweep

/-! ## The procedures -/

/-- The procedure that moves bytes in a direction. -/
def moving : Bool → StandardProcedure
  | false => .moveleft
  | true => .moveright

/-- What the move in a direction leaves in the range it writes. -/
def Moved : Bool → Address → Address → Nat → Memory → Memory → Prop
  | false => MovedLeft
  | true => MovedRight

variable {count : Word} {rest : List Word}

theorem moveBytes_apply (fromRight : Bool) (holds : m.store.Holds (count :: destination :: source :: rest)) :
    moveBytes fromRight m =
      copyBytes source destination
        (let offsets := (List.range (Word.signed count).toNat).map UInt16.ofNat
          if fromRight then offsets.reverse else offsets) (m.dropped 6) := by
  have h₁ := holds_dropped holds
  rw [moveBytes, popInt_bind holds, pop_bind h₁, pop_bind (holds_dropped h₁), dropped_dropped,
    dropped_dropped]
  rfl

theorem executeNext_of_moving {fromRight : Bool}
    (reads : m.memory.Reads m.nextAddress.toNat [Opcode.csp.code, (moving fromRight).code]) :
    executeNext m = (liftM (moveBytes fromRight) : Exec Unit) (m.movedTo (m.nextAddress + 2)) := by
  rw [executeNext_of_standard reads]
  cases fromRight <;> rfl

/-- The bytes are copied in the order of the direction. -/
theorem endsIn_moveBytes (fromRight : Bool)
    (holds : m.store.Holds (count :: destination :: source :: rest)) (size : Word.signed count = n)
    (movable : Movable m.memory source destination n) :
    EndsIn (moveBytes fromRight) m fun s => s.sp = m.store.sp + 6 ∧
      Memory.Within (InRange destination n) m.memory s.memory ∧
      Moved fromRight source destination n m.memory s.memory := by
  have count : (Word.signed count).toNat = n := by omega
  have inRange {b : Address} {i : Nat} (hi : i < n) (eq : b = destination + UInt16.ofNat i) :
      InRange destination n b := by
    have fits := movable.destination_fits
    rw [eq, InRange, UInt16.le_iff_toNat_le, toNat_add_ofNat (by omega)]
    omega
  have steps (w : Sweep source destination n) :=
    (w.copied_zero m.memory).endsIn_copyBytes (m := m.dropped 6) movable (Nat.zero_add n)
  have apply := moveBytes_apply fromRight holds
  rw [count] at apply
  -- either direction is a sweep over the same range
  cases fromRight with
  | false =>
    obtain ⟨s, ran, sp, copied⟩ := steps (.upward movable.source_fits movable.destination_fits)
    refine ⟨s, ?_, sp, copied.mono ?_, copied.movedLeft⟩
    · rw [apply, List.range_eq_range']
      exact ran
    · rintro b ⟨j, hj, eq⟩
      exact inRange hj eq
  | true =>
    obtain ⟨s, ran, sp, copied⟩ := steps (.downward movable.source_fits movable.destination_fits)
    refine ⟨s, ?_, sp, copied.mono ?_, copied.movedRight⟩
    · have turned : ((List.range n).map UInt16.ofNat).reverse =
          (List.range' 0 n).map fun k => UInt16.ofNat (n - 1 - k) := by
        rw [List.range_eq_range', ← List.map_reverse, List.reverse_range', List.map_map,
          List.range_eq_range', Nat.zero_add]
        rfl
      rw [apply]
      dsimp only
      rw [if_pos rfl, turned]
      exact ran
    · rintro b ⟨j, hj, eq⟩
      have inside : n - 1 - j < n := by omega
      exact inRange inside eq

/-- MOVELEFT and MOVERIGHT take three words from the stack, move the bytes in their direction and change
no other byte; a count that is not positive moves none. -/
theorem moves_bytes (fromRight : Bool)
    (reads : m.memory.Reads m.nextAddress.toNat [Opcode.csp.code, (moving fromRight).code])
    (holds : m.store.Holds (count :: destination :: source :: rest)) :
    (Word.signed count ≤ 0 → executeNext m = .ok () ((m.dropped 6).movedTo (m.nextAddress + 2))) ∧
    ∀ n : Nat, Word.signed count = n → Movable m.memory source destination n →
      ∃ s : Store, executeNext m = .ok () ((m.withStore s).movedTo (m.nextAddress + 2)) ∧
        s.sp = m.store.sp + 6 ∧ Memory.Within (InRange destination n) m.memory s.memory ∧
        Moved fromRight source destination n m.memory s.memory := by
  rw [executeNext_of_moving reads]
  constructor
  · intro none
    have empty : (Word.signed count).toNat = 0 := by omega
    apply raising_of_ok
    rw [moveBytes_apply (m := m.movedTo (m.nextAddress + 2)) fromRight holds, empty]
    cases fromRight <;> rfl
  · intro n size movable
    obtain ⟨s, ran, moved⟩ :=
      endsIn_moveBytes (m := m.movedTo (m.nextAddress + 2)) fromRight holds size movable
    exact ⟨s, raising_of_ok ran, moved⟩

/-- A and B stand at 0x2000, and the next instruction moves five bytes from there up by two. -/
def movingUp : Machine :=
  primed
    (do
      Memory.writeBytes 0x1000 [Opcode.csp.code, StandardProcedure.moveleft.code]
      Memory.writeBytes 0x2000 [0x41, 0x42, 0x43, 0x44, 0x45]) [5, 0x2002, 0x2000] 0x1000

/-- A and B are repeated. -/
theorem moves_bytes_up : ∃ s : Store,
    executeNext movingUp = .ok () ((movingUp.withStore s).movedTo 0x1002) ∧
      ∀ i < 5, s.memory.peekByte (0x2002 + UInt16.ofNat i) = if i % 2 = 0 then 0x41 else 0x42 := by
  have holds : movingUp.store.Holds [5, 0x2002, 0x2000] := holds_primed _ (by decide) _
  have reads : movingUp.memory.Reads movingUp.nextAddress.toNat
      [Opcode.csp.code, (moving false).code] := by decide +kernel
  have movable : Movable movingUp.memory 0x2000 0x2002 5 :=
    ⟨by decide, by decide, by decide +kernel, by decide +kernel⟩
  obtain ⟨s, ran, -, -, moved⟩ := (moves_bytes false reads holds).2 5 (by decide) movable
  refine ⟨s, ran, fun i hi => ?_⟩
  have first : movingUp.memory.peekByte (0x2000 + UInt16.ofNat 0) = 0x41 := by decide +kernel
  have second : movingUp.memory.peekByte (0x2000 + UInt16.ofNat 1) = 0x42 := by decide +kernel
  have distance : (0x2002 : Word).toNat - (0x2000 : Word).toNat = 2 := by decide
  rw [moved.periodic (by decide) (by decide) i hi, distance]
  rcases Nat.mod_two_eq_zero_or_one i with even | odd
  · rw [even, first]
    rfl
  · rw [odd, second]
    rfl

end Machine
end PSystem
