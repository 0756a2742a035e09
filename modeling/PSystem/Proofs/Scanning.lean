import PSystem.Proofs.InstructionRuns

/-!
# Scans

SCAN looks at one byte after another, upward or downward from an address, until one passes a test or the
limit is reached.  Main statement: `scan_finds_first`.

The offsets are counted by steps (`Scan.offset`), so that both directions are one induction on the steps
that are left (`Scan.scanOffsets_cases`): no step before has passed the test or met address 0.
-/

namespace PSystem
namespace Machine

/-- What SCAN takes from the stack. -/
structure Scan where
  start : Address
  character : Word
  /-- Zero for a byte that equals the character, else for a byte that differs. -/
  kind : Word
  limit : Word

namespace Scan

variable (s : Scan) {m : Memory} {b : UInt8} {k r : Nat}

/-- Whether a byte is one that is searched. -/
def test (b : UInt8) : Bool :=
  if s.kind = 0 then b == s.character.toUInt8 else b != s.character.toUInt8

/-- The number of offsets up or down to the limit, without it. -/
def reach : Nat :=
  (Word.signed s.limit).natAbs

/-- The offset after `k` steps, in the direction of the limit. -/
def offset (k : Nat) : Int :=
  if Word.signed s.limit < 0 then -(k : Int) else k

/-- The address after `k` steps. -/
def place (k : Nat) : Address :=
  s.start + Word.ofSigned (s.offset k)

/-- The byte after `k` steps can be read and passes the test. -/
def Passes (m : Memory) (k : Nat) : Prop :=
  ∃ b, m.readByte (s.place k) = .ok b ∧ s.test b = true

instance (m : Memory) (k : Nat) : Decidable (s.Passes m k) :=
  match read : m.readByte (s.place k) with
  | .ok b =>
    decidable_of_iff (s.test b = true)
      ⟨fun passed => ⟨b, read, passed⟩, fun ⟨_, read', passed⟩ => by
        cases read.symm.trans read'
        exact passed⟩
  | .error _ => isFalse fun ⟨_, read', _⟩ => by cases read.symm.trans read'

/-- Address 0 is met before a byte that passes the test. -/
def MeetsZero (m : Memory) : Prop :=
  ∃ k < s.reach, s.place k = 0 ∧ ∀ j < k, ¬ s.Passes m j

/-- The answers of a scan. -/
inductive Answers (m : Memory) : Int → Prop
  /-- The first offset whose byte passes the test. -/
  | found (k : Nat) (inside : k < s.reach) (passes : s.Passes m k) (first : ∀ j < k, ¬ s.Passes m j) :
    Answers m (s.offset k)
  /-- The limit, if none does. -/
  | limit (none : ∀ k < s.reach, ¬ s.Passes m k) : Answers m (Word.signed s.limit)

variable {s}

theorem offsetsBefore_limit :
    offsetsBefore (Word.signed s.limit) = (List.range' 0 s.reach).map s.offset := by
  rw [offsetsBefore, List.range_eq_range']
  rfl

theorem bounds_signed (w : Word) : -0x8000 ≤ Word.signed w ∧ Word.signed w < 0x8000 := by
  have bound := w.toNat_lt
  rw [Word.signed]
  split <;> omega

/-- Every answer is an integer of the machine. -/
theorem Answers.bounds {v : Int} (h : s.Answers m v) : -0x8000 ≤ v ∧ v < 0x8000 := by
  have limit := bounds_signed s.limit
  cases h with
  | found k inside _ _ =>
    rw [reach] at inside
    rw [offset]
    split <;> omega
  | limit _ => exact limit

/-- A scan has one answer. -/
theorem Answers.unique {v v' : Int} (h : s.Answers m v) (h' : s.Answers m v') : v = v' := by
  cases h with
  | found k inside passes first =>
    cases h' with
    | found k' _ passes' first' =>
      rcases Nat.lt_trichotomy k k' with earlier | rfl | later
      · exact absurd passes (first' k earlier)
      · rfl
      · exact absurd passes' (first k' later)
    | limit none => exact absurd passes (none k inside)
  | limit none =>
    cases h' with
    | found k inside passes _ => exact absurd passes (none k inside)
    | limit _ => rfl

theorem exists_readByte {a : Address} (valid : a ≠ 0) : ∃ b, m.readByte a = .ok b := by
  rw [Memory.readByte, if_neg valid]
  split
  · exact ⟨_, rfl⟩
  · exact ⟨_, rfl⟩

theorem scanOffsets_of_zero (zero : s.place k = 0) (limit : Int) (rest : List Int) :
    scanOffsets m s.start s.test limit (s.offset k :: rest) = .error (.invalidReference 0) := by
  have failed : m.readByte (s.place k) = .error (.invalidReference 0) := by
    rw [zero, Memory.readByte, if_pos rfl]
  rw [place] at failed
  rw [scanOffsets, failed]
  rfl

theorem scanOffsets_of_read (read : m.readByte (s.place k) = .ok b) (limit : Int) (rest : List Int) :
    scanOffsets m s.start s.test limit (s.offset k :: rest) =
      if s.test b then .ok (s.offset k) else scanOffsets m s.start s.test limit rest := by
  rw [place] at read
  rw [scanOffsets, read]
  rfl

/-- A scan that has come to step `k` fails if it meets address 0, and else it has an answer. -/
theorem scanOffsets_cases (total : k + r = s.reach)
    (before : ∀ j < k, s.place j ≠ 0 ∧ ¬ s.Passes m j) :
    (s.MeetsZero m ∧ scanOffsets m s.start s.test (Word.signed s.limit)
      ((List.range' k r).map s.offset) = .error (.invalidReference 0)) ∨
    (¬ s.MeetsZero m ∧ ∃ v, s.Answers m v ∧ scanOffsets m s.start s.test (Word.signed s.limit)
      ((List.range' k r).map s.offset) = .ok v) := by
  -- The induction is on the places still to be looked at; none of those before has passed, and none
  -- was at zero.
  induction r generalizing k with
  | zero =>
    obtain rfl : k = s.reach := total
    refine .inr ⟨?_, _, .limit fun j hj => (before j hj).2, rfl⟩
    rintro ⟨z, hz, zero, -⟩
    exact (before z hz).1 zero
  | succ r ih =>
    rw [List.range'_succ, List.map_cons]
    by_cases zero : s.place k = 0
    · exact .inl ⟨⟨k, by omega, zero, fun j hj => (before j hj).2⟩, scanOffsets_of_zero zero _ _⟩
    · obtain ⟨b, read⟩ := exists_readByte (m := m) zero
      rw [scanOffsets_of_read read]
      by_cases passed : s.test b = true
      · have passes : s.Passes m k := ⟨b, read, passed⟩
        rw [if_pos passed]
        refine .inr ⟨?_, _, .found k (by omega) passes fun j hj => (before j hj).2, rfl⟩
        rintro ⟨z, -, here, none⟩
        rcases Nat.lt_trichotomy z k with earlier | rfl | later
        · exact (before z earlier).1 here
        · exact zero here
        · exact none k later passes
      · rw [if_neg passed]
        refine ih (by omega) fun j hj => ?_
        rcases Nat.lt_or_eq_of_le (Nat.le_of_lt_succ hj) with earlier | rfl
        · exact before j earlier
        · refine ⟨zero, ?_⟩
          rintro ⟨c, read', passed'⟩
          cases read.symm.trans read'
          exact passed passed'

/-! ## The procedure -/

variable {machine : Machine} {rest : List Word}

/-- The words that SCAN takes, below a mask that nothing is done with. -/
def words (s : Scan) : List Word :=
  [s.start, s.character, s.kind, s.limit]

theorem scanBytes_apply {mask : Word} (holds : machine.store.Holds (mask :: s.words ++ rest)) :
    (machine.dropped 10).store.Holds rest ∧
      scanBytes machine = (do
        let v ← reading (scanOffsets · s.start s.test (Word.signed s.limit)
          ((List.range' 0 s.reach).map s.offset))
        pushInt v : Run Machine Unit) (machine.dropped 10) := by
  have h₁ := holds_dropped holds
  have h₂ := holds_dropped h₁
  have h₃ := holds_dropped h₂
  have h₄ := holds_dropped h₃
  have left := holds_dropped h₄
  simp only [dropped_dropped] at left
  refine ⟨left, ?_⟩
  rw [scanBytes, pop_bind holds, pop_bind h₁, pop_bind h₂, pop_bind h₃, popInt_bind h₄]
  simp only [dropped_dropped]
  rw [← offsetsBefore_limit]
  rfl

/-- SCAN takes five words from the stack and fails if it meets address 0 before a byte that passes the
test.  Else it pushes the offset of the first byte that does, or the limit, and changes no cell off the
stack. -/
theorem scan_finds_first (s : Scan) {mask : Word}
    (reads : machine.memory.Reads machine.nextAddress.toNat
      [Opcode.csp.code, StandardProcedure.scan.code])
    (holds : machine.store.Holds (mask :: s.words ++ rest)) :
    (s.MeetsZero machine.memory →
      executeNext machine = .error (.trap (.invalidReference 0))
        ((machine.dropped 10).movedTo (machine.nextAddress + 2))) ∧
    (¬ s.MeetsZero machine.memory → ∃ t result,
      executeNext machine = .ok () ((machine.withStore t).movedTo (machine.nextAddress + 2)) ∧
        s.Answers machine.memory (Word.signed result) ∧ t.Holds (result :: rest) ∧
        Memory.Within (Store.Below Store.top) machine.memory t.memory) := by
  have executes : executeNext machine =
      (liftM scanBytes : Exec Unit) (machine.movedTo (machine.nextAddress + 2)) :=
    executeNext_of_standard reads
  have fetched : (machine.movedTo (machine.nextAddress + 2)).store.Holds (mask :: s.words ++ rest) := holds
  obtain ⟨left, apply⟩ := scanBytes_apply fetched
  have searched := scanOffsets_cases (s := s) (m := machine.memory) (Nat.zero_add s.reach)
    fun j hj => absurd hj (Nat.not_lt_zero j)
  rw [executes]
  rcases searched with ⟨meets, failed⟩ | ⟨clear, v, answers, found⟩
  · refine ⟨fun _ => raising_of_error ?_, fun clear => absurd meets clear⟩
    exact apply.trans (bind_of_error (reading_of_error failed))
  · refine ⟨fun meets => absurd meets clear, fun _ => ?_⟩
    -- The operands were on the stack, so there is room for the one word of the result.
    have room : rest.length < Store.capacity := by
      have few := holds.length_le
      rw [List.length_append] at few
      change 5 + _ ≤ _ at few
      omega
    obtain ⟨t, pushed, after, within⟩ := produces_push left room (Word.ofSigned v)
    refine ⟨t, Word.ofSigned v, raising_of_ok ?_, ?_, after, within⟩
    · exact apply.trans ((bind_of_ok (reading_apply found)).trans pushed)
    · rw [signed_ofSigned answers.bounds.1 answers.bounds.2]
      exact answers

/-- Down from 0x2003 for an A, at most four bytes. -/
def downForA : Scan where
  start := 0x2003
  character := 0x41
  kind := 0
  limit := Word.ofSigned (-4)

/-- The A stands two bytes below. -/
def scanningDown : Machine :=
  primed
    (do
      Memory.writeBytes 0x1000 [Opcode.csp.code, StandardProcedure.scan.code]
      Memory.writeByte 0x2001 0x41) (0 :: downForA.words) 0x1000

theorem scan_finds_first_down : ∃ t result,
    executeNext scanningDown = .ok () ((scanningDown.withStore t).movedTo 0x1002) ∧
      t.Holds [result] ∧ Word.signed result = -2 := by
  have holds : scanningDown.store.Holds (0 :: downForA.words ++ []) := holds_primed _ (by decide) _
  have reads : scanningDown.memory.Reads scanningDown.nextAddress.toNat
      [Opcode.csp.code, StandardProcedure.scan.code] := by decide +kernel
  have clear : ¬ downForA.MeetsZero scanningDown.memory := by
    rintro ⟨k, hk, zero, -⟩
    exact (by decide : ∀ k < downForA.reach, downForA.place k ≠ 0) k hk zero
  have second : downForA.Answers scanningDown.memory (-2) :=
    .found 2 (by decide) (by decide +kernel) (by decide +kernel)
  obtain ⟨t, result, ran, answers, after, -⟩ := (downForA.scan_finds_first reads holds).2 clear
  exact ⟨t, result, ran, after, answers.unique second⟩

end Scan
end Machine
end PSystem
