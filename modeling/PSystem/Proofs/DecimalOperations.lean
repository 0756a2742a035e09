import PSystem.Proofs.DecimalStack

/-!
# What the long integer routine answers

A `Decimal.Request` is an operation together with operands of the form that it expects, and
`Request.result` is what it should leave in their place: the exact result on integers, or the fault
if the result has no representation.  The operands may be any encodings of their integers; the
result depends on the integers alone.

`execute_request` says that the routine does this for every request, whatever lies below it on the
stack.
-/

namespace PSystem
namespace Decimal

open Store

/-! ## Requests -/

/-- An operation with its operands; of two, `a` lies below `b`. -/
inductive Request where
  /-- Encode the integer again, in `count` digit words. -/
  | adjust (a : Encoding) (count : Nat) (some : 1 ≤ count) (few : count ≤ maxWords)
  | add (a b : Encoding)
  | subtract (a b : Encoding)
  | multiply (a b : Encoding)
  | divide (a b : Encoding)
  | negate (a : Encoding)
  /-- Whether the relation with the given code holds of two integers. -/
  | compare (a b : Encoding) (code : Fin 6)
  | ofInt (w : Word)
  | toInt (a : Encoding)

/-- The relation on integers behind a comparison code. -/
def related (code : Fin 6) (a b : Int) : Bool :=
  match code with
  | 0 => a < b
  | 1 => a ≤ b
  | 2 => a > b
  | 3 => a ≥ b
  | 4 => a = b
  | 5 => a ≠ b

/-- The shortest encoding of an integer, unless it has more than 36 digits. -/
def shortest (v : Int) : Except Fault (List Word) :=
  if v.natAbs < 10 ^ maxDigits then .ok (encode v (wordsFor v.natAbs)) else .error .integerOverflow

namespace Request

/-- The words of a request, from the operation code down. -/
def words : Request → List Word
  | adjust a count .. => 0 :: UInt16.ofNat count :: a.words
  | add a b => 2 :: (b.words ++ a.words)
  | subtract a b => 4 :: (b.words ++ a.words)
  | negate a => 6 :: a.words
  | multiply a b => 8 :: (b.words ++ a.words)
  | divide a b => 10 :: (b.words ++ a.words)
  | compare a b code => 14 :: UInt16.ofNat code :: (b.words ++ a.words)
  | ofInt w => [16, w]
  | toInt a => 18 :: a.words

/-- The words that answer a request, or the fault. -/
def result : Request → Except Fault (List Word)
  | adjust a count .. =>
    if a.value.natAbs < 10000 ^ count then .ok (encode a.value count) else .error .integerOverflow
  | add a b => shortest (a.value + b.value)
  | subtract a b => shortest (a.value - b.value)
  | multiply a b => shortest (a.value * b.value)
  | divide a b => if b.value = 0 then .error .divideByZero else shortest (a.value.tdiv b.value)
  | negate a => shortest (-a.value)
  | compare a b code => .ok [if related code a.value b.value then 1 else 0]
  | ofInt w => shortest (Word.signed w)
  | toInt a =>
    if -32768 ≤ a.value ∧ a.value ≤ 32767 then .ok [Word.ofSigned a.value]
    else .error .integerOverflow

/-- The long integer that a request asks for. -/
def integer? : Request → Option Int
  | adjust a .. => some a.value
  | add a b => some (a.value + b.value)
  | subtract a b => some (a.value - b.value)
  | multiply a b => some (a.value * b.value)
  | divide a b => some (a.value.tdiv b.value)
  | negate a => some (-a.value)
  | ofInt w => some (Word.signed w)
  | compare .. | toInt _ => none

end Request

/-- The shortest encoding of an integer encodes it. -/
theorem exists_encoding_shortest {v : Int} {ws : List Word} (h : shortest v = .ok ws) :
    ∃ e : Encoding, e.words = ws ∧ e.value = v := by
  unfold shortest at h
  split at h
  · rename_i small
    cases h
    have few : wordsFor v.natAbs ≤ maxWords := (wordsFor_le_iff (by decide)).2 small
    have fits : v.natAbs < 10000 ^ wordsFor v.natAbs :=
      (wordsFor_le_iff (Nat.succ_le_succ (Nat.zero_le _))).1 le_rfl
    obtain ⟨e, words, value, -⟩ := exists_encoding_encode few fits
    exact ⟨e, words, value⟩
  · cases h

/-- The result of a request for a long integer is an encoding of it. -/
theorem exists_encoding_result {request : Request} {v : Int} {ws : List Word}
    (asked : request.integer? = some v) (h : request.result = .ok ws) :
    ∃ e : Encoding, e.words = ws ∧ e.value = v := by
  cases request with
  | adjust a count some_ few =>
    cases asked
    rw [Request.result] at h
    split at h
    · rename_i fits
      cases h
      obtain ⟨e, words, value, -⟩ := exists_encoding_encode few fits
      exact ⟨e, words, value⟩
    · cases h
  | divide a b =>
    cases asked
    rw [Request.result] at h
    split at h
    · cases h
    · exact exists_encoding_shortest h
  | compare | toInt => cases asked
  | add | subtract | multiply | negate | ofInt =>
    cases asked
    exact exists_encoding_shortest h

/-! ## Answers -/

/-- Whatever lies below, the computation takes `operands` away and leaves the answer in their place,
if there is room for it. -/
def Answers (x : Run Store Unit) (operands : List Word) (answer : Except Fault (List Word)) : Prop :=
  ∀ rest : List Word, (∀ ws, answer = .ok ws → ws.length + rest.length ≤ capacity) →
    match answer with
    | .ok ws => Turns x (operands ++ rest) (.ok ()) (ws ++ rest)
    | .error e => Turns x (operands ++ rest) (.error e) rest

namespace Answers

variable {α : Type} {x : Run Store α} {f : α → Run Store Unit} {operands operands' : List Word}
  {answer : Except Fault (List Word)} {a : α}

/-- The answer of what follows a computation that takes the first operands away. -/
theorem bind (first : ∀ rest, Turns x (operands ++ rest) (.ok a) rest)
    (next : Answers (f a) operands' answer) : Answers (x >>= f) (operands ++ operands') answer := by
  intro rest room
  have follows := next rest room
  rw [List.append_assoc]
  cases answer with
  | ok ws => exact Turns.bind (first _) follows
  | error e => exact Turns.bind (first _) follows

/-- The answer of what follows the pop of a word. -/
theorem pop_bind {f : Word → Run Store Unit} {w : Word} (next : Answers (f w) operands answer) :
    Answers (Store.pop >>= f) (w :: operands) answer :=
  have taken (rest : List Word) : Turns Store.pop ([w] ++ rest) (.ok w) rest := Turns.pop w rest
  bind taken next

end Answers

/-- A decimal is pushed in a given number of digit words, or is too large for them. -/
theorem pushSized_answers (v : Int) {count : Nat} (some : 1 ≤ count) (few : count ≤ maxWords) :
    Answers ((canonical v).pushSized count) []
      (if v.natAbs < 10000 ^ count then .ok (encode v count) else .error .integerOverflow) := by
  intro rest room
  by_cases fits : v.natAbs < 10000 ^ count
  · rw [if_pos fits] at room ⊢
    exact pushSized_turns some few fits (room _ rfl)
  · rw [if_neg fits]
    exact pushSized_turns_of_overflow some fits rest

/-- A decimal that was represented is pushed in as few digit words as possible. -/
theorem push_answers {v : Int} (small : v.natAbs < 10 ^ maxDigits) :
    Answers (canonical v).push [] (shortest v) := by
  have some : 1 ≤ wordsFor v.natAbs := Nat.succ_le_succ (Nat.zero_le _)
  have few : wordsFor v.natAbs ≤ maxWords := by
    rw [wordsFor_le_iff (by decide)]
    exact small
  have fits : v.natAbs < 10000 ^ wordsFor v.natAbs := (wordsFor_le_iff some).1 le_rfl
  have answers := pushSized_answers v some few
  rw [push, digitWords_canonical, shortest, if_pos small]
  rwa [if_pos fits] at answers

/-- The result of an operation on integers is pushed, or is an overflow. -/
theorem represent_answers (v : Int) :
    Answers (do push (← orFault (represent v))) [] (shortest v) := by
  by_cases small : v.natAbs < 10 ^ maxDigits
  · rw [represent, if_pos small]
    exact push_answers small
  · rw [represent, if_neg small, shortest, if_neg small]
    exact fun rest _ => Turns.bind_error (orFault_turns _ rest)

/-- An operation on two long integers takes both encodings away. -/
theorem binary_answers {f : Decimal → Decimal → Except Fault Decimal} {a b : Encoding}
    {outcome : Except Fault Decimal} {answer : Except Fault (List Word)}
    (computes : f (canonical a.value) (canonical b.value) = outcome)
    (pushes : Answers (do push (← orFault outcome)) [] answer) :
    Answers (binary f) (b.words ++ a.words) answer := by
  rw [binary, ← List.append_nil a.words]
  refine Answers.bind (pop_turns b) (Answers.bind (pop_turns a) ?_)
  rwa [computes]

/-- The code on top of the operands selects the operation. -/
theorem execute_answers_of_code {code : Word} {operation : Operation} {operands : List Word}
    {answer : Except Fault (List Word)} (known : Operation.ofCode? code = some operation)
    (performs : Answers (perform operation) operands answer) :
    Answers execute (code :: operands) answer := by
  rw [execute]
  refine Answers.pop_bind ?_
  rwa [known]

/-- A word that is pushed is the answer. -/
theorem pushWord_answers (w : Word) : Answers (Store.push w) [] (.ok [w]) :=
  fun rest room => Turns.push w (by simpa [Nat.add_comm, Nat.succ_le_iff] using room [w] rfl)

/-- Every comparison code selects its relation on integers, whether it asks for the order of the
decimals or for their equality. -/
theorem exists_relation (code : Fin 6) : ∃ holds, relation? (UInt16.ofNat code) = some holds ∧
    ∀ v w : Int, holds (canonical v) (canonical w) = related code v w := by
  obtain ⟨code, bound⟩ := code
  interval_cases code <;> refine ⟨_, rfl, fun v w => ?_⟩ <;>
    simp only [related, compare_canonical, beq_canonical, bne_canonical, Int.compare_eq_ite_lt] <;>
    split_ifs <;> simp <;> omega

theorem adjust_answers (a : Encoding) {count : Nat} (some : 1 ≤ count) (few : count ≤ maxWords) :
    Answers (perform .adjust) (UInt16.ofNat count :: a.words)
      (Request.adjust a count some few).result := by
  have size : (UInt16.ofNat count).toNat = count := by
    rw [UInt16.toNat_ofNat', Nat.mod_eq_of_lt]
    change count ≤ 9 at few
    omega
  have range : ¬ (count < 1 ∨ maxWords < count) := by omega
  rw [perform, ← List.append_nil a.words]
  refine Answers.pop_bind ?_
  rw [size, if_neg range]
  exact Answers.bind (pop_turns a) (pushSized_answers _ some few)

theorem divide_answers (a b : Encoding) :
    Answers (perform .divide) (b.words ++ a.words) (Request.divide a b).result := by
  refine binary_answers (divide_canonical _ _) ?_
  rw [Request.result]
  split
  · exact fun rest _ => Turns.bind_error (orFault_turns _ rest)
  · exact represent_answers _

theorem compare_answers (a b : Encoding) (code : Fin 6) :
    Answers (perform .compare) (UInt16.ofNat code :: (b.words ++ a.words))
      (Request.compare a b code).result := by
  obtain ⟨holds, known, decides⟩ := exists_relation code
  rw [perform, ← List.append_nil a.words]
  refine Answers.pop_bind (Answers.bind (pop_turns b) (Answers.bind (pop_turns a) ?_))
  rw [known]
  dsimp only
  rw [decides]
  exact pushWord_answers _

theorem toInt_answers (a : Encoding) :
    Answers (perform .toInt) a.words (Request.toInt a).result := by
  rw [perform, ← List.append_nil a.words]
  refine Answers.bind (pop_turns a) ?_
  rw [toMachineInt_canonical, Request.result]
  split
  · exact pushWord_answers _
  · exact fun rest _ => Turns.bind_error (orFault_turns _ rest)

theorem negate_answers (a : Encoding) :
    Answers (perform .negate) a.words (Request.negate a).result := by
  rw [perform, ← List.append_nil a.words]
  refine Answers.bind (pop_turns a) ?_
  rw [negate_canonical]
  exact push_answers (by rw [Int.natAbs_neg]; exact a.natAbs_value_lt)

theorem ofInt_answers (w : Word) : Answers (perform .ofInt) [w] (Request.ofInt w).result := by
  have reads (rest : List Word) : Turns popInt ([w] ++ rest) (.ok (Word.signed w)) rest :=
    Turns.bind (Turns.pop w rest) (Turns.pure _ rest)
  have small := natAbs_signed_lt w
  rw [perform, ← List.append_nil [w]]
  refine Answers.bind reads ?_
  rw [ofInt_eq_canonical small]
  exact push_answers (small.trans (by decide))

/-- The routine answers every request. -/
theorem execute_answers (request : Request) :
    Answers execute request.words request.result := by
  cases request with
  | adjust a count some few => exact execute_answers_of_code rfl (adjust_answers a some few)
  | add a b =>
    exact execute_answers_of_code rfl (binary_answers (add_canonical _ _) (represent_answers _))
  | subtract a b =>
    exact execute_answers_of_code rfl
      (binary_answers (subtract_canonical _ _) (represent_answers _))
  | multiply a b =>
    exact execute_answers_of_code rfl
      (binary_answers (multiply_canonical _ _) (represent_answers _))
  | divide a b => exact execute_answers_of_code rfl (divide_answers a b)
  | negate a => exact execute_answers_of_code rfl (negate_answers a)
  | compare a b code => exact execute_answers_of_code rfl (compare_answers a b code)
  | ofInt w => exact execute_answers_of_code rfl (ofInt_answers w)
  | toInt a => exact execute_answers_of_code rfl (toInt_answers a)

/-- The long integer routine on a stack that holds a request with anything below it: the operands
are gone, the words below are as they were, and the result lies on top of them, which is an encoding
of the exact integer if the request asks for a long integer; if the result has no representation, the
routine fails and says why. -/
theorem execute_request (request : Request) {rest : List Word} {s : Store}
    (holds : s.Holds (request.words ++ rest))
    (room : ∀ ws, request.result = .ok ws → ws.length + rest.length ≤ capacity) :
    match request.result with
    | .ok ws => (∃ s' : Store, execute s = .ok () s' ∧ s'.Holds (ws ++ rest)) ∧
        ∀ v, request.integer? = some v → ∃ e : Encoding, e.words = ws ∧ e.value = v
    | .error e => ∃ s' : Store, execute s = .error e s' ∧ s'.Holds rest := by
  have answers := execute_answers request rest room
  cases result : request.result with
  | ok ws =>
    rw [result] at answers
    obtain ⟨s', after, ran⟩ := answers s holds
    exact ⟨⟨s', ran, after⟩, fun v asked => exists_encoding_result asked result⟩
  | error e =>
    rw [result] at answers
    obtain ⟨s', after, ran⟩ := answers s holds
    exact ⟨s', ran, after⟩

/-- Nineteen, in more digit words than it needs. -/
def nineteen : Encoding where
  sign := 0
  digits := [0, 0x0019]
  few := by decide
  packed := by simp [nibbles]

/-- Minus six. -/
def minusSix : Encoding where
  sign := 0xFFFF
  digits := [0x0006]
  few := by decide
  packed := by simp [nibbles]

/-- Nineteen by minus six is minus three, which takes three words, and the word below stays. -/
theorem execute_request_dividing :
    ∃ s s' : Store, s.Holds ([10, 2, 0xFFFF, 0x0006, 3, 0, 0, 0x0019] ++ [7]) ∧
      execute s = .ok () s' ∧ s'.Holds ([2, 1, 0x0003] ++ [7]) := by
  have pushes : Turns (Store.pushAll [7, 0x0019, 0, 0, 3, 0x0006, 0xFFFF, 2, 10]) [] (.ok ())
      ((Request.divide nineteen minusSix).words ++ [7]) := Turns.pushAll (by decide)
  obtain ⟨s, holds, -⟩ := pushes _ holds_empty
  have result : (Request.divide nineteen minusSix).result = .ok [2, 1, 0x0003] := by
    decide
  have room (ws : List Word) (h : (Request.divide nineteen minusSix).result = .ok ws) :
      ws.length + [7].length ≤ capacity := by
    rw [result] at h
    cases h
    decide
  have run := execute_request (.divide nineteen minusSix) holds room
  rw [result] at run
  obtain ⟨⟨s', ran, after⟩, -⟩ := run
  exact ⟨s, s', holds, ran, after⟩

end Decimal
end PSystem
