import PSystem.Proofs.DecimalArithmetic
import PSystem.Proofs.StackWords

/-!
# Long integers on the stack

`Decimal.Encoding` is a long integer as it may lie on the evaluation stack: any sign word, and up to
nine words of four decimal digits each, with or without leading zeros.  Many encodings stand for one
integer, and all of them are popped as its canonical decimal (`pop_turns`).

`Decimal.encode v count` is the encoding of `v` in `count` digit words that is pushed for it
(`pushSized_turns`).
-/

namespace PSystem
namespace Decimal

open Magnitude Store

/-! ## Packed words -/

/-- The four digits of a word in base sixteen, the least significant first. -/
def nibbles (w : Word) : List Nat :=
  [w.toNat % 16, w.toNat / 16 % 16, w.toNat / 256 % 16, w.toNat / 4096]

/-- The word whose digits in base sixteen are the four lowest decimal digits of a number. -/
def packed (n : Nat) : Word :=
  UInt16.ofNat (Nat.ofDigits 16 (Magnitude.ofNat 4 n))

theorem unpackWord_eq_nibbles (w : Word) : unpackWord w = nibbles w := by
  have bound := w.toNat_lt
  have mask (n : Nat) : n &&& 15 = n % 16 := Nat.and_two_pow_sub_one_eq_mod n 4
  have last : w.toNat / 4096 % 16 = w.toNat / 4096 := Nat.mod_eq_of_lt (by omega)
  simp [unpackWord, nibbles, mask, Nat.shiftRight_eq_div_pow, last]

theorem nibbles_packed (n : Nat) : nibbles (packed n) = Magnitude.ofNat 4 n := by
  have proper := proper_ofNat 4 n
  obtain ⟨a, b, c, d, eq⟩ : ∃ a b c d, Magnitude.ofNat 4 n = [a, b, c, d] := ⟨_, _, _, _, rfl⟩
  simp only [eq, proper_cons] at proper
  have word : (packed n).toNat = a + 16 * (b + 16 * (c + 16 * d)) := by
    rw [packed, eq, UInt16.toNat_ofNat']
    simp only [Nat.ofDigits_cons, Nat.ofDigits_nil]
    omega
  rw [nibbles, word, eq]
  simp only [List.cons.injEq, and_true]
  omega

/-- The lowest digits of the value of digits are these digits, filled up with zeros. -/
theorem ofNat_value {ds : Magnitude} (proper : Proper ds) {width : Nat} (fits : ds.length ≤ width) :
    Magnitude.ofNat width (value ds) = ds ++ List.replicate (width - ds.length) 0 := by
  induction ds generalizing width with
  | nil => simp [Magnitude.ofNat]
  | cons d ds ih =>
    obtain ⟨digit, rest⟩ := proper_cons.1 proper
    obtain ⟨width, rfl⟩ : ∃ k, width = k + 1 := ⟨width - 1, by rw [List.length_cons] at fits; omega⟩
    rw [List.length_cons] at fits
    rw [ofNat_succ, value_cons, Nat.add_mul_mod_self_left, Nat.mod_eq_of_lt digit,
      Nat.add_mul_div_left _ _ (by decide), Nat.div_eq_of_lt digit, Nat.zero_add, ih rest (by omega),
      List.length_cons, Nat.add_sub_add_right, List.cons_append]

/-- Up to four digits fit into a word. -/
theorem toNat_packWord {ds : Magnitude} (proper : Proper ds) (four : ds.length ≤ 4) :
    (packWord ds).toNat = Nat.ofDigits 16 ds := by
  induction ds with
  | nil => rfl
  | cons d ds ih =>
    obtain ⟨digit, rest⟩ := proper_cons.1 proper
    rw [List.length_cons] at four
    have packs := ih rest (by omega)
    have small : Nat.ofDigits 16 ds < 16 ^ 3 :=
      (Nat.ofDigits_lt_base_pow_length (by decide) fun x hx => (rest x hx).trans (by decide)).trans_le
        (Nat.pow_le_pow_right (by decide) (by omega))
    have joins : (packWord (d :: ds)).toNat = (packWord ds).toNat <<< 4 % 65536 ||| d := by
      have word : (UInt16.ofNat d).toNat = d := by
        rw [UInt16.toNat_ofNat', Nat.mod_eq_of_lt (by omega)]
      rw [packWord, List.foldr_cons, UInt16.toNat_or, word, UInt16.toNat_shiftLeft]
      rfl
    rw [joins, packs, Nat.ofDigits_cons, Nat.mod_eq_of_lt (by rw [Nat.shiftLeft_eq]; omega),
      ← Nat.shiftLeft_add_eq_or_of_lt (by omega), Nat.shiftLeft_eq]
    omega

/-- Four digits make up the word of their value. -/
theorem packWord_eq_packed {ds : Magnitude} (proper : Proper ds) (four : ds.length ≤ 4) :
    packWord ds = packed (value ds) := by
  have fits := toNat_packWord proper four
  apply UInt16.toNat_inj.1
  rw [packed, ofNat_value proper four, Nat.ofDigits_append_replicate_zero, ← fits,
    UInt16.ofNat_toNat]

/-! ## Encodings -/

/-- The number that the four digits of a word stand for. -/
def wordValue (w : Word) : Nat :=
  value (nibbles w)

/-- A long integer on the stack. -/
structure Encoding where
  /-- Zero for an integer that is not negative. -/
  sign : Word
  /-- The digit words, the most significant one on top. -/
  digits : List Word
  few : digits.length ≤ maxWords
  packed : ∀ w ∈ digits, ∀ digit ∈ nibbles w, digit ≤ 9

namespace Encoding

/-- The words of an encoding, the top one first. -/
def words (e : Encoding) : List Word :=
  UInt16.ofNat (e.digits.length + 1) :: e.sign :: e.digits

/-- The absolute value of the integer. -/
def magnitude (e : Encoding) : Nat :=
  e.digits.foldl (fun n w => 10000 * n + wordValue w) 0

/-- The integer that an encoding stands for. -/
def value (e : Encoding) : Int :=
  if e.sign = 0 then e.magnitude else -(e.magnitude : Int)

theorem withSign_value (e : Encoding) : withSign (e.sign != 0) e.value.natAbs = e.value := by
  rw [value, withSign]
  by_cases zero : e.sign = 0 <;> simp [zero]

theorem natAbs_value (e : Encoding) : e.value.natAbs = e.magnitude := by
  rw [value]
  split <;> simp

/-- Further words multiply the number by ten thousand each. -/
theorem foldl_lt {ws : List Word} (packed : ∀ w ∈ ws, ∀ digit ∈ nibbles w, digit ≤ 9) (n : Nat) :
    ws.foldl (fun n w => 10000 * n + wordValue w) n < 10000 ^ ws.length * (n + 1) := by
  induction ws generalizing n with
  | nil => simp
  | cons w ws ih =>
    have proper : Proper (nibbles w) :=
      fun d hd => Nat.lt_succ_of_le (packed w (List.mem_cons_self ..) d hd)
    have small : wordValue w < 10 ^ 4 := proper.value_lt
    have later := ih (fun u hu => packed u (List.mem_cons_of_mem w hu)) (10000 * n + wordValue w)
    rw [List.foldl_cons, List.length_cons, Nat.pow_succ, Nat.mul_assoc]
    exact later.trans_le (Nat.mul_le_mul_left _ (by omega))

theorem natAbs_value_lt (e : Encoding) : e.value.natAbs < 10 ^ maxDigits := by
  have bound := foldl_lt e.packed 0
  have power : 10000 ^ e.digits.length ≤ 10000 ^ maxWords :=
    Nat.pow_le_pow_right (by decide) e.few
  have unit : 10000 ^ maxWords = 10 ^ maxDigits := by norm_num [maxWords, maxDigits]
  rw [natAbs_value]
  rw [Nat.zero_add, Nat.mul_one] at bound
  exact unit ▸ bound.trans_le power

end Encoding

/-- The lowest `4 * count` digits of a number, four to a word, the least significant word first. -/
def packedWords : Nat → Nat → List Word
  | 0, _ => []
  | count + 1, n => packed n :: packedWords count (n / 10000)

/-- The encoding of an integer in `count` digit words. -/
def encode (v : Int) (count : Nat) : List Word :=
  UInt16.ofNat (count + 1) :: (if v < 0 then 1 else 0) :: (packedWords count v.natAbs).reverse

@[simp]
theorem length_packedWords (count n : Nat) : (packedWords count n).length = count := by
  induction count generalizing n with
  | zero => rfl
  | succ count ih => rw [packedWords, List.length_cons, ih]

@[simp]
theorem length_encode (v : Int) (count : Nat) : (encode v count).length = count + 2 := by
  simp [encode]

theorem digits_of_mem_packedWords {w : Word} {count n : Nat} (h : w ∈ packedWords count n) :
    ∀ digit ∈ nibbles w, digit ≤ 9 := by
  induction count generalizing n with
  | zero => cases h
  | succ count ih =>
    rcases List.mem_cons.1 h with rfl | later
    · intro digit hd
      rw [nibbles_packed] at hd
      exact Nat.le_of_lt_succ (proper_ofNat 4 n digit hd)
    · exact ih later

theorem wordValue_packed (n : Nat) : wordValue (packed n) = n % 10000 := by
  rw [wordValue, nibbles_packed]
  exact value_ofNat 4 n

theorem value_unpackWord_append (w : Word) (above : Magnitude) :
    value (unpackWord w ++ above) = 10000 * value above + wordValue w := by
  have four : (nibbles w).length = 4 := rfl
  have unit : 10 ^ 4 = 10000 := rfl
  rw [unpackWord_eq_nibbles, value_append, four, unit, wordValue, Nat.add_comm]

theorem foldr_packedWords (count n : Nat) :
    (packedWords count n).foldr (fun w n => 10000 * n + wordValue w) 0 = n % 10000 ^ count := by
  induction count generalizing n with
  | zero => rw [packedWords, List.foldr_nil, Nat.pow_zero, Nat.mod_one]
  | succ count ih =>
    rw [packedWords, List.foldr_cons, ih, wordValue_packed, Nat.pow_succ', Nat.mod_mul,
      Nat.add_comm]

/-- The sign that is pushed is the one of the encoding. -/
theorem ofTruth_negative (v : Int) : Word.ofTruth (v < 0) = if v < 0 then 1 else 0 := by
  simp [Word.ofTruth]

/-- What `encode` gives is an encoding of the integer, if it fits. -/
theorem exists_encoding_encode {v : Int} {count : Nat} (few : count ≤ maxWords)
    (fits : v.natAbs < 10000 ^ count) :
    ∃ e : Encoding, e.words = encode v count ∧ e.value = v ∧ e.digits.length = count := by
  let e : Encoding :=
    { sign := if v < 0 then 1 else 0
      digits := (packedWords count v.natAbs).reverse
      few := by rwa [List.length_reverse, length_packedWords]
      packed := fun w hw => digits_of_mem_packedWords (List.mem_reverse.1 hw) }
  have length : e.digits.length = count := by
    rw [List.length_reverse, length_packedWords]
  have magnitude : e.magnitude = v.natAbs := by
    rw [Encoding.magnitude, List.foldl_reverse, foldr_packedWords, Nat.mod_eq_of_lt fits]
  refine ⟨e, by rw [Encoding.words, length, encode], ?_, length⟩
  have sign : e.sign = 0 ↔ ¬ v < 0 := by
    show (if v < 0 then 1 else 0 : Word) = 0 ↔ ¬ v < 0
    split <;> simp_all
  rw [Encoding.value, magnitude]
  by_cases negative : v < 0
  · rw [if_neg (by rwa [sign, not_not])]
    omega
  · rw [if_pos (sign.2 negative)]
    omega

/-- The least number of digit words that a number fits into, at least one. -/
def wordsFor (n : Nat) : Nat :=
  Nat.log 10000 n + 1

theorem log_ten_thousand (n : Nat) : Nat.log 10000 n = Nat.log 10 n / 4 := by
  rcases Nat.eq_zero_or_pos n with rfl | pos
  · rfl
  have power (k : Nat) : 10000 ^ k = 10 ^ (4 * k) := by rw [Nat.pow_mul]
  apply Nat.log_eq_of_pow_le_of_lt_pow
  · rw [power]
    exact (Nat.pow_le_pow_right (by decide) (by omega)).trans
      (Nat.pow_log_le_self 10 (by omega : n ≠ 0))
  · rw [power]
    exact (Nat.lt_pow_succ_log_self (by decide) n).trans_le
      (Nat.pow_le_pow_right (by decide) (by omega))

theorem digitWords_canonical (v : Int) : (canonical v).digitWords = wordsFor v.natAbs := by
  rw [digitWords, wordsFor, digits_canonical, log_ten_thousand]
  by_cases zero : v.natAbs = 0
  · rw [zero]
    rfl
  · rw [Nat.length_digits 10 _ (by decide) zero]
    omega

theorem wordsFor_le_iff {n count : Nat} (some : 1 ≤ count) :
    wordsFor n ≤ count ↔ n < 10000 ^ count := by
  rw [wordsFor, Nat.succ_le_iff]
  exact ⟨Nat.lt_pow_of_log_lt (by decide), Nat.log_lt_of_lt_pow' (by omega)⟩

/-- Packing the digits of a number. -/
theorem packWords_eq_packedWords {ds : Magnitude} (proper : Proper ds) (count : Nat) :
    packWords count ds = packedWords count (value ds) := by
  induction count generalizing ds with
  | zero => rfl
  | succ count ih =>
    have four : (ds.take 4).length ≤ 4 := by
      rw [List.length_take]
      omega
    have low : packed (value ds % 10 ^ 4) = packed (value ds) := by
      rw [packed, packed, ← value_ofNat, ofNat_value (proper_ofNat 4 _) (by simp [Magnitude.ofNat])]
      simp [Magnitude.ofNat]
    have high : value (ds.drop 4) = value ds / 10000 := by
      rw [value_eq_ofDigits, value_eq_ofDigits]
      exact (Nat.ofDigits_div_pow_eq_ofDigits_drop 4 (by decide) ds proper).symm
    rw [packWords, packedWords, packWord_eq_packed (proper.take 4) four, proper.value_take, low,
      ih fun d hd => proper d (List.mem_of_mem_drop hd), high]

/-! ## Popping and pushing -/

/-- Digit words are popped onto the digits above them. -/
theorem popDigits_turns {ws : List Word} (packed : ∀ w ∈ ws, ∀ digit ∈ nibbles w, digit ≤ 9)
    {above : Magnitude} (proper : Proper above) (rest : List Word) :
    ∃ ds, Proper ds ∧ value ds = ws.foldl (fun n w => 10000 * n + wordValue w) (value above) ∧
      Turns (popDigits ws.length above) (ws ++ rest) (.ok ds) rest := by
  induction ws generalizing above with
  | nil => exact ⟨above, proper, rfl, Turns.pure above rest⟩
  | cons w ws ih =>
    have small := packed w (List.mem_cons_self ..)
    have checked : (unpackWord w).all (· ≤ 9) = true := by
      simpa [unpackWord_eq_nibbles] using small
    have digits : Proper (unpackWord w ++ above) := by
      rw [unpackWord_eq_nibbles]
      exact proper_append.2 ⟨fun d hd => Nat.lt_succ_of_le (small d hd), proper⟩
    obtain ⟨ds, properDs, values, turns⟩ :=
      ih (fun u hu => packed u (List.mem_cons_of_mem w hu)) digits
    refine ⟨ds, properDs, ?_, ?_⟩
    · rw [values, List.foldl_cons, value_unpackWord_append]
    · rw [List.length_cons, popDigits]
      refine Turns.bind (Turns.pop w (ws ++ rest)) ?_
      rw [if_pos checked]
      exact turns

theorem orFault_turns {α : Type} (x : Except Fault α) (ws : List Word) :
    Turns (orFault x) ws x ws := by
  cases x with
  | ok a => exact Turns.pure a ws
  | error e => exact Turns.throw e ws

/-- Every encoding of an integer is popped as that integer. -/
theorem pop_turns (e : Encoding) (rest : List Word) :
    Turns pop (e.words ++ rest) (.ok (canonical e.value)) rest := by
  have few := e.few
  obtain ⟨ds, proper, values, turns⟩ := popDigits_turns e.packed proper_nil rest
  have size : (UInt16.ofNat (e.digits.length + 1)).toNat = e.digits.length + 1 := by
    rw [UInt16.toNat_ofNat', Nat.mod_eq_of_lt]
    change e.digits.length ≤ 9 at few
    omega
  have range : ¬ (e.digits.length + 1 < 1 ∨ maxWords + 1 < e.digits.length + 1) := by omega
  have converted : ofParts (e.sign != 0) ds = .ok (canonical e.value) := by
    have magnitude : ds.value = e.value.natAbs := values.trans e.natAbs_value.symm
    rw [ofParts_eq_represent _ proper, magnitude, e.withSign_value, represent,
      if_pos e.natAbs_value_lt]
  rw [pop, Encoding.words]
  refine Turns.bind (Turns.pop _ _) ?_
  rw [size, if_neg range]
  refine Turns.bind (Turns.pop _ _) (Turns.bind turns ?_)
  rw [converted]
  exact orFault_turns _ rest

/-- A decimal is pushed in the number of digit words asked for, if it fits into them. -/
theorem pushSized_turns {v : Int} {count : Nat} (some : 1 ≤ count) (few : count ≤ maxWords)
    (fits : v.natAbs < 10000 ^ count) {rest : List Word}
    (room : (encode v count).length + rest.length ≤ capacity) :
    Turns ((canonical v).pushSized count) rest (.ok ()) (encode v count ++ rest) := by
  have enough := (wordsFor_le_iff some).2 fits
  have range : ¬ (count < wordsFor v.natAbs ∨ maxWords < count) := by omega
  have next : UInt16.ofNat count + 1 = UInt16.ofNat (count + 1) := (UInt16.ofNat_add count 1).symm
  rw [length_encode] at room
  rw [pushSized, digitWords_canonical, if_neg range, digits_canonical,
    packWords_eq_packedWords (proper_digits _), value_digits, next]
  refine Turns.bind (Turns.pushAll (by rw [length_packedWords]; omega)) ?_
  rw [encode, ← ofTruth_negative]
  refine Turns.bind (Turns.push _ ?_) (Turns.push _ ?_)
  · rw [List.length_append, List.length_reverse, length_packedWords]
    omega
  · rw [List.length_cons, List.length_append, List.length_reverse, length_packedWords]
    omega

/-- A decimal that does not fit is an overflow, and nothing is pushed. -/
theorem pushSized_turns_of_overflow {v : Int} {count : Nat} (some : 1 ≤ count)
    (overflow : ¬ v.natAbs < 10000 ^ count) (rest : List Word) :
    Turns ((canonical v).pushSized count) rest (.error .integerOverflow) rest := by
  have less : count < wordsFor v.natAbs := by
    rw [← Nat.not_le, wordsFor_le_iff some]
    exact overflow
  rw [pushSized, digitWords_canonical, if_pos (.inl less)]
  exact Turns.bind_error (Turns.throw _ rest)

end Decimal
end PSystem
