import PSystem.Proofs.DecimalExactness
import PSystem.Proofs.DecimalOperations

/-!
# Canonical decimals: order, equality and text

Whatever produces a decimal produces a canonical one, so that decimals compare like the integers
they stand for, and are equal when these are.  `Numeral text v` says what a text has to look like to
denote the integer `v`.  Reading accepts the numerals of integers with at most 36 digits and nothing
else (`parse?_eq_some_iff`), and what is written is a numeral again (`numeral_text`).
-/

namespace PSystem
namespace Decimal

open Magnitude

variable {a b : Decimal}

/-! ## Numerals -/

/-- The number that decimal digits denote, the most significant first. -/
def numeralValue (digits : List Char) : Nat :=
  digits.foldl (fun n c => 10 * n + (c.toNat - '0'.toNat)) 0

/-- An optional minus sign and one or more ASCII digits denote an integer. -/
inductive Numeral : String → Int → Prop
  | plain {digits : List Char} (some : digits ≠ []) (ascii : ∀ c ∈ digits, '0' ≤ c ∧ c ≤ '9') :
    Numeral (String.ofList digits) (numeralValue digits)
  | minus {digits : List Char} (some : digits ≠ []) (ascii : ∀ c ∈ digits, '0' ≤ c ∧ c ≤ '9') :
    Numeral (String.ofList ('-' :: digits)) (-(numeralValue digits : Int))

theorem numeralValue_eq_reading (digits : List Char) :
    numeralValue digits = reading (digits.map fun c => c.toNat - 48) := by
  induction digits using List.reverseRecOn with
  | nil => rfl
  | append_singleton digits c ih =>
    rw [List.map_append, List.map_singleton, reading_concat, ← ih, numeralValue, List.foldl_concat,
      Nat.mul_comm]
    rfl

/-! ## Reading -/

theorem digitValue?_eq_some {c : Char} {d : Nat} :
    digitValue? c = some d ↔ ('0' ≤ c ∧ c ≤ '9') ∧ d = c.toNat - 48 := by
  rw [digitValue?]
  split <;> simp_all [eq_comm]

/-- A list of characters is read if all of them are digits. -/
theorem mapM_digitValue?_eq_some {body : List Char} {ds : List Nat} :
    body.mapM digitValue? = some ds ↔
      (∀ c ∈ body, '0' ≤ c ∧ c ≤ '9') ∧ ds = body.map fun c => c.toNat - 48 := by
  induction body generalizing ds with
  | nil => simp [eq_comm]
  | cons c body ih =>
    simp only [List.mapM_cons, Option.bind_eq_bind, Option.bind_eq_some_iff, digitValue?_eq_some,
      ih, List.forall_mem_cons, List.map_cons, Option.pure_def, Option.some.injEq]
    grind

/-- What a sign and the characters behind it are read as. -/
def readBody (negative : Bool) (body : List Char) : Option Decimal :=
  if body.isEmpty then none
  else do
    let digits ← body.mapM digitValue?
    (ofParts negative digits.reverse).toOption

theorem parse?_minus (body : List Char) :
    parse? (String.ofList ('-' :: body)) = readBody true body := by
  simp [parse?, readBody]

theorem parse?_plain {body : List Char} (unsigned : body.head? ≠ some '-') :
    parse? (String.ofList body) = readBody false body := by
  cases body with
  | nil => rfl
  | cons c rest =>
    have other : c ≠ '-' := by simpa using unsigned
    simp [parse?, readBody, other]

theorem represent_toOption_eq_some {v : Int} :
    (represent v).toOption = some a ↔ v.natAbs < 10 ^ maxDigits ∧ a = canonical v := by
  rw [represent]
  split <;> simp_all [Except.toOption, eq_comm]

theorem readBody_eq_some {negative : Bool} {body : List Char} :
    readBody negative body = some a ↔
      body ≠ [] ∧ (∀ c ∈ body, '0' ≤ c ∧ c ≤ '9') ∧ numeralValue body < 10 ^ maxDigits ∧
        a = canonical (withSign negative (numeralValue body)) := by
  by_cases some : body = []
  · simp [readBody, some]
  by_cases ascii : ∀ c ∈ body, '0' ≤ c ∧ c ≤ '9'
  · have digits := mapM_digitValue?_eq_some.2 ⟨ascii, rfl⟩
    have proper := proper_reverse.2 (proper_of_mapM digits)
    rw [readBody, if_neg (by simpa using some), digits, Option.bind_eq_bind, Option.bind_some,
      ofParts_eq_represent negative proper, ← reading, ← numeralValue_eq_reading,
      represent_toOption_eq_some, natAbs_withSign]
    tauto
  · have none : body.mapM digitValue? = none := by
      cases read : body.mapM digitValue? with
      | none => rfl
      | some ds => exact absurd (mapM_digitValue?_eq_some.1 read).1 ascii
    simp [readBody, none, ascii]

/-- What is read is normalised, and the text is a numeral of its integer; and every such text is
read. -/
theorem parse?_eq_some_iff {text : String} :
    parse? text = some a ↔ a.Normalised ∧ Numeral text a.toInt := by
  constructor
  · intro read
    obtain ⟨body, rfl⟩ : ∃ body, text = String.ofList body := ⟨_, String.ofList_toList.symm⟩
    -- Only a minus is a sign; a body without one is read from its first character.
    by_cases signed : body.head? = some '-'
    · obtain ⟨rest, rfl⟩ := List.head?_eq_some_iff.1 signed
      rw [parse?_minus, readBody_eq_some] at read
      obtain ⟨some, ascii, small, rfl⟩ := read
      rw [toInt_canonical]
      exact ⟨normalised_canonical (by rwa [natAbs_withSign]), .minus some ascii⟩
    · rw [parse?_plain signed, readBody_eq_some] at read
      obtain ⟨some, ascii, small, rfl⟩ := read
      rw [toInt_canonical]
      exact ⟨normalised_canonical (by rwa [natAbs_withSign]), .plain some ascii⟩
  · rintro ⟨normalised, numeral⟩
    have small := normalised.natAbs_lt
    have whole := normalised.eq_canonical
    generalize a.toInt = v at numeral small whole
    cases numeral with
    | plain some ascii =>
      -- A body of digits cannot begin with a minus, so the reader does not take a sign from it.
      have unsigned := fun minus => (ascii '-' (List.mem_of_head? minus)).1
      rw [parse?_plain fun minus => absurd (unsigned minus) (by decide), readBody_eq_some]
      exact ⟨some, ascii, by simpa using small, whole⟩
    | minus some ascii =>
      rw [parse?_minus, readBody_eq_some]
      exact ⟨some, ascii, by simpa using small, whole⟩

/-! ## Writing -/

theorem digit_char {d : Nat} (small : d < 10) :
    (Char.ofNat (48 + d)).toNat - 48 = d ∧
      '0' ≤ Char.ofNat (48 + d) ∧ Char.ofNat (48 + d) ≤ '9' := by
  interval_cases d <;> decide

/-- Digits, written the most significant first, denote their value. -/
theorem numeralValue_digits {ds : Magnitude} (proper : Proper ds) :
    numeralValue (ds.reverse.map fun d => Char.ofNat (48 + d)) = value ds := by
  have back : (ds.reverse.map fun d => Char.ofNat (48 + d)).map (fun c => c.toNat - 48) =
      ds.reverse := by
    rw [List.map_map, List.map_congr_left (g := id), List.map_id]
    intro d digit
    exact (digit_char (proper d (List.mem_reverse.1 digit))).1
  rw [numeralValue_eq_reading, back, reading, List.reverse_reverse]

/-- What is written is a numeral of the decimal's integer. -/
theorem numeral_text (h : a.Normalised) : Numeral a.text a.toInt := by
  by_cases zero : a.digits = []
  · have value : a.toInt = 0 := by simp [toInt, zero]
    rw [text, if_pos (by simpa [isZero] using zero), value]
    have zero : Numeral (String.ofList ['0']) (numeralValue ['0']) :=
      .plain (by simp) (by simp)
    exact zero
  · have ascii : ∀ c ∈ a.digits.reverse.map fun d => Char.ofNat (48 + d), '0' ≤ c ∧ c ≤ '9' := by
      simp only [List.mem_map, List.mem_reverse]
      rintro c ⟨d, digit, rfl⟩
      exact (digit_char (h.proper d digit)).2
    have some : (a.digits.reverse.map fun d => Char.ofNat (48 + d)) ≠ [] := by simpa using zero
    rw [text, if_neg (by simpa [isZero] using zero), toInt, ← numeralValue_digits h.proper]
    dsimp only
    split
    · exact .minus some ascii
    · exact .plain some ascii

/-! ## Canonicity -/

theorem parse?_isSome_iff {text : String} :
    (parse? text).isSome ↔ ∃ v, Numeral text v ∧ v.natAbs < 10 ^ maxDigits := by
  rw [Option.isSome_iff_exists]
  constructor
  · rintro ⟨c, read⟩
    obtain ⟨normalised, numeral⟩ := parse?_eq_some_iff.1 read
    exact ⟨c.toInt, numeral, normalised.natAbs_lt⟩
  · rintro ⟨v, numeral, small⟩
    refine ⟨canonical v, parse?_eq_some_iff.2 ⟨normalised_canonical small, ?_⟩⟩
    rwa [toInt_canonical]

theorem toMachineInt_eq_ok {v w : Int} :
    (canonical v).toMachineInt = .ok w ↔ w = v ∧ -32768 ≤ w ∧ w ≤ 32767 := by
  rw [toMachineInt_canonical]
  split <;> simp <;> omega

theorem toMachineInt_ofInt (w : Word) : (ofInt w.signed).toMachineInt = .ok w.signed := by
  have bound := w.toNat_lt
  rw [ofInt_eq_canonical (natAbs_signed_lt w), toMachineInt_eq_ok, Word.signed]
  split <;> omega

/-- Whatever texts, the stack, machine integers and arithmetic produce is normalised.  So decimals
compare as their integers do and are equal when these are, every comparison code gives the relation
of the integers, and what is written for a decimal is read as this decimal.  A text is read if and
only if it is a numeral of an integer with at most 36 digits, and then as that integer.  Exactly the
decimals from -32768 to 32767 are machine integers, and every machine integer comes back from its
decimal. -/
theorem decimals_are_integers (ha : Produced a) (hb : Produced b) :
    a.Normalised ∧
    a.compare b = Ord.compare a.toInt b.toInt ∧
    (a = b ↔ a.toInt = b.toInt) ∧
    (∀ code : Fin 6, ∃ holds, relation? (UInt16.ofNat code) = some holds ∧
      holds a b = related code a.toInt b.toInt) ∧
    parse? a.text = some a ∧
    (∀ text, (parse? text).isSome ↔ ∃ v, Numeral text v ∧ v.natAbs < 10 ^ maxDigits) ∧
    (∀ text c, parse? text = some c → Numeral text c.toInt) ∧
    (∀ v, a.toMachineInt = .ok v ↔ v = a.toInt ∧ -32768 ≤ v ∧ v ≤ 32767) ∧
    ∀ w : Word, (ofInt w.signed).toMachineInt = .ok w.signed := by
  obtain ⟨v, small, rfl⟩ := ha.eq_canonical
  obtain ⟨w, -, rfl⟩ := hb.eq_canonical
  have normalised := normalised_canonical small
  simp only [toInt_canonical]
  refine ⟨normalised, compare_canonical v w, canonical_inj, fun code => ?_,
    parse?_eq_some_iff.2 ⟨normalised, numeral_text normalised⟩, fun text => parse?_isSome_iff,
    fun text c read => (parse?_eq_some_iff.1 read).2, fun _ => toMachineInt_eq_ok,
    toMachineInt_ofInt⟩
  obtain ⟨holds, known, decides⟩ := exists_relation code
  exact ⟨holds, known, decides v w⟩

/-- A zero that comes from different signs is the zero that a text with a minus sign denotes. -/
theorem decimals_are_integers_zero :
    ∃ a b, (ofInt (-7)).add (ofInt 7) = .ok a ∧ parse? "-00" = some b ∧ a = b ∧
      a.compare b = .eq ∧ parse? a.text = some a ∧ a.toMachineInt = .ok 0 := by
  have seven : Produced (ofInt 7) := .ofInt 7
  have minus : Produced (ofInt (-7)) := by
    have word : (Word.ofSigned (-7)).signed = -7 := by decide
    exact word ▸ .ofInt (Word.ofSigned (-7))
  have sum : (ofInt (-7)).add (ofInt 7) = .ok zero := by decide
  have read : parse? "-00" = some zero := by rfl
  obtain ⟨-, order, equal, -, back, -, -, machine, -⟩ :=
    decimals_are_integers (.sum minus seven sum) (.parsed read)
  exact ⟨zero, zero, sum, read, equal.2 rfl, order, back, (machine 0).2 (by decide)⟩

end Decimal
end PSystem
