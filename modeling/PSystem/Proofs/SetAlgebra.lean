import Mathlib
import PSystem.WordSet

/-!
# Sets and their elements

A set takes any number of words, and those beyond the last that is not empty make no difference: every
operation reads as one on words that go on for ever (`word`), and comparing trimmed words is comparing all of
them.  Each element is one bit, so the operations are those on sets of integers (`operations_on_elements`).
-/

namespace PSystem
namespace WordSet

variable {a b c : WordSet} {v w : Word} {e : Int} {f : Word → Word → Word} {i j k n low high : Nat}
  {ws : List Word}

/-! ## Bits of a word -/

theorem bit_eq_testBit (w : Word) (small : i < 16) : bit w i = w.toNat.testBit i := by
  have power : (1 <<< UInt16.ofNat i : Word).toNat = 2 ^ i := by
    have fits : 2 ^ i < 65536 := Nat.pow_lt_pow_right (by decide) small
    have amount : i % 65536 % 16 = i := by omega
    simp [amount, Nat.shiftLeft_eq, fits]
  have test : bit w i = true ↔ w.toNat.testBit i = true := by
    rw [bit, bne_iff_ne, ne_eq, ← UInt16.toNat_inj, UInt16.toNat_and, power, Nat.and_two_pow]
    cases w.toNat.testBit i <;> simp
  exact Bool.eq_iff_iff.2 test

/-- A word is its bits. -/
theorem eq_of_bits (same : ∀ i < 16, bit v i = bit w i) : v = w := by
  apply UInt16.toNat_inj.1
  apply Nat.eq_of_testBit_eq
  intro i
  by_cases small : i < 16
  · rw [← bit_eq_testBit v small, ← bit_eq_testBit w small, same i small]
  · have large : 2 ^ 16 ≤ 2 ^ i := Nat.pow_le_pow_right (by decide) (by omega)
    rw [Nat.testBit_lt_two_pow (Nat.lt_of_lt_of_le v.toNat_lt large),
      Nat.testBit_lt_two_pow (Nat.lt_of_lt_of_le w.toNat_lt large)]

@[simp]
theorem bit_zero (i : Nat) : bit 0 i = false := by
  simp [bit]

theorem bit_or (v w : Word) (small : i < 16) : bit (v ||| w) i = (bit v i || bit w i) := by
  simp only [bit_eq_testBit _ small, UInt16.toNat_or, Nat.testBit_or]

theorem bit_and (v w : Word) (small : i < 16) : bit (v &&& w) i = (bit v i && bit w i) := by
  simp only [bit_eq_testBit _ small, UInt16.toNat_and, Nat.testBit_and]

theorem bit_not (w : Word) (small : i < 16) : bit (~~~w) i = !bit w i := by
  have flip : (~~~w).toNat.testBit i = (~~~w.toBitVec).getLsbD i := rfl
  have same : w.toNat.testBit i = w.toBitVec.getLsbD i := rfl
  rw [bit_eq_testBit _ small, bit_eq_testBit _ small, flip, same, BitVec.getLsbD_not]
  simp [small]

theorem bit_one_shift (small : i < 16) (small' : j < 16) :
    bit (1 <<< UInt16.ofNat j) i = decide (i = j) := by
  have each : ∀ j < 16, ∀ i < 16, bit (1 <<< UInt16.ofNat j) i = decide (i = j) := by decide
  exact each j small' i small

/-- No bit of a word is missing in another. -/
theorem and_not_eq_zero : v &&& ~~~w = 0 ↔ ∀ i < 16, bit v i = true → bit w i = true := by
  constructor
  · intro none i small set
    have gone := bit_and v (~~~w) small
    rw [none, bit_zero, bit_not w small, set] at gone
    simpa using gone.symm
  · intro within
    apply eq_of_bits
    intro i small
    rw [bit_and _ _ small, bit_not _ small, bit_zero]
    cases set : bit v i with
    | false => rfl
    | true => rw [within i small set]; rfl

/-! ## Words of a set -/

/-- The word of a set at a position, empty beyond the stored ones. -/
def word (a : WordSet) (i : Nat) : Word :=
  a.words.getD i 0

theorem word_of_le (h : a.words.length ≤ i) : a.word i = 0 :=
  List.getD_eq_default _ _ h

theorem length_adjusted : (a.adjusted n).words.length = n := by
  rw [adjusted, List.length_append, List.length_take, List.length_replicate]
  omega

theorem word_adjusted : (a.adjusted n).word i = if i < n then a.word i else 0 := by
  rw [word, word, adjusted, List.getD_eq_getElem?_getD, List.getD_eq_getElem?_getD]
  by_cases stored : i < (a.words.take n).length
  · have inside : i < n ∧ i < a.words.length := by simpa using stored
    rw [List.getElem?_append_left stored, List.getElem?_take_of_lt inside.1, if_pos inside.1]
  · rw [List.getElem?_append_right (Nat.le_of_not_lt stored), List.getElem?_replicate]
    rw [List.length_take] at stored ⊢
    split
    · rename_i filled
      rw [List.getElem?_eq_none (by omega), if_pos (by omega)]
      rfl
    · rename_i beyond
      rw [if_neg (by omega)]
      rfl

theorem length_combine : (combine f a b).words.length = max a.words.length b.words.length := by
  rw [combine, List.length_zipWith, length_adjusted, length_adjusted, Nat.min_self]

/-- Sets are combined as if both went on with empty words for ever. -/
theorem word_combine (empty : f 0 0 = 0) : (combine f a b).word i = f (a.word i) (b.word i) := by
  by_cases stored : i < max a.words.length b.words.length
  · have first : i < (a.adjusted (max a.words.length b.words.length)).words.length := by
      rw [length_adjusted]
      exact stored
    have second : i < (b.adjusted (max a.words.length b.words.length)).words.length := by
      rw [length_adjusted]
      exact stored
    have here : (combine f a b).word i =
        f ((a.adjusted (max a.words.length b.words.length)).word i)
          ((b.adjusted (max a.words.length b.words.length)).word i) := by
      simp only [word, combine, List.getD_eq_getElem?_getD, List.getElem?_zipWith,
        List.getElem?_eq_getElem first, List.getElem?_eq_getElem second, Option.getD_some]
    rw [here, word_adjusted, word_adjusted, if_pos stored, if_pos stored]
  · rw [word_of_le (by rw [length_combine]; omega), word_of_le (a := a) (by omega),
      word_of_le (a := b) (by omega), empty]

/-! ### Without the empty words at the end -/

theorem trimWords_cons (w : Word) (ws : List Word) :
    trimWords (w :: ws) = if trimWords ws = [] ∧ w = 0 then [] else w :: trimWords ws := by
  rw [trimWords]
  cases trimWords ws with
  | nil => simp
  | cons v rest => simp

theorem getD_trimWords : (trimWords ws).getD i 0 = ws.getD i 0 := by
  induction ws generalizing i with
  | nil => rfl
  | cons w ws ih =>
    rw [trimWords_cons]
    split
    · rename_i trailing
      cases i with
      | zero => exact trailing.2.symm
      | succ i =>
        rw [List.getD_cons_succ, ← ih, trailing.1]
        rfl
    · cases i with
      | zero => rfl
      | succ i => rw [List.getD_cons_succ, List.getD_cons_succ, ih]

theorem length_trimWords_le : (trimWords ws).length ≤ ws.length := by
  induction ws with
  | nil => exact Nat.le_refl _
  | cons w ws ih =>
    rw [trimWords_cons]
    split
    · exact Nat.zero_le _
    · exact Nat.succ_le_succ ih

/-- No other words that read the same are as few. -/
theorem eq_trimWords {us : List Word} (same : ∀ i, us.getD i 0 = (trimWords ws).getD i 0)
    (short : us.length ≤ (trimWords ws).length) : us = trimWords ws := by
  induction ws generalizing us with
  | nil => exact List.eq_nil_of_length_eq_zero (Nat.le_zero.1 short)
  | cons w ws ih =>
    rw [trimWords_cons] at same short ⊢
    split at same <;> rename_i trailing
    · rw [if_pos trailing] at short ⊢
      exact List.eq_nil_of_length_eq_zero (Nat.le_zero.1 short)
    · rw [if_neg trailing] at short ⊢
      cases us with
      | nil =>
        -- then all that was kept would be empty words at the end
        have zero : 0 = w := same 0
        have rest : [] = trimWords ws := ih (fun i => same (i + 1)) (Nat.zero_le _)
        exact absurd ⟨rest.symm, zero.symm⟩ trailing
      | cons u us =>
        have first : u = w := same 0
        rw [first, ih (fun i => same (i + 1)) (Nat.le_of_succ_le_succ short)]

theorem word_trimmed : a.trimmed.word i = a.word i :=
  getD_trimWords

theorem length_trimmed_le : a.trimmed.words.length ≤ a.words.length :=
  length_trimWords_le

/-- The trimmed set is the only one with its words that takes no more of them. -/
theorem eq_trimmed (same : ∀ i, c.word i = a.word i)
    (short : c.words.length ≤ a.trimmed.words.length) : c = a.trimmed := by
  have words : c.words = trimWords a.words :=
    eq_trimWords (fun i => (same i).trans word_trimmed.symm) short
  cases c
  exact congrArg WordSet.mk words

/-- Trimming leaves no empty word at the end. -/
theorem length_trimmed_le_of_empty (empty : ∀ i, n ≤ i → a.word i = 0) :
    a.trimmed.words.length ≤ n := by
  -- else the first `n` words would be the same set, in fewer words than the trimmed one
  by_contra longer
  have same : ∀ i, (a.adjusted n).word i = a.word i := by
    intro i
    rw [word_adjusted]
    split
    · rfl
    · rename_i beyond
      exact (empty i (Nat.le_of_not_lt beyond)).symm
  have cut := eq_trimmed same (by rw [length_adjusted]; omega)
  have length := congrArg (fun s : WordSet => s.words.length) cut
  rw [length_adjusted] at length
  omega

/-! ## Relations between words -/

theorem equals_iff : a.equals b = true ↔ ∀ i, a.word i = b.word i := by
  rw [equals, beq_iff_eq]
  constructor
  · intro same i
    rw [← word_trimmed, same, word_trimmed]
  · intro same
    -- the shorter of the two trimmed sets is the other one, which has the fewest words
    rcases Nat.le_total a.trimmed.words.length b.trimmed.words.length with short | short
    · exact eq_trimmed (fun i => word_trimmed.trans (same i)) short
    · exact (eq_trimmed (fun i => word_trimmed.trans (same i).symm) short).symm

theorem getElem_words (h : i < a.words.length) : a.words[i] = a.word i := by
  rw [word, List.getD_eq_getElem?_getD, List.getElem?_eq_getElem h, Option.getD_some]

theorem isSubset_iff : a.isSubset b = true ↔ ∀ i, a.word i &&& ~~~(b.word i) = 0 := by
  rw [isSubset, Bool.and_eq_true, decide_eq_true_eq, List.all_eq_true]
  constructor
  · rintro ⟨short, each⟩ i
    by_cases stored : i < a.trimmed.words.length
    · have stored' : i < b.trimmed.words.length := Nat.lt_of_lt_of_le stored short
      have pair := each (a.trimmed.words[i] &&& ~~~b.trimmed.words[i] == 0) <| by
        rw [List.mem_iff_getElem]
        exact ⟨i, by rw [List.length_zipWith]; omega, List.getElem_zipWith⟩
      rw [getElem_words, getElem_words, word_trimmed, word_trimmed] at pair
      simpa using pair
    · rw [← word_trimmed (a := a), word_of_le (Nat.le_of_not_lt stored), UInt16.zero_and]
  · intro within
    refine ⟨length_trimmed_le_of_empty fun i beyond => ?_, fun bool member => ?_⟩
    · have here := within i
      rw [← word_trimmed (a := b), word_of_le beyond] at here
      simpa using here
    · obtain ⟨i, bound, rfl⟩ := List.mem_iff_getElem.1 member
      rw [List.getElem_zipWith, getElem_words, getElem_words, word_trimmed, word_trimmed, within i]
      rfl

/-! ## Elements -/

theorem contains_eq (a : WordSet) (e : Int) :
    a.contains e = (decide (0 ≤ e) && bit (a.word (e.toNat / 16)) (e.toNat % 16)) := by
  rw [contains, word, List.getD_eq_getElem?_getD]
  by_cases negative : e < 0
  · rw [if_pos negative, decide_eq_false (Int.not_le.2 negative), Bool.false_and]
  · rw [if_neg negative, decide_eq_true (Int.not_lt.1 negative), Bool.true_and]
    cases a.words[e.toNat / 16]? with
    | none => exact (bit_zero _).symm
    | some w => rfl

theorem contains_natCast (a : WordSet) (small : k < 16) :
    a.contains ((16 * i + k : Nat) : Int) = bit (a.word i) k := by
  have index : (16 * i + k) / 16 = i := by omega
  have position : (16 * i + k) % 16 = k := by omega
  rw [contains_eq, decide_eq_true (Int.natCast_nonneg _), Int.toNat_natCast, index, position, Bool.true_and]

theorem contains_combine {g : Bool → Bool → Bool} (empty : f 0 0 = 0) (empty' : g false false = false)
    (bits : ∀ v w i, i < 16 → bit (f v w) i = g (bit v i) (bit w i)) (e : Int) :
    (combine f a b).contains e = g (a.contains e) (b.contains e) := by
  rw [contains_eq, contains_eq, contains_eq, word_combine empty, bits _ _ _ (Nat.mod_lt _ (by decide))]
  cases decide (0 ≤ e) with
  | false => exact empty'.symm
  | true => rfl

theorem contains_union (a b : WordSet) (e : Int) :
    (a.union b).contains e = (a.contains e || b.contains e) :=
  contains_combine rfl rfl (fun v w _ => bit_or v w) e

theorem contains_inter (a b : WordSet) (e : Int) :
    (a.inter b).contains e = (a.contains e && b.contains e) :=
  contains_combine rfl rfl (fun v w _ => bit_and v w) e

theorem contains_diff (a b : WordSet) (e : Int) :
    (a.diff b).contains e = (a.contains e && !b.contains e) := by
  refine contains_combine (g := fun x y => x && !y) rfl rfl (fun v w i small => ?_) e
  rw [bit_and _ _ small, bit_not _ small]

/-- The machine integers that a set contains. -/
def elements (a : WordSet) : Set Int :=
  {e ∈ Set.Ico (-0x8000) 0x8000 | a.contains e = true}

theorem mem_elements : e ∈ a.elements ↔ e ∈ Set.Ico (-0x8000) 0x8000 ∧ a.contains e = true :=
  Iff.rfl

/-- All that a set of the largest size contains are machine integers. -/
theorem contains_iff_mem (bound : a.words.length ≤ maxWords) : a.contains e = true ↔ e ∈ a.elements := by
  refine ⟨fun has => ⟨?_, has⟩, And.right⟩
  rw [contains_eq, Bool.and_eq_true, decide_eq_true_eq] at has
  have stored : e.toNat / 16 < a.words.length := by
    by_contra beyond
    rw [word_of_le (Nat.le_of_not_lt beyond), bit_zero] at has
    exact Bool.noConfusion has.2
  have limit : maxWords = 255 := rfl
  rw [Set.mem_Ico]
  omega

/-! ### Relations -/

/-- A bit of a word is an element, so a subset has its bits among those of the other set. -/
theorem subset_iff_words (bound : a.words.length ≤ maxWords) (bound' : b.words.length ≤ maxWords) :
    a.elements ⊆ b.elements ↔ ∀ i, a.word i &&& ~~~(b.word i) = 0 := by
  simp only [and_not_eq_zero]
  constructor
  · intro within i k small set
    rw [← contains_natCast a small, contains_iff_mem bound] at set
    rw [← contains_natCast b small, contains_iff_mem bound']
    exact within set
  · rintro within e ⟨range, has⟩
    rw [contains_eq, Bool.and_eq_true] at has
    refine ⟨range, ?_⟩
    rw [contains_eq, Bool.and_eq_true]
    exact ⟨has.1, within _ _ (Nat.mod_lt _ (by decide)) has.2⟩

theorem eq_iff_words (bound : a.words.length ≤ maxWords) (bound' : b.words.length ≤ maxWords) :
    a.elements = b.elements ↔ ∀ i, a.word i = b.word i := by
  constructor
  · intro same i
    -- each set is a subset of the other, so each word has the bits of the other
    have forth := and_not_eq_zero.1 ((subset_iff_words bound bound').1 same.subset i)
    have back := and_not_eq_zero.1 ((subset_iff_words bound' bound).1 same.superset i)
    exact eq_of_bits fun k small => Bool.eq_iff_iff.2 ⟨forth k small, back k small⟩
  · intro same
    ext e
    rw [mem_elements, mem_elements, contains_eq, contains_eq, same]

theorem equals_iff_elements (bound : a.words.length ≤ maxWords) (bound' : b.words.length ≤ maxWords) :
    a.equals b = true ↔ a.elements = b.elements :=
  equals_iff.trans (eq_iff_words bound bound').symm

theorem isSubset_iff_elements (bound : a.words.length ≤ maxWords) (bound' : b.words.length ≤ maxWords) :
    a.isSubset b = true ↔ a.elements ⊆ b.elements :=
  isSubset_iff.trans (subset_iff_words bound bound').symm

theorem isProperSubset_iff_elements (bound : a.words.length ≤ maxWords)
    (bound' : b.words.length ≤ maxWords) : a.isProperSubset b = true ↔ a.elements ⊂ b.elements := by
  rw [isProperSubset, Bool.and_eq_true, isSubset_iff_elements bound bound', Bool.not_eq_true',
    ← Bool.not_eq_true, equals_iff_elements bound bound', Set.ssubset_iff_subset_ne]

/-! ### Sets in fewer or more words -/

theorem elements_trimmed (a : WordSet) : a.trimmed.elements = a.elements := by
  ext e
  rw [mem_elements, mem_elements, contains_eq, contains_eq, word_trimmed]

theorem elements_adjusted (a : WordSet) (n : Nat) :
    (a.adjusted n).elements = {e ∈ a.elements | e < 16 * n} := by
  ext e
  rw [Set.mem_ofPred_eq, mem_elements, mem_elements, and_assoc, contains_eq, contains_eq, word_adjusted]
  refine and_congr_right fun _ => ?_
  by_cases negative : e < 0
  · simp [Int.not_le.2 negative]
  · split
    · rename_i stored
      exact (and_iff_left (by omega)).symm
    · rename_i beyond
      rw [bit_zero, Bool.and_false]
      exact iff_of_false Bool.false_ne_true fun has => by omega

/-! ## All elements from one to another -/

theorem bit_rangeWord (small : k < 16) :
    bit (rangeWord low high i) k = decide (low ≤ 16 * i + k ∧ 16 * i + k ≤ high) := by
  -- after `n` steps the bits below `n` are as they should be, and the others are not set
  have steps (n : Nat) (le : n ≤ 16) : ∀ k < 16, bit ((List.range n).foldl
      (fun w b => if low ≤ 16 * i + b ∧ 16 * i + b ≤ high then w ||| (1 <<< UInt16.ofNat b) else w) 0) k =
      decide (k < n ∧ low ≤ 16 * i + k ∧ 16 * i + k ≤ high) := by
    induction n with
    | zero => simp
    | succ n ih =>
      intro k small
      rw [List.range_succ, List.foldl_append, List.foldl_cons, List.foldl_nil]
      split
      · rename_i inside
        rw [bit_or _ _ small, ih (by omega) k small, bit_one_shift small (by omega), ← Bool.decide_or]
        apply decide_eq_decide.2
        omega
      · rename_i outside
        rw [ih (by omega) k small]
        apply decide_eq_decide.2
        omega
  rw [rangeWord, steps 16 (Nat.le_refl _) k small]
  apply decide_eq_decide.2
  omega

/-- The words of a range are those of its elements. -/
theorem bit_word_range (small : k < 16) : bit ((WordSet.mk
    ((List.range (high / 16 + 1)).map (rangeWord low high))).word i) k =
      decide (low ≤ 16 * i + k ∧ 16 * i + k ≤ high) := by
  rw [word, List.getD_eq_getElem?_getD, List.getElem?_map]
  by_cases stored : i < high / 16 + 1
  · rw [List.getElem?_range stored, Option.map_some, Option.getD_some, bit_rangeWord small]
  · rw [List.getElem?_eq_none (by rw [List.length_range]; omega), Option.map_none, Option.getD_none, bit_zero]
    symm
    apply decide_eq_false
    omega

theorem range_of_lt {low high : Int} (none : high < low) : range low high = .ok empty := by
  rw [range, if_pos none]

theorem range_of_low_outside {low high : Int} (le : low ≤ high) (outside : low ∉ Set.Icc 0 maxElement) :
    range low high = .error (.invalidIndex low) := by
  rw [Set.mem_Icc, not_and_or, not_le, not_le] at outside
  rw [range, if_neg (by omega), if_pos outside]

theorem range_of_high_outside {low high : Int} (le : low ≤ high) (inside : low ∈ Set.Icc 0 maxElement)
    (outside : high ∉ Set.Icc 0 maxElement) : range low high = .error (.invalidIndex high) := by
  rw [Set.mem_Icc] at inside
  rw [Set.mem_Icc, not_and_or, not_le, not_le] at outside
  rw [range, if_neg (by omega), if_neg (by omega), if_pos outside]

theorem range_of_inside {low high : Int} (le : low ≤ high) (inside : low ∈ Set.Icc 0 maxElement)
    (inside' : high ∈ Set.Icc 0 maxElement) :
    ∃ a, range low high = .ok a ∧ a.elements = Set.Icc low high ∧ a.words.length ≤ maxWords := by
  rw [Set.mem_Icc] at inside inside'
  have most : maxElement = 4079 := rfl
  refine ⟨⟨(List.range (high.toNat / 16 + 1)).map (rangeWord low.toNat high.toNat)⟩, ?_, ?_, ?_⟩
  · rw [range, if_neg (by omega), if_neg (by omega), if_neg (by omega)]
  · ext e
    rw [mem_elements, contains_eq, bit_word_range (Nat.mod_lt _ (by decide)), Bool.and_eq_true,
      decide_eq_true_eq, decide_eq_true_eq, Set.mem_Ico, Set.mem_Icc]
    omega
  · rw [List.length_map, List.length_range, maxWords]
    omega

/-- A range that is not empty fails exactly if one of its ends cannot be an element. -/
theorem range_fails_iff {low high : Int} (le : low ≤ high) :
    (∃ v, range low high = .error (.invalidIndex v)) ↔
      low ∉ Set.Icc 0 maxElement ∨ high ∉ Set.Icc 0 maxElement := by
  constructor
  · rintro ⟨v, failed⟩
    by_contra inside
    rw [not_or, not_not, not_not] at inside
    obtain ⟨a, ok, -⟩ := range_of_inside le inside.1 inside.2
    rw [ok] at failed
    cases failed
  · intro outside
    by_cases first : low ∈ Set.Icc 0 maxElement
    · exact ⟨high, range_of_high_outside le first (outside.resolve_left (not_not_intro first))⟩
    · exact ⟨low, range_of_low_outside le first⟩

/-! ## Sets are their elements -/

/-- On sets of at most 255 words the operations are those on sets of machine integers, however many words
each set takes, and the trimmed set is the one in the fewest words. -/
theorem operations_on_elements (bound : a.words.length ≤ maxWords) (bound' : b.words.length ≤ maxWords) :
    (∀ e, (a.union b).contains e = (a.contains e || b.contains e) ∧
      (a.inter b).contains e = (a.contains e && b.contains e) ∧
      (a.diff b).contains e = (a.contains e && !b.contains e)) ∧
    ((a.equals b = true ↔ a.elements = b.elements) ∧ (a.isSubset b = true ↔ a.elements ⊆ b.elements) ∧
      (a.isProperSubset b = true ↔ a.elements ⊂ b.elements)) ∧
    (a.trimmed.elements = a.elements ∧
      ∀ c : WordSet, c.elements = a.elements → c.words.length ≤ a.trimmed.words.length → c = a.trimmed) ∧
    (∀ n ≤ maxWords, (a.adjusted n).elements = {e ∈ a.elements | e < 16 * n}) ∧
    (∀ low high, (high < low → range low high = .ok empty) ∧
      (low ≤ high → ((∃ v, range low high = .error (.invalidIndex v)) ↔
        low ∉ Set.Icc 0 maxElement ∨ high ∉ Set.Icc 0 maxElement)) ∧
      (low ≤ high → low ∈ Set.Icc 0 maxElement → high ∈ Set.Icc 0 maxElement →
        ∃ c, range low high = .ok c ∧ c.elements = Set.Icc low high ∧ c.words.length ≤ maxWords)) ∧
    (a.union b).words.length ≤ maxWords ∧ (a.inter b).words.length ≤ maxWords ∧
    (a.diff b).words.length ≤ maxWords ∧ a.trimmed.words.length ≤ maxWords ∧
    ∀ n ≤ maxWords, (a.adjusted n).words.length ≤ maxWords := by
  have combined (f : Word → Word → Word) : (combine f a b).words.length ≤ maxWords := by
    rw [length_combine]
    exact Nat.max_le.2 ⟨bound, bound'⟩
  have trimmed : a.trimmed.words.length ≤ maxWords := Nat.le_trans length_trimmed_le bound
  refine ⟨fun e => ⟨contains_union a b e, contains_inter a b e, contains_diff a b e⟩,
    ⟨equals_iff_elements bound bound', isSubset_iff_elements bound bound',
      isProperSubset_iff_elements bound bound'⟩,
    ⟨elements_trimmed a, fun c same short => ?_⟩, fun n _ => elements_adjusted a n,
    fun low high => ⟨range_of_lt, range_fails_iff, range_of_inside⟩,
    combined _, combined _, combined _, trimmed, fun n le => ?_⟩
  · exact eq_trimmed ((eq_iff_words (Nat.le_trans short trimmed) bound).1 same) short
  · rw [length_adjusted]
    exact le

/-- The same set in one word and in three. -/
theorem operations_on_elements_padded :
    (WordSet.mk [2, 0, 0]).elements = (WordSet.mk [2]).elements ∧
      ¬ (WordSet.mk [2, 0, 0]).elements ⊂ (WordSet.mk [2]).elements ∧
      (∀ e, (union ⟨[2, 0, 0]⟩ ⟨[2]⟩).contains e = contains ⟨[2]⟩ e) ∧
      ∃ c, range 0 4079 = .ok c ∧ c.elements = Set.Icc 0 4079 ∧ c.words.length ≤ maxWords := by
  obtain ⟨combined, ⟨same, -, proper⟩, -, -, ranges, -⟩ :=
    operations_on_elements (a := ⟨[2, 0, 0]⟩) (b := ⟨[2]⟩) (by decide) (by decide)
  have equal := same.1 (by decide)
  refine ⟨equal, fun less => less.ne equal, fun e => ?_, ?_⟩
  · have member : contains ⟨[2, 0, 0]⟩ e = contains ⟨[2]⟩ e := by
      rw [Bool.eq_iff_iff, contains_iff_mem (by decide), contains_iff_mem (by decide), equal]
    rw [(combined e).1, member, Bool.or_self]
  · exact (ranges 0 4079).2.2 (by decide) ⟨by decide, by decide⟩ ⟨by decide, by decide⟩

end WordSet
end PSystem
