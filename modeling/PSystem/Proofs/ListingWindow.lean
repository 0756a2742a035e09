import PSystem.Proofs.Memory
import PSystem.Listing

/-!
# Windows of a listing

A window decodes a procedure line by line from its entry point and shows the lines around the current
instruction.  As long as addresses rise, decoding does not stop before the current line
(`StopsAfter.reaches`), whatever the lengths of the lines.  What a window shows is a piece of the listing,
with a line at the current instruction in its place (`window_shows_current`).

A case table may be so long that the next line starts at a lower address.  If the lines come back to the
current instruction within half a window, they go round for as many lines as are looked at
(`StopsAfter.eq_maxLines`), and the window shows the last time round.
-/

namespace PSystem
namespace Listing

variable {m : Memory} {entry current : Address} {count i j k n start stop : Nat}

/-! ## Lines of a procedure -/

/-- Where the line after the one at an address starts.  No line is taken as empty, also if its length
comes out as 0. -/
def nextLine (m : Memory) (a : Address) : Address :=
  a + max (Line.decode m a).length 1

/-- The address of line `i` of the listing from an entry point. -/
def lineAddress (m : Memory) (entry : Address) : Nat → Address
  | 0 => entry
  | i + 1 => nextLine m (lineAddress m entry i)

/-- The `n` lines of a listing from line `start` on. -/
def linesFrom (m : Memory) (entry : Address) (start n : Nat) : List Line :=
  (List.range' start n).map fun i => Line.decode m (lineAddress m entry i)

/-- The addresses up to line `i` are strictly increasing. -/
def RisesTo (m : Memory) (entry : Address) (i : Nat) : Prop :=
  ∀ k < i, lineAddress m entry k < lineAddress m entry (k + 1)

@[simp]
theorem address_decode (m : Memory) (a : Address) : (Line.decode m a).address = a := rfl

@[simp]
theorem length_linesFrom (m : Memory) (entry : Address) (start n : Nat) :
    (linesFrom m entry start n).length = n := by
  simp [linesFrom]

theorem linesFrom_concat (m : Memory) (entry : Address) (n : Nat) :
    linesFrom m entry 0 (n + 1) = linesFrom m entry 0 n ++ [Line.decode m (lineAddress m entry n)] := by
  simp [linesFrom, List.range'_concat]

theorem getElem?_linesFrom (h : k < n) :
    (linesFrom m entry start n)[k]? = some (Line.decode m (lineAddress m entry (start + k))) := by
  simp [linesFrom, h]

/-- A piece of a listing is a listing. -/
theorem take_drop_linesFrom (m : Memory) (entry : Address) (n start count : Nat) :
    ((linesFrom m entry 0 n).drop start).take count =
      linesFrom m entry start (min count (n - start)) := by
  apply List.ext_getElem?
  intro k
  by_cases inside : k < min count (n - start)
  · rw [getElem?_linesFrom inside, List.getElem?_take_of_lt (by omega), List.getElem?_drop,
      getElem?_linesFrom (by omega), Nat.zero_add]
  · have short : (((linesFrom m entry 0 n).drop start).take count).length ≤ k := by
      rw [List.length_take, List.length_drop, length_linesFrom]
      omega
    have short' : (linesFrom m entry start (min count (n - start))).length ≤ k := by
      rw [length_linesFrom]
      omega
    rw [List.getElem?_eq_none short, List.getElem?_eq_none short']

theorem RisesTo.le (rises : RisesTo m entry i) (low : j ≤ k) (high : k ≤ i) :
    lineAddress m entry j ≤ lineAddress m entry k := by
  induction k with
  | zero =>
    obtain rfl := Nat.le_zero.1 low
    exact UInt16.le_refl _
  | succ k ih =>
    rcases Nat.lt_or_eq_of_le low with before | rfl
    · exact UInt16.le_trans (ih (by omega) (by omega)) (UInt16.le_of_lt (rises k high))
    · exact UInt16.le_refl _

theorem RisesTo.lt (rises : RisesTo m entry i) (low : j < k) (high : k ≤ i) :
    lineAddress m entry j < lineAddress m entry k :=
  UInt16.lt_of_lt_of_le (rises j (by omega)) (rises.le low high)

/-! ## Where decoding stops -/

/-- The last of the first `n` lines that is at the current instruction. -/
def lastCurrent (m : Memory) (entry current : Address) : Nat → Option Nat
  | 0 => none
  | n + 1 => if lineAddress m entry n = current then some n else lastCurrent m entry current n

/-- After `n` lines no more are needed, or the next one would start before the entry point. -/
def Ends (m : Memory) (entry current : Address) (count n : Nat) : Prop :=
  complete count n (lastCurrent m entry current n) (lineAddress m entry n) current = true ∨
    lineAddress m entry n < entry

/-- Decoding stops after `stop` lines. -/
structure StopsAfter (m : Memory) (entry current : Address) (count stop : Nat) : Prop where
  few : stop ≤ maxLines
  ends : stop = maxLines ∨ 0 < stop ∧ Ends m entry current count stop
  goesOn : ∀ k, 0 < k → k < stop → ¬ Ends m entry current count k

theorem lastCurrent_eq_some (h : lastCurrent m entry current n = some j) :
    j < n ∧ lineAddress m entry j = current := by
  induction n with
  | zero => cases h
  | succ n ih =>
    rw [lastCurrent] at h
    split at h
    · rename_i here
      cases h
      exact ⟨Nat.lt_succ_self _, here⟩
    · obtain ⟨before, there⟩ := ih h
      exact ⟨Nat.lt_succ_of_lt before, there⟩

theorem lastCurrent_eq_none (h : ∀ k < n, lineAddress m entry k ≠ current) :
    lastCurrent m entry current n = none := by
  induction n with
  | zero => rfl
  | succ n ih =>
    rw [lastCurrent, if_neg (h n (Nat.lt_succ_self n))]
    exact ih fun k hk => h k (Nat.lt_succ_of_lt hk)

/-- From a line at the current instruction on there is a last one. -/
theorem exists_lastCurrent (here : lineAddress m entry i = current) (before : i < n) :
    ∃ j, i ≤ j ∧ lastCurrent m entry current n = some j := by
  induction n with
  | zero => cases before
  | succ n ih =>
    rw [lastCurrent]
    split
    · exact ⟨n, Nat.le_of_lt_succ before, rfl⟩
    · rename_i other
      refine ih (Nat.lt_of_le_of_ne (Nat.le_of_lt_succ before) ?_)
      rintro rfl
      exact other here

theorem lastCurrent_of_left (here : lineAddress m entry i = current) (before : i < n)
    (left : ∀ k, i < k → k < n → lineAddress m entry k ≠ current) :
    lastCurrent m entry current n = some i := by
  obtain ⟨j, from_, found⟩ := exists_lastCurrent here before
  obtain ⟨inside, there⟩ := lastCurrent_eq_some found
  rcases Nat.lt_or_eq_of_le from_ with later | rfl
  · exact absurd there (left j later inside)
  · exact found

/-- One line is decoded, and decoding stops if it ends there. -/
theorem scan_succ (m : Memory) (entry current : Address) (count fuel n : Nat)
    [Decidable (Ends m entry current count (n + 1))] :
    scan m entry current count (fuel + 1) (lineAddress m entry n) (linesFrom m entry 0 n).toArray
        (lastCurrent m entry current n) =
      if Ends m entry current count (n + 1) then
        ((linesFrom m entry 0 (n + 1)).toArray, lastCurrent m entry current (n + 1))
      else
        scan m entry current count fuel (lineAddress m entry (n + 1))
          (linesFrom m entry 0 (n + 1)).toArray (lastCurrent m entry current (n + 1)) := by
  simp only [scan, Ends, address_decode, List.push_toArray, List.size_toArray, length_linesFrom,
    linesFrom_concat, List.length_append, List.length_cons, List.length_nil, lastCurrent, lineAddress,
    nextLine, Bool.or_eq_true, decide_eq_true_eq]

/-- By induction on the lines that may still be decoded. -/
theorem scan_stops (m : Memory) (entry current : Address) (count fuel n : Nat) :
    ∃ stop, n ≤ stop ∧ stop ≤ n + fuel ∧
    scan m entry current count fuel (lineAddress m entry n) (linesFrom m entry 0 n).toArray
        (lastCurrent m entry current n) =
      ((linesFrom m entry 0 stop).toArray, lastCurrent m entry current stop) ∧
    (stop = n + fuel ∨ n < stop ∧ Ends m entry current count stop) ∧
    ∀ k, n < k → k < stop → ¬ Ends m entry current count k := by
  induction fuel generalizing n with
  | zero => exact ⟨n, Nat.le_refl n, Nat.le_refl n, rfl, .inl rfl, fun k low high => by omega⟩
  | succ fuel ih =>
    classical
    rw [scan_succ]
    by_cases ended : Ends m entry current count (n + 1)
    · rw [if_pos ended]
      exact ⟨n + 1, Nat.le_succ n, by omega, rfl, .inr ⟨Nat.lt_succ_self n, ended⟩,
        fun k low high => by omega⟩
    · rw [if_neg ended]
      obtain ⟨stop, low, high, scanned, ends, goesOn⟩ := ih (n + 1)
      refine ⟨stop, by omega, by omega, scanned, ?_, fun k after before => ?_⟩
      · rcases ends with last | ⟨after, here⟩
        · exact .inl (by omega)
        · exact .inr ⟨by omega, here⟩
      · rcases Nat.lt_or_eq_of_le (Nat.succ_le_of_lt after) with later | rfl
        · exact goesOn k later before
        · exact ended

/-- A window is a piece of what was decoded, from half a window before the last line at the current
instruction on. -/
theorem exists_window (m : Memory) (current : Address) (valid : entry ≠ 0) (asked : 0 < count) :
    ∃ stop, StopsAfter m entry current count stop ∧ window m entry current count =
      linesFrom m entry ((lastCurrent m entry current stop).getD 0 - count / 2)
        (min count (stop - ((lastCurrent m entry current stop).getD 0 - count / 2))) := by
  obtain ⟨stop, -, few, scanned, ends, goesOn⟩ :=
    scan_stops m entry current count maxLines 0
  rw [Nat.zero_add] at few ends
  have shown : ¬ (entry = 0 ∨ count = 0) := by
    rintro (zero | nothing)
    · exact valid zero
    · omega
  refine ⟨stop, ⟨few, ends, goesOn⟩, ?_⟩
  have start : scan m entry current count maxLines entry #[] none =
      ((linesFrom m entry 0 stop).toArray, lastCurrent m entry current stop) := scanned
  rw [window, if_neg shown, start]
  exact take_drop_linesFrom m entry stop _ count

/-- On the way up to the current line no window is complete. -/
theorem RisesTo.not_complete (rises : RisesTo m entry i) (here : lineAddress m entry i = current)
    (before : n ≤ i) :
    complete count n (lastCurrent m entry current n) (lineAddress m entry n) current ≠ true := by
  have none : lastCurrent m entry current n = none :=
    lastCurrent_eq_none fun k hk => UInt16.ne_of_lt (here ▸ rises.lt (by omega) (Nat.le_refl i))
  intro complete
  rw [none, Listing.complete, Bool.and_eq_true, decide_eq_true_eq] at complete
  exact UInt16.not_le.2 complete.1 (here ▸ rises.le before (Nat.le_refl i))

namespace StopsAfter

/-- As long as addresses rise, decoding does not stop before the current line. -/
theorem reaches (h : StopsAfter m entry current count stop) (few : i < maxLines)
    (here : lineAddress m entry i = current) (rises : RisesTo m entry i) : i < stop := by
  by_contra short
  have before : stop ≤ i := Nat.le_of_not_lt short
  rcases h.ends with all | ⟨-, complete | wrapped⟩
  · omega
  · exact rises.not_complete here before complete
  · exact UInt16.not_le.2 wrapped (rises.le (Nat.zero_le stop) before)

/-- If the lines leave the current instruction for half a window, decoding stops behind them. -/
theorem lastCurrent_eq (h : StopsAfter m entry current count stop) (reached : i < stop)
    (here : lineAddress m entry i = current)
    (left : ∀ k, i < k → k ≤ i + count / 2 → lineAddress m entry k ≠ current) :
    lastCurrent m entry current stop = some i := by
  -- half a window behind the current line the window is complete
  have close : stop ≤ i + count / 2 + 1 := by
    by_contra further
    refine h.goesOn (i + count / 2 + 1) (by omega) (by omega) (.inl ?_)
    rw [lastCurrent_of_left here (by omega) fun k after before => left k after (by omega)]
    exact decide_eq_true (Nat.lt_succ_self _)
  exact lastCurrent_of_left here reached fun k after before => left k after (by omega)

end StopsAfter

/-! ## Lines that come back -/

/-- Lines that come back to an address go round from there on. -/
theorem lineAddress_add {p : Nat} (back : lineAddress m entry (i + p) = lineAddress m entry i) (le : i ≤ n) :
    lineAddress m entry (n + p) = lineAddress m entry n := by
  induction n with
  | zero =>
    obtain rfl := Nat.le_zero.1 le
    exact back
  | succ n ih =>
    rcases Nat.lt_or_eq_of_le le with before | rfl
    · rw [Nat.succ_add]
      exact congrArg (nextLine m) (ih (Nat.le_of_lt_succ before))
    · exact back

/-- If the lines come back to the current instruction within half a window, without going below the
entry point, decoding goes on for as many lines as it may. -/
theorem StopsAfter.eq_maxLines {p : Nat} (h : StopsAfter m entry current count stop)
    (here : lineAddress m entry i = current) (rises : RisesTo m entry i) (positive : 0 < p)
    (near : p ≤ count / 2) (back : lineAddress m entry (i + p) = current)
    (above : ∀ k ≤ i + p, entry ≤ lineAddress m entry k) : stop = maxLines := by
  have round (k : Nat) (le : i ≤ k) : lineAddress m entry (k + p) = lineAddress m entry k :=
    lineAddress_add (back.trans here.symm) le
  have within (k : Nat) : entry ≤ lineAddress m entry k := by
    induction k using Nat.strong_induction_on with
    | _ k ih =>
      by_cases first : k ≤ i + p
      · exact above k first
      · obtain ⟨k, rfl⟩ := Nat.exists_eq_add_of_le' (show p ≤ k by omega)
        rw [round k (by omega)]
        exact ih k (by omega)
  -- a line at the current instruction is never further back than one round
  have recent (k : Nat) (after : i < k) :
      ∃ j < k, i ≤ j ∧ k ≤ j + p ∧ lineAddress m entry j = current := by
    induction k using Nat.strong_induction_on with
    | _ k ih =>
      by_cases first : k ≤ i + p
      · exact ⟨i, after, Nat.le_refl i, first, here⟩
      · obtain ⟨k, rfl⟩ := Nat.exists_eq_add_of_le' (show p ≤ k by omega)
        obtain ⟨j, before, late, close, there⟩ := ih k (by omega) (by omega)
        exact ⟨j + p, by omega, by omega, by omega, (round j late).trans there⟩
  rcases h.ends with all | ⟨-, complete | wrapped⟩
  · exact all
  · exfalso
    rcases Nat.lt_or_ge i stop with after | before
    · obtain ⟨j, inside, -, close, there⟩ := recent stop after
      obtain ⟨last, from_, found⟩ := exists_lastCurrent there inside
      rw [found, Listing.complete, decide_eq_true_eq] at complete
      omega
    · exact rises.not_complete here before complete
  · exact absurd (within stop) (UInt16.not_le.2 wrapped)

/-! ## Windows -/

/-- A window is a piece of the listing from the entry point, of at most the lines asked for.  If line `i`
is at the current instruction and addresses rise up to it, the window shows a line at the current
instruction in the middle, or as far up as the listing has lines before it.  That line is the last one at
the current instruction before decoding stops.  It is line `i`, unless the listing comes back to the
current instruction within half a window. -/
theorem window_shows_current (m : Memory) (current : Address) (valid : entry ≠ 0) (asked : 0 < count) :
    (∃ start n, n ≤ count ∧ window m entry current count = linesFrom m entry start n) ∧
    ∀ i < maxLines, lineAddress m entry i = current → RisesTo m entry i →
      ∃ stop j, StopsAfter m entry current count stop ∧ lastCurrent m entry current stop = some j ∧
        i ≤ j ∧ lineAddress m entry j = current ∧
        ((∀ k, i < k → k ≤ i + count / 2 → lineAddress m entry k ≠ current) → j = i) ∧
        (window m entry current count)[min j (count / 2)]? = some (Line.decode m current) := by
  obtain ⟨stop, stops, shown⟩ := exists_window m current valid asked
  refine ⟨⟨_, _, Nat.min_le_left _ _, shown⟩, fun i few here rises => ?_⟩
  have reached := stops.reaches few here rises
  obtain ⟨j, from_, found⟩ := exists_lastCurrent here reached
  obtain ⟨inside, there⟩ := lastCurrent_eq_some found
  refine ⟨stop, j, stops, found, from_, there, fun left => ?_, ?_⟩
  · rw [stops.lastCurrent_eq reached here left, Option.some_inj] at found
    exact found.symm
  · have half : count / 2 < count := Nat.div_lt_self asked (by decide)
    rw [shown, found, Option.getD_some, getElem?_linesFrom (by omega)]
    have place : j - count / 2 + min j (count / 2) = j := by omega
    rw [place, there]

/-- A short constant, a constant word, a load over two levels, a call and a jump. -/
def shownCode : Memory :=
  endState (Memory.writeBytes 0x2000 [5, 199, 0x34, 0x12, 182, 2, 0x81, 0, 206, 3, 185, 0xF6] Memory.empty)

/-- The call is the fourth line, and two lines stand before it in a window of four. -/
theorem window_shows_current_call :
    (∃ start n, n ≤ 4 ∧ window shownCode 0x2000 0x2008 4 = linesFrom shownCode 0x2000 start n) ∧
    lineAddress shownCode 0x2000 3 = 0x2008 ∧ RisesTo shownCode 0x2000 3 ∧
    (window shownCode 0x2000 0x2008 4)[2]? = some (Line.decode shownCode 0x2008) := by
  have here : lineAddress shownCode 0x2000 3 = 0x2008 := by decide
  have rises : RisesTo shownCode 0x2000 3 := by
    unfold RisesTo
    decide
  obtain ⟨piece, each⟩ := window_shows_current shownCode 0x2008
    (by decide : (0x2000 : Address) ≠ 0) (by decide : 0 < 4)
  obtain ⟨stop, j, -, -, -, -, near, shown⟩ := each 3 (by decide) here rises
  obtain rfl : j = 3 := near fun k after close => by
    obtain rfl | rfl : k = 4 ∨ k = 5 := by omega
    all_goals decide
  exact ⟨piece, here, rises, shown⟩

/-- A byte that does nothing, and a case jump whose table of 32764 words reaches round the address space
back to that byte. -/
def circlingCode : Memory :=
  endState (Memory.writeBytes 0x1000 [215, 172, 0, 0, 0xFB, 0x7F] Memory.empty)

theorem lineAddress_circlingCode (k : Nat) :
    lineAddress circlingCode 0x1000 (2 * k) = 0x1000 ∧
      lineAddress circlingCode 0x1000 (2 * k + 1) = 0x1001 := by
  have ahead : nextLine circlingCode 0x1000 = 0x1001 := by decide
  have back : nextLine circlingCode 0x1001 = 0x1000 := by decide
  induction k with
  | zero => exact ⟨rfl, ahead⟩
  | succ k ih =>
    have even : lineAddress circlingCode 0x1000 (2 * (k + 1)) = 0x1000 :=
      (congrArg (nextLine circlingCode) ih.2).trans back
    exact ⟨even, (congrArg (nextLine circlingCode) even).trans ahead⟩

/-- The first line of a procedure is not always the first one of its window. -/
theorem circling_window_starts_later :
    ¬ ∀ (m : Memory) (entry current : Address) (count : Nat), entry ≠ 0 → 0 < count →
      ∀ i < maxLines, lineAddress m entry i = current → RisesTo m entry i →
        (window m entry current count)[min i (count / 2)]? = some (Line.decode m current) := by
  intro claim
  have first := claim circlingCode 0x1000 0x1000 6 (by decide) (by decide) 0 (by decide) rfl nofun
  obtain ⟨stop, stops, shown⟩ := exists_window circlingCode 0x1000
    (by decide : (0x1000 : Address) ≠ 0) (by decide : 0 < 6)
  have all : stop = maxLines := by
    refine stops.eq_maxLines (i := 0) (p := 2) rfl nofun (by decide) (by decide)
      (lineAddress_circlingCode 1).1 fun k le => ?_
    obtain rfl | rfl | rfl : k = 0 ∨ k = 1 ∨ k = 2 := by omega
    · exact UInt16.le_refl _
    · rw [(lineAddress_circlingCode 0).2]
      decide
    · rw [(lineAddress_circlingCode 1).1]
      decide
  have last : lastCurrent circlingCode 0x1000 0x1000 4096 = some 4094 := by
    refine lastCurrent_of_left (lineAddress_circlingCode 2047).1 (by decide) fun k after before => ?_
    obtain rfl : k = 2 * 2047 + 1 := by omega
    rw [(lineAddress_circlingCode 2047).2]
    decide
  -- the window is the one around line 4094
  have window : linesFrom circlingCode 0x1000 4091 5 = window circlingCode 0x1000 0x1000 6 := by
    rw [shown, all, maxLines, last]
    rfl
  rw [← window, getElem?_linesFrom (by decide), Option.some_inj] at first
  have place := congrArg Line.address first
  have odd : 4091 + min 0 (6 / 2) = 2 * 2045 + 1 := rfl
  rw [address_decode, address_decode, odd, (lineAddress_circlingCode 2045).2] at place
  exact absurd place (by decide)

end Listing
end PSystem
