import PSystem.Proofs.DirectoryCodec

/-!
# Directories in both byte orders

A directory that holds at most 77 files is written and read back, and it is read back all the same
once the bytes of its words are exchanged: a file count that was exchanged is above the largest one,
unless there are no files (`parse_exchanged`).

`Directory.parse?` reads a directory byte by byte and gives up where a byte is missing.  It never
does (`parse?_eq`), so whatever the bytes are, only bytes that are there are read.
-/

namespace PSystem

namespace ByteOrder

theorem swap_bytes (order : ByteOrder) (w : Word) :
    order.swap.bytes w = [(order.split w).2, (order.split w).1] := by
  cases order <;> rfl

end ByteOrder

/-! ## Exchanging bytes -/

namespace Bytes

variable {data field : Bytes} {order : ByteOrder} {w : Word} {positions : List Nat} {i j k : Nat}

/-- Exchanges a byte with the one behind it. -/
def swapAt (data : Bytes) (i : Nat) : Bytes :=
  match data[i]?, data[i + 1]? with
  | some first, some second => (data.set i second).set (i + 1) first
  | _, _ => data

/-- Exchanges the bytes at each of the positions with those behind them. -/
def exchange (positions : List Nat) (data : Bytes) : Bytes :=
  positions.foldl swapAt data

theorem length_swapAt : (swapAt data i).length = data.length := by
  unfold swapAt
  split
  · rw [List.length_set, List.length_set]
  · rfl

theorem length_exchange : (exchange positions data).length = data.length := by
  induction positions generalizing data with
  | nil => rfl
  | cons p rest ih => exact ih.trans length_swapAt

theorem getElem?_swapAt (first : k ≠ i) (second : k ≠ i + 1) : (swapAt data i)[k]? = data[k]? := by
  unfold swapAt
  split
  · rw [List.getElem?_set_ne second.symm, List.getElem?_set_ne first.symm]
  · rfl

/-- A field apart from the two bytes stays. -/
theorem swapAt_keeps (stands : field <+: data.drop j) (apart : i + 2 ≤ j ∨ j + field.length ≤ i) :
    field <+: (swapAt data i).drop j := by
  rw [stands_iff]
  intro k hk
  rw [getElem?_swapAt (by omega) (by omega)]
  exact getElem?_of_stands stands hk

/-- A word whose bytes are exchanged stands in the other byte order. -/
theorem swapAt_stands (stands : order.bytes w <+: data.drop i) :
    order.swap.bytes w <+: (swapAt data i).drop i := by
  have first : data[i]? = some (order.split w).1 := getElem?_of_stands stands (k := 0) Nat.two_pos
  have second : data[i + 1]? = some (order.split w).2 := getElem?_of_stands stands Nat.one_lt_two
  have inside : i + 1 < data.length := (List.getElem?_eq_some_iff.1 second).1
  rw [ByteOrder.swap_bytes, stands_iff, swapAt, first, second]
  rintro (_ | _ | k) hk
  · show ((data.set i (order.split w).2).set (i + 1) (order.split w).1)[i]? = some (order.split w).2
    rw [List.getElem?_set_ne (by omega), List.getElem?_set_self (by omega)]
  · show ((data.set i (order.split w).2).set (i + 1) (order.split w).1)[i + 1]? = some (order.split w).1
    rw [List.getElem?_set_self (by rw [List.length_set]; omega)]
  · rw [List.length_cons, List.length_cons, List.length_nil] at hk
    omega

/-- A word that is read in the wrong order. -/
theorem wordAt_of_stands_swap (stands : order.swap.bytes w <+: data.drop i) :
    wordAt order data i = order.join (order.split w).2 (order.split w).1 := by
  rw [ByteOrder.swap_bytes] at stands
  have both : [(order.split w).2] ++ [(order.split w).1] <+: data.drop i := stands
  obtain ⟨first, second⟩ := stands_append both
  have behind : at0 data (i + 1) = (order.split w).1 := at0_of_stands second
  rw [wordAt, at0_of_stands first, behind]

theorem exchange_keeps (stands : field <+: data.drop j)
    (apart : ∀ p ∈ positions, p + 2 ≤ j ∨ j + field.length ≤ p) :
    field <+: (exchange positions data).drop j := by
  induction positions generalizing data with
  | nil => exact stands
  | cons p rest ih =>
    exact ih (swapAt_keeps stands (apart p List.mem_cons_self))
      fun q hq => apart q (List.mem_cons_of_mem p hq)

/-- Where no two positions overlap, the words at all of them are exchanged. -/
theorem exchange_stands (stands : order.bytes w <+: data.drop j) (mem : j ∈ positions)
    (apart : positions.Pairwise fun p q => p + 2 ≤ q) :
    order.swap.bytes w <+: (exchange positions data).drop j := by
  induction positions generalizing data with
  | nil => cases mem
  | cons p rest ih =>
    obtain ⟨behind, apart⟩ := List.pairwise_cons.1 apart
    -- once exchanged, a word lies before all positions that follow
    rcases List.mem_cons.1 mem with rfl | later
    · have here := swapAt_stands stands
      show _ <+: (exchange rest (swapAt data j)).drop j
      exact exchange_keeps here fun q hq => .inr (behind q hq)
    · exact ih (swapAt_keeps stands (.inl (behind j later))) later apart

end Bytes

namespace Directory

open Bytes (Ascii exchange exchange_keeps exchange_stands wordAt_of_stands)

variable {data : Bytes} {files : List FileExtent} {volume : String} {i n : Nat}

/-! ## Directories that fit -/

theorem exists_putFiles? (fits : (i + files.length) * entrySize ≤ data.length) :
    ∃ data', putFiles? i data files = some data' := by
  induction files generalizing i data with
  | nil => exact ⟨data, rfl⟩
  | cons f rest ih =>
    have field := length_fileField f
    rw [List.length_cons] at fits
    have here : (i + 1) * entrySize ≤ data.length :=
      Nat.le_trans (Nat.mul_le_mul_right _ (by omega)) fits
    rw [Nat.succ_mul] at here
    have entry : i * entrySize + (fileField f).length ≤ data.length := by omega
    obtain ⟨next, put⟩ := Bytes.exists_put entry
    have behind : (i + 1 + rest.length) * entrySize ≤ next.length := by
      rw [Bytes.length_put put, Nat.add_right_comm]
      exact fits
    obtain ⟨data', later⟩ := ih behind
    exact ⟨data', Option.bind_eq_some_iff.2 ⟨next, put, later⟩⟩

/-- A short volume name of ASCII characters is not cut. -/
theorem cutText?_of_ascii (ascii : Ascii volume) (short : volume.length ≤ n) :
    cutText? volume n = some (Bytes.ofText volume) := by
  have length : (Bytes.ofText volume).length = volume.length := by
    rw [Bytes.ofText_of_ascii ascii, List.length_map, String.length_toList]
  exact if_pos (by rw [length]; exact short)

/-- Up to 77 files always fit. -/
theorem exists_encode? (ascii : Ascii volume) (short : volume.length ≤ maxVolumeName)
    (count : files.length ≤ maxFiles) : ∃ data, encode? volume files = some data := by
  have zeros : (Bytes.zeros size).length = 2048 := List.length_replicate
  have named := length_nameField (Bytes.ofText volume)
  change files.length ≤ 77 at count
  change (nameField _).length ≤ 16 at named
  -- putting a field does not change the length, so that there is room for the next one
  have start : 2 + (ByteOrder.little.bytes 6).length ≤ (Bytes.zeros size).length := by
    rw [zeros]
    decide
  obtain ⟨first, h₁⟩ := Bytes.exists_put start
  have l₁ := (Bytes.length_put h₁).trans zeros
  have name : nameOffset + (nameField (Bytes.ofText volume)).length ≤ first.length := by
    rw [l₁]
    change 6 + _ ≤ _
    omega
  obtain ⟨second, h₂⟩ := Bytes.exists_put name
  have l₂ := (Bytes.length_put h₂).trans l₁
  have counted : countOffset + (ByteOrder.little.bytes (UInt16.ofNat files.length)).length ≤
      second.length := by
    rw [l₂]
    change 16 + 2 ≤ 2048
    decide
  obtain ⟨third, h₃⟩ := Bytes.exists_put counted
  have l₃ := (Bytes.length_put h₃).trans l₂
  have entries : (1 + files.length) * entrySize ≤ third.length := by
    rw [l₃]
    change (1 + files.length) * 26 ≤ _
    omega
  obtain ⟨data, h₄⟩ := exists_putFiles? entries
  exact ⟨data, Option.bind_eq_some_iff.2 ⟨_, cutText?_of_ascii ascii short,
    Option.bind_eq_some_iff.2 ⟨first, h₁, Option.bind_eq_some_iff.2 ⟨second, h₂,
      Option.bind_eq_some_iff.2 ⟨third, h₃, h₄⟩⟩⟩⟩⟩

/-! ## The other byte order -/

/-- The positions of the words that a directory of `n` files is read from. -/
def wordPositions : Nat → List Nat
  | 0 => [countOffset]
  | n + 1 =>
    wordPositions n ++ [(n + 1) * entrySize, (n + 1) * entrySize + 2, (n + 1) * entrySize + 4]

theorem mem_wordPositions {p : Nat} : p ∈ wordPositions n ↔ p = countOffset ∨
    ∃ k < n, p = (k + 1) * entrySize ∨ p = (k + 1) * entrySize + 2 ∨ p = (k + 1) * entrySize + 4 := by
  induction n with
  | zero => simp [wordPositions]
  | succ n ih =>
    rw [wordPositions, List.mem_append, ih]
    simp only [List.mem_cons, List.not_mem_nil, or_false]
    constructor
    · rintro ((count | ⟨k, hk, here⟩) | last)
      · exact .inl count
      · exact .inr ⟨k, Nat.lt_succ_of_lt hk, here⟩
      · exact .inr ⟨n, Nat.lt_succ_self n, last⟩
    · rintro (count | ⟨k, hk, here⟩)
      · exact .inl (.inl count)
      · rcases Nat.lt_succ_iff_lt_or_eq.1 hk with earlier | rfl
        · exact .inl (.inr ⟨k, earlier, here⟩)
        · exact .inr here

/-- No two words of a directory overlap. -/
theorem pairwise_wordPositions (n : Nat) : (wordPositions n).Pairwise fun p q => p + 2 ≤ q := by
  induction n with
  | zero => exact List.pairwise_singleton _ _
  | succ n ih =>
    rw [wordPositions, List.pairwise_append]
    refine ⟨ih, by simp, fun p hp q hq => ?_⟩
    have start : (n + 1) * entrySize ≤ q := by
      simp only [List.mem_cons, List.not_mem_nil, or_false] at hq
      omega
    change (n + 1) * 26 ≤ q at start
    rcases mem_wordPositions.1 hp with rfl | ⟨k, hk, here⟩
    · change 16 + 2 ≤ q
      omega
    · change p = (k + 1) * 26 ∨ p = (k + 1) * 26 + 2 ∨ p = (k + 1) * 26 + 4 at here
      omega

/-- A count whose bytes are exchanged is found in the other order, unless it is zero. -/
theorem countAndOrder_exchanged (count : n ≤ maxFiles)
    (stands : ByteOrder.big.bytes (UInt16.ofNat n) <+: data.drop countOffset) :
    countAndOrder data = (n, if n = 0 then .little else .big) := by
  -- of the counts from 0 to 77 only the first is not above 77 with its bytes exchanged
  have exchanged : ∀ n : Fin 78,
      let w := ByteOrder.little.join (ByteOrder.little.split (UInt16.ofNat n)).2
        (ByteOrder.little.split (UInt16.ofNat n)).1;
      (w.toNat ≤ maxFiles ↔ n.val = 0) ∧ (n.val = 0 → w.toNat = 0) := by
    decide
  obtain ⟨decides, zero⟩ := exchanged ⟨n, Nat.lt_succ_of_le count⟩
  have small : n < UInt16.size := Nat.lt_of_le_of_lt count (by decide)
  have misread : Bytes.wordAt .little data countOffset = _ := Bytes.wordAt_of_stands_swap stands
  rw [countAndOrder, misread, wordAt_of_stands stands, UInt16.toNat_ofNat_of_lt' small]
  dsimp only at decides zero ⊢
  by_cases none : n = 0
  · rw [if_pos (decides.2 none), if_pos none, zero none, none]
  · rw [if_neg (mt decides.1 none), if_neg none]

/-- With the bytes of its words exchanged, a directory is still read back. -/
theorem parse_exchanged (h : encode? volume files = some data) (count : files.length ≤ maxFiles) :
    parse (exchange (wordPositions files.length) data) = parse data := by
  obtain ⟨name, cut, parsed⟩ := parse_encode? h count
  obtain ⟨name', cut', length, named, counted, entries⟩ := encode?_stands h
  cases cut.symm.trans cut'
  have apart := pairwise_wordPositions files.length
  have short := cutText?_length cut
  rw [parsed]
  refine parse_of_fields (Bytes.length_exchange.trans length) short ?_
    (countAndOrder_exchanged count ?_) count fun k f hf => ?_
  · -- the volume name ends before the count
    refine exchange_keeps named fun p hp => .inr ?_
    have size : (nameField name).length ≤ 8 := by
      change name.length ≤ 7 at short
      rw [nameField, List.length_cons, List.length_take]
      omega
    rcases mem_wordPositions.1 hp with rfl | ⟨k, -, here⟩
    · change 6 + _ ≤ 16
      omega
    · change p = (k + 1) * 26 ∨ p = (k + 1) * 26 + 2 ∨ p = (k + 1) * 26 + 4 at here
      change 6 + _ ≤ p
      omega
  · exact exchange_stands counted (mem_wordPositions.2 (.inl rfl)) apart
  · have hk : k < files.length := (List.getElem?_eq_some_iff.1 hf).1
    have some_ : files.length ≠ 0 := by omega
    obtain ⟨first, next, kind, text⟩ := stands_fileField (entries k f hf)
    have member {p : Nat} (here : p = (k + 1) * entrySize ∨ p = (k + 1) * entrySize + 2 ∨
        p = (k + 1) * entrySize + 4) : p ∈ wordPositions files.length :=
      mem_wordPositions.2 (.inr ⟨k, hk, here⟩)
    rw [if_neg some_]
    refine fileAt_of_fields (exchange_stands first (member (.inl rfl)) apart)
      (exchange_stands next (member (.inr (.inl rfl))) apart)
      (exchange_stands kind (member (.inr (.inr rfl))) apart) (exchange_keeps text fun p hp => ?_)
    -- the name lies between the words of its entry and those of the next one
    have size := length_nameField (Bytes.ofText f.name)
    change (nameField _).length ≤ 16 at size
    change p + 2 ≤ (k + 1) * 26 + 6 ∨ (k + 1) * 26 + 6 + _ ≤ p
    rcases mem_wordPositions.1 hp with rfl | ⟨k', -, here⟩
    · change 16 + 2 ≤ _ ∨ _
      omega
    · change p = (k' + 1) * 26 ∨ p = (k' + 1) * 26 + 2 ∨ p = (k' + 1) * 26 + 4 at here
      omega

/-! ## Reading byte by byte -/

/-- The word at a position, if both of its bytes are there. -/
def word? (order : ByteOrder) (data : Bytes) (i : Nat) : Option Word := do
  let first ← data[i]?
  let second ← data[i + 1]?
  return order.join first second

/-- The `n` bytes from a position on, if all of them are there. -/
def bytes? (data : Bytes) (i n : Nat) : Option Bytes :=
  (List.range n).mapM fun k => data[i + k]?

/-- The name at a position, if its bytes are there. -/
def name? (data : Bytes) (i : Nat) : Option String := do
  let length ← data[i]?
  let text ← bytes? data (i + 1) (min length.toNat maxName)
  return Bytes.latin text

/-- The file entry at a position, if its bytes are there. -/
def file? (order : ByteOrder) (data : Bytes) (i : Nat) : Option FileExtent := do
  let firstBlock ← word? order data i
  let nextBlock ← word? order data (i + 2)
  let kind ← word? order data (i + 4)
  let name ← name? data (i + nameOffset)
  return { name, firstBlock, nextBlock, kind }

/-- The byte order and the file count, if the count is there. -/
def countAndOrder? (data : Bytes) : Option (Nat × ByteOrder) := do
  let little ← word? .little data countOffset
  let big ← word? .big data countOffset
  return if little.toNat ≤ maxFiles then (little.toNat, .little) else (big.toNat, .big)

/-- Reads a directory and gives up at the first byte that is not there. -/
def parse? (data : Bytes) : Option Directory :=
  if data.length < entrySize then some {}
  else do
    let (count, order) ← countAndOrder? data
    let length ← data[nameOffset]?
    let volume ← if length.toNat ≤ maxVolumeName then name? data nameOffset else some ""
    let whole := data.length / entrySize - 1
    let files ← (List.range (min (min count maxFiles) whole)).mapM fun i =>
      file? order data ((i + 1) * entrySize)
    return { volume, files }

theorem getElem?_eq_at0 (inside : i < data.length) : data[i]? = some (Bytes.at0 data i) := by
  rw [Bytes.at0_eq_getElem inside, List.getElem?_eq_getElem inside]

theorem word?_eq {order : ByteOrder} (inside : i + 2 ≤ data.length) :
    word? order data i = some (Bytes.wordAt order data i) := by
  rw [word?, getElem?_eq_at0 (by omega), getElem?_eq_at0 (by omega)]
  rfl

/-- A list of readings that all find something. -/
theorem mapM_eq_some {α β : Type} {f : α → Option β} {g : α → β} {xs : List α}
    (h : ∀ x ∈ xs, f x = some (g x)) : xs.mapM f = some (xs.map g) := by
  induction xs with
  | nil => rfl
  | cons x xs ih =>
    rw [List.mapM_cons, h x List.mem_cons_self, ih fun y hy => h y (List.mem_cons_of_mem x hy)]
    rfl

theorem bytes?_eq (inside : i + n ≤ data.length) : bytes? data i n = some ((data.drop i).take n) := by
  have each : ∀ k ∈ List.range n, data[i + k]? = some (Bytes.at0 data (i + k)) := by
    intro k hk
    rw [List.mem_range] at hk
    exact getElem?_eq_at0 (by omega)
  rw [bytes?, mapM_eq_some each]
  congr 1
  apply List.ext_getElem
  · rw [List.length_map, List.length_range, List.length_take, List.length_drop]
    omega
  · intro k hk _
    rw [List.length_map, List.length_range] at hk
    rw [List.getElem_map, List.getElem_range, List.getElem_take, List.getElem_drop,
      Bytes.at0_eq_getElem (by omega)]

theorem name?_eq (inside : i + 1 + maxName ≤ data.length) : name? data i = some (nameAt data i) := by
  rw [name?, getElem?_eq_at0 (by omega), nameAt]
  show (bytes? data (i + 1) _ >>= fun text => some (Bytes.latin text)) = _
  rw [bytes?_eq (by omega)]
  rfl

/-- An entry that is there entirely is read. -/
theorem file?_eq {order : ByteOrder} (inside : i + entrySize ≤ data.length) :
    file? order data i = some (fileAt order data i) := by
  change i + 26 ≤ _ at inside
  have name : name? data (i + nameOffset) = some (nameAt data (i + nameOffset)) :=
    name?_eq (by change i + 6 + 1 + 15 ≤ _; omega)
  rw [file?, word?_eq (by omega), word?_eq (by omega), word?_eq (by omega), name]
  rfl

/-- No byte is missing that a directory is read from. -/
theorem parse?_eq (data : Bytes) : parse? data = some (parse data) := by
  by_cases short : data.length < entrySize
  · rw [parse?, parse, if_pos short, if_pos short]
  · have long : 26 ≤ data.length := Nat.not_lt.1 short
    have count : countAndOrder? data = some (countAndOrder data) := by
      rw [countAndOrder?, word?_eq (by change 16 + 2 ≤ _; omega), word?_eq (by change 16 + 2 ≤ _; omega)]
      rfl
    have length : data[nameOffset]? = _ := getElem?_eq_at0 (by change 6 < _; omega)
    have name : name? data nameOffset = some (nameAt data nameOffset) :=
      name?_eq (by change 6 + 1 + 15 ≤ _; omega)
    -- only entries that end within the bytes are read
    have files (order : ByteOrder) (n : Nat) :
        ((List.range (min n (data.length / entrySize - 1))).mapM fun i =>
          file? order data ((i + 1) * entrySize)) =
        some ((List.range (min n (data.length / entrySize - 1))).map fun i =>
          fileAt order data ((i + 1) * entrySize)) := by
      apply mapM_eq_some
      intro i hi
      rw [List.mem_range] at hi
      apply file?_eq
      change i < min n (data.length / 26 - 1) at hi
      change (i + 1) * 26 + 26 ≤ data.length
      omega
    rw [parse?, parse, if_neg short, if_neg short, count, length]
    simp only [Option.bind_eq_bind, Option.bind_some, name, files]
    split <;> rfl

/-- Whatever is read, there are at most 77 files. -/
theorem length_files_parse (data : Bytes) : (parse data).files.length ≤ maxFiles := by
  rw [parse]
  split
  · exact Nat.zero_le _
  · show (List.map _ (List.range _)).length ≤ maxFiles
    rw [List.length_map, List.length_range]
    omega

theorem length_nameAt (data : Bytes) (i : Nat) : (nameAt data i).length ≤ maxName := by
  rw [nameAt, Bytes.latin, String.length_ofList, List.length_map, List.length_take]
  omega

/-- Whatever is read, names have at most 15 characters. -/
theorem length_name_parse {f : FileExtent} (h : f ∈ (parse data).files) :
    f.name.length ≤ maxName := by
  rw [parse] at h
  split at h
  · cases h
  · obtain ⟨i, -, rfl⟩ := List.mem_map.1 h
    exact length_nameAt data _

/-! ## The first file with a name -/

/-- The first file of a list whose name is equal up to the case of letters. -/
def FirstNamed (files : List FileExtent) (name : String) (f : FileExtent) : Prop :=
  ∃ before after, files = before ++ f :: after ∧ Bytes.sameName f.name name = true ∧
    ∀ g ∈ before, Bytes.sameName g.name name = false

theorem find?_eq_some {d : Directory} {name : String} {f : FileExtent} :
    d.find? name = some f ↔ FirstNamed d.files name f := by
  rw [find?, List.find?_eq_some_iff_append, FirstNamed]
  simp only [Bool.not_eq_true']
  tauto

theorem find?_eq_none {d : Directory} {name : String} :
    d.find? name = none ↔ ∀ f ∈ d.files, Bytes.sameName f.name name = false := by
  rw [find?, List.find?_eq_none]
  simp only [Bool.not_eq_true]

/-! ## Round trips -/

/-- A directory of ASCII names that fit is written, and it is read back whether its words stand in
the one byte order or the other; files are found by their names, the first of those that differ
only in the case of letters.  Of any bytes, only those that are there are read, at most 77 files,
and names of at most 15 characters. -/
theorem directory_round_trip :
    (∀ (volume : String) (files : List FileExtent), Ascii volume → volume.length ≤ 7 →
      files.length ≤ 77 → (∀ f ∈ files, Ascii f.name ∧ f.name.length ≤ 15) →
      ∃ data, encode? volume files = some data ∧ parse data = ⟨volume, files⟩ ∧
        parse (exchange (wordPositions files.length) data) = ⟨volume, files⟩ ∧
        ∀ name, (∀ f, (parse data).find? name = some f ↔ FirstNamed files name f) ∧
          ((parse data).find? name = none ↔ ∀ f ∈ files, Bytes.sameName f.name name = false)) ∧
    ∀ data : Bytes, parse? data = some (parse data) ∧ (parse data).files.length ≤ 77 ∧
      ∀ f ∈ (parse data).files, f.name.length ≤ 15 := by
  refine ⟨fun volume files ascii short count names => ?_,
    fun data => ⟨parse?_eq data, length_files_parse data, fun f => length_name_parse⟩⟩
  obtain ⟨data, encoded⟩ := exists_encode? ascii short count
  obtain ⟨name, cut, parsed⟩ := parse_encode? encoded count
  cases cut.symm.trans (cutText?_of_ascii ascii short)
  have same : files.map shown = files := by
    refine (List.map_congr_left fun f hf => ?_).trans (List.map_id files)
    rw [shown, shownName_of_ascii (names f hf).1 (names f hf).2]
    rfl
  rw [Bytes.latin_ofText ascii, same] at parsed
  refine ⟨data, encoded, parsed, (parse_exchanged encoded count).trans parsed, fun name => ?_⟩
  rw [parsed]
  exact ⟨fun f => find?_eq_some, find?_eq_none⟩

/-- Three files, of which the last two have names that differ in the case of a letter. -/
def alike : List FileExtent :=
  [⟨"EDITOR.CODE", 6, 20, 2⟩, ⟨"SYSTEM.PASCAL", 20, 40, 2⟩, ⟨"System.PASCAL", 40, 0xFFFF, 3⟩]

/-- The earlier one of them is found, behind a file of another name, and no file is found by a name that
none of them has. -/
theorem directory_round_trip_alike :
    ∃ data, encode? "PASCAL" alike = some data ∧
      parse (exchange [16, 26, 28, 30, 52, 54, 56, 78, 80, 82] data) = ⟨"PASCAL", alike⟩ ∧
      (parse data).find? "system.pascal" = some ⟨"SYSTEM.PASCAL", 20, 40, 2⟩ ∧
      (parse data).find? "FILER.CODE" = none := by
  obtain ⟨data, encoded, -, exchanged, found⟩ :=
    directory_round_trip.1 "PASCAL" alike (by decide) (by decide) (by decide) (by decide)
  refine ⟨data, encoded, exchanged, ((found "system.pascal").1 _).2 ?_, (found "FILER.CODE").2.2 (by decide)⟩
  exact ⟨[⟨"EDITOR.CODE", 6, 20, 2⟩], [⟨"System.PASCAL", 40, 0xFFFF, 3⟩], rfl, by decide, by decide⟩

end Directory
end PSystem
