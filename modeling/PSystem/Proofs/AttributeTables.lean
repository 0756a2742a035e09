import PSystem.Proofs.Emission
import PSystem.Proofs.JumpTargets

/-!
# Segment images at every address

Everything in a segment image that names a place is a distance back from the word that holds it.  So a
segment that is resident at any address answers for its procedures: the dictionary at its end leads to
their attribute tables (`dictionary_of_reads`), and each table gives what the procedure was made with and
leads to its code (`ProcedureSpec.described_of_reads`).  `resident_image_resolves` puts this together for
the overlay table of the machine.
-/

namespace PSystem

/-! ## Marked exits -/

/-- The exit code starts at the offset `target`: that is where it was marked last. -/
def Marked (order : ByteOrder) (directives : List Directive) (target : Nat) : Prop :=
  ∃ before after, directives = before ++ .exit :: after ∧ .exit ∉ after ∧
    target = (draft order before).offset

namespace Draft

variable {d : Draft}

@[simp]
theorem exit_push (b : UInt8) : (d.push b).exit = d.exit := rfl

@[simp]
theorem exit_op (code : UInt8) : (d.op code).exit = d.exit := rfl

@[simp]
theorem exit_branch (code : UInt8) (label : Label) : (d.branch code label).exit = d.exit := rfl

@[simp]
theorem exit_align : d.align.exit = d.exit := by
  unfold align
  split <;> rfl

@[simp]
theorem exit_word (w : Word) : (d.word w).exit = d.exit := by
  simp [word]

theorem exit_bytes (bytes : Bytes) (d : Draft) : (bytes.foldl push d).exit = d.exit := by
  induction bytes generalizing d with
  | nil => rfl
  | cons b bytes ih => exact (ih _).trans (exit_push b)

theorem exit_caseWords (targets : List Label) (d : Draft) : (targets.foldl caseWord d).exit = d.exit := by
  induction targets generalizing d with
  | nil => rfl
  | cons label targets ih => exact ih _

/-- Only a mark changes where the exit code starts. -/
theorem exit_apply {x : Directive} (other : x ≠ .exit) : (d.apply x).exit = d.exit := by
  cases x with
  | op | byte | bind | branch => rfl
  | word w => exact exit_word w
  | align => exact exit_align
  | text cs => exact exit_bytes cs _
  | exit => exact absurd rfl other
  | big w =>
    rw [apply]
    split <;> rfl
  | cases low high default targets =>
    rw [apply_cases, exit_caseWords, exit_branch, bounds, exit_word, exit_word, exit_op]

theorem exit_foldl {directives : List Directive} (other : .exit ∉ directives) (d : Draft) :
    (directives.foldl apply d).exit = d.exit := by
  induction directives generalizing d with
  | nil => rfl
  | cons x directives ih =>
    rw [List.mem_cons, not_or] at other
    exact (ih other.2 _).trans (exit_apply (Ne.symm other.1))

end Draft

theorem Body.exit_of_assemble {order : ByteOrder} {directives : List Directive} {body : Body}
    (assembled : assemble order directives = .ok body) :
    body.exit = (draft order directives).exit.getD (draft order directives).lastOp := by
  obtain ⟨⟨code, table⟩, -, assembled⟩ := except_bind_eq_ok.1 assembled
  obtain ⟨closed, -, assembled⟩ := except_bind_eq_ok.1 assembled
  cases assembled
  rfl

/-- An assembled body exits where its exit code was marked. -/
theorem Marked.exit_eq {order : ByteOrder} {directives : List Directive} {body : Body} {target : Nat}
    (marked : Marked order directives target) (assembled : Body.assemble order directives = .ok body) :
    body.exit = target := by
  obtain ⟨before, after, rfl, last, rfl⟩ := marked
  have noted : (draft order (before ++ .exit :: after)).exit = some (draft order before).offset := by
    rw [draft_append_cons, Draft.exit_foldl last]
    rfl
  rw [Body.exit_of_assemble assembled, noted, Option.getD_some]

/-! ## Attribute tables -/

namespace ProcedureSpec

/-- What the attribute table at an address gives for a procedure with a number that starts at `a`. -/
structure Described (m : Memory) (a number : Nat) (p : ProcedureSpec) (jtab : Address) : Prop where
  number : AttributeTable.number m jtab = .ok (if p.body.isSome then UInt8.ofNat number else 0)
  level : AttributeTable.level m jtab = .ok p.level
  parameterBytes : AttributeTable.parameterBytes m jtab = .ok p.parameterBytes
  dataBytes : AttributeTable.dataBytes m jtab = .ok p.dataBytes
  entry : AttributeTable.entry m jtab = .ok (UInt16.ofNat a)
  exit : AttributeTable.exit m jtab = .ok (UInt16.ofNat (a + (p.body.getD {}).exit))

/-- The two bytes of the attribute table. -/
theorem heading_of_reads {m : Memory} {a number : Nat} {p : ProcedureSpec}
    (h : m.Reads a (p.image m.order number)) :
    m.Reads (a + p.tableOffset)
      [if p.body.isSome then UInt8.ofNat number else 0, (Word.ofSigned p.level).toUInt8] := by
  have heading := h.right
  rw [List.length_append, length_words] at heading
  have place : (evenCode (p.body.getD {}).code).length + 2 * (p.jumpWords ++ [p.dataBytes,
      p.parameterBytes, distance (p.tableOffset - 4) (p.body.getD {}).exit,
      distance (p.tableOffset - 2) 0]).length = p.tableOffset := by
    rw [List.length_append, length_jumpWords, tableOffset, List.length_cons, List.length_cons,
      List.length_cons, List.length_cons, List.length_nil]
    omega
  rwa [place] at heading

theorem signedByte_ofSigned {v : Int} (low : -0x80 ≤ v) (high : v < 0x80) :
    signedByte (Word.ofSigned v).toUInt8 = v := by
  rw [signedByte, Word.ofSigned, UInt16.toNat_toUInt8, UInt16.toNat_ofNat']
  split <;> omega

/-- Wherever the image of a procedure lies, its attribute table describes it. -/
theorem described_of_reads {m : Memory} {a number : Nat} {p : ProcedureSpec}
    (h : m.Reads a (p.image m.order number)) (level : -0x80 ≤ p.level ∧ p.level < 0x80) :
    p.Described m a number (UInt16.ofNat (a + p.tableOffset)) := by
  have high : 8 ≤ p.tableOffset := Nat.le_add_left ..
  have heading := heading_of_reads h
  have back (k : Nat) (le : k ≤ 8) :
      UInt16.ofNat (a + p.tableOffset) - UInt16.ofNat k = UInt16.ofNat (a + (p.tableOffset - k)) :=
    ofNat_add_sub (by omega)
  constructor
  · exact heading 0 _ rfl
  · have second := heading 1 _ rfl
    rw [UInt16.ofNat_add] at second
    rw [AttributeTable.level, show (1 : Address) = UInt16.ofNat 1 from rfl, second]
    exact congrArg Except.ok (signedByte_ofSigned level.1 level.2)
  · rw [AttributeTable.parameterBytes, show (6 : Address) = UInt16.ofNat 6 from rfl, back 6 (by omega)]
    exact attribute_of_reads h (i := 1) rfl
  · rw [AttributeTable.dataBytes, show (8 : Address) = UInt16.ofNat 8 from rfl, back 8 (by omega)]
    exact attribute_of_reads h (i := 0) rfl
  · rw [AttributeTable.entry, show (2 : Address) = UInt16.ofNat 2 from rfl, back 2 (by omega)]
    exact follow_of_distance (attribute_of_reads h (i := 3) rfl)
  · rw [AttributeTable.exit, show (4 : Address) = UInt16.ofNat 4 from rfl, back 4 (by omega)]
    exact follow_of_distance (attribute_of_reads h (i := 2) rfl)

end ProcedureSpec

/-! ## The dictionary -/

namespace SegmentSpec

variable {s : SegmentSpec} {m : Memory} {load : Nat}

@[simp]
theorem length_procedureImages (order : ByteOrder) :
    (s.procedureImages order).length = s.procedures.length := by
  simp [procedureImages]

theorem length_flatten_procedureImages (order : ByteOrder) :
    (s.procedureImages order).flatten.length = s.start order s.procedures.length := by
  rw [start, ← length_procedureImages order, List.take_length]

@[simp]
theorem length_tableOffsets (start : Nat) (images : List Bytes) :
    (tableOffsets start images).length = images.length := by
  induction images generalizing start with
  | nil => rfl
  | cons image rest ih => simp [tableOffsets, ih]

@[simp]
theorem length_dictionaryWords (slot : Nat) (offsets : List Nat) :
    (dictionaryWords slot offsets).length = offsets.length := by
  induction offsets generalizing slot with
  | nil => rfl
  | cons offset rest ih => simp [dictionaryWords, ih]

theorem getElem?_dictionaryWords {offsets : List Nat} {i offset : Nat} (h : offsets[i]? = some offset)
    (slot : Nat) :
    (dictionaryWords slot offsets)[i]? = some (ProcedureSpec.distance (slot + 2 * i) offset) := by
  induction offsets generalizing slot i with
  | nil => simp at h
  | cons first rest ih =>
    cases i with
    | zero =>
      obtain rfl : first = offset := by simpa using h
      rfl
    | succ i =>
      have later := ih (i := i) (by simpa using h) (slot + 2)
      have place : slot + 2 * (i + 1) = slot + 2 + 2 * i := by omega
      rw [dictionaryWords, List.getElem?_cons_succ, later, place]

theorem length_image (order : ByteOrder) :
    (s.image order).length = s.start order s.procedures.length + 2 * s.procedures.length + 2 := by
  simp only [image, List.length_append, ProcedureSpec.length_words, length_dictionaryWords,
    List.length_reverse, length_tableOffsets, length_procedureImages, List.length_cons, List.length_nil,
    length_flatten_procedureImages]
  omega

/-- The words behind the procedures. -/
theorem words_of_reads (h : m.Reads load (s.image m.order)) :
    m.Reads (load + s.start m.order s.procedures.length)
      ((dictionaryWords (s.start m.order s.procedures.length)
          (tableOffsets 0 (s.procedureImages m.order)).reverse ++
        [s.number.toUInt16 ||| (UInt16.ofNat s.procedures.length <<< 8)]).flatMap m.order.bytes) := by
  rw [← length_flatten_procedureImages, ← length_procedureImages m.order]
  exact h.right

/-- The dictionary word of a procedure leads to its attribute table. -/
theorem dictionary_of_reads (h : m.Reads load (s.image m.order)) {k : Nat} {p : ProcedureSpec}
    (hp : s.procedures[k]? = some p) :
    AttributeTable.follow m
        (UInt16.ofNat (load + (s.start m.order s.procedures.length + 2 * (s.procedures.length - 1 - k)))) =
      .ok (UInt16.ofNat (load + (s.start m.order k + p.tableOffset))) := by
  obtain ⟨bound, -⟩ := List.getElem?_eq_some_iff.1 hp
  have offset : (tableOffsets 0 (s.procedureImages m.order)).reverse[s.procedures.length - 1 - k]? =
      some (s.start m.order k + p.tableOffset) := by
    rw [List.getElem?_reverse (by rw [length_tableOffsets, length_procedureImages]; omega),
      length_tableOffsets, length_procedureImages, Nat.sub_sub_self (by omega),
      getElem?_tableOffsets_procedureImages m.order hp]
  obtain ⟨within, -⟩ := List.getElem?_eq_some_iff.1 offset
  have word := getElem?_dictionaryWords offset (s.start m.order s.procedures.length)
  have read := (words_of_reads h).words ((List.getElem?_append_left (by
    rwa [length_dictionaryWords])).trans word)
  rw [Nat.add_assoc] at read
  exact ProcedureSpec.follow_of_distance read

/-- The last word of a segment holds its number and the number of its procedures. -/
theorem lastWord_of_reads (h : m.Reads load (s.image m.order)) :
    m.readWord (UInt16.ofNat (load + (s.start m.order s.procedures.length + 2 * s.procedures.length))) =
      .ok (s.number.toUInt16 ||| (UInt16.ofNat s.procedures.length <<< 8)) := by
  have last := (words_of_reads h).words (i := s.procedures.length) (by
    rw [List.getElem?_append_right (by simp), length_dictionaryWords, List.length_reverse,
      length_tableOffsets, length_procedureImages, Nat.sub_self]
    rfl)
  rwa [Nat.add_assoc] at last

end SegmentSpec

/-! ## Resident segments -/

namespace SegmentTable

variable {t : SegmentTable} {e : Segment} {s : SegmentSpec} {m : Memory} {load : Nat}

/-- The segment is resident at an address, with the size of its image, and its image lies there. -/
structure Holds (t : SegmentTable) (m : Memory) (s : SegmentSpec) (load : Nat) (e : Segment) : Prop where
  entry : t.get? s.number = some e
  resident : e.isResident = true
  codeBase : e.codeBase = UInt16.ofNat load
  size : e.size = UInt16.ofNat (s.image m.order).length
  positive : 0 < load
  fits : load + (s.image m.order).length ≤ 0x10000
  code : m.Reads load (s.image m.order)

theorem Holds.resident_eq (h : t.Holds m s load e) : t.resident s.number = .ok e := by
  unfold SegmentTable.resident
  rw [require_eq_ok.2 h.entry]
  exact if_pos h.resident

theorem evenSize_ofNat {n : Nat} (even : n % 2 = 0) (small : n < 0x10000) :
    evenSize (UInt16.ofNat n) = UInt16.ofNat n := by
  have value : (UInt16.ofNat n).toNat = n := UInt16.toNat_ofNat_of_lt' small
  apply UInt16.toNat_inj.1
  rw [toNat_evenSize (by omega), value]
  omega

/-- The last word of a resident segment. -/
theorem Holds.topWord (h : t.Holds m s load e) :
    e.topWord = UInt16.ofNat (load + (s.start m.order s.procedures.length + 2 * s.procedures.length)) := by
  have length := s.length_image m.order
  have even := s.even_start m.order s.procedures.length
  have fits := h.fits
  have positive := h.positive
  have footprint : e.footprint = UInt16.ofNat (s.image m.order).length := by
    rw [Segment.footprint, h.size]
    exact evenSize_ofNat (by omega) (by omega)
  rw [Segment.topWord, footprint, h.codeBase, ← UInt16.ofNat_add, length]
  exact ofNat_add_sub (k := 2) (by omega)

theorem Holds.toNat_topWord (h : t.Holds m s load e) :
    e.topWord.toNat = load + (s.start m.order s.procedures.length + 2 * s.procedures.length) := by
  have length := s.length_image m.order
  have fits := h.fits
  rw [h.topWord]
  exact UInt16.toNat_ofNat_of_lt' (show _ < 0x10000 by omega)

/-- The number of procedures is the high byte of the last word. -/
theorem Holds.procedureCount (h : t.Holds m s load e) (few : s.procedures.length ≤ 255) :
    t.procedureCount m s.number = .ok (UInt8.ofNat s.procedures.length) := by
  have last := SegmentSpec.lastWord_of_reads h.code
  rw [← h.topWord] at last
  unfold SegmentTable.procedureCount
  rw [h.resident_eq, except_ok_bind, last, except_ok_bind]
  have count : UInt16.ofNat s.procedures.length = (UInt8.ofNat s.procedures.length).toUInt16 := by
    apply UInt16.toNat_inj.1
    rw [UInt8.toNat_toUInt16, UInt8.toNat_ofNat', UInt16.toNat_ofNat']
    omega
  rw [count]
  exact congrArg Except.ok (congrArg Prod.snd (ByteOrder.split_join .little s.number _))

/-- The attribute table of a procedure is where its dictionary word leads. -/
theorem Holds.jtab (h : t.Holds m s load e) (few : s.procedures.length ≤ 255) {k : Nat}
    {p : ProcedureSpec} (hp : s.procedures[k]? = some p) :
    t.jtab m s.number (UInt8.ofNat (k + 1)) =
      .ok (UInt16.ofNat (load + (s.start m.order k + p.tableOffset))) := by
  obtain ⟨bound, -⟩ := List.getElem?_eq_some_iff.1 hp
  have number : (UInt8.ofNat (k + 1)).toNat = k + 1 := UInt8.toNat_ofNat_of_lt' (show _ < 256 by omega)
  have count : (UInt8.ofNat s.procedures.length).toNat = s.procedures.length :=
    UInt8.toNat_ofNat_of_lt' (show _ < 256 by omega)
  have inside : ¬ (UInt8.ofNat (k + 1) = 0 ∨
      UInt8.ofNat s.procedures.length < UInt8.ofNat (k + 1)) := by
    rw [not_or, ← UInt8.toNat_inj, UInt8.lt_iff_toNat_lt, number, count]
    exact ⟨Nat.succ_ne_zero k, by omega⟩
  have top := h.toNat_topWord
  have codeBase : e.codeBase.toNat = load := by
    have fits := h.fits
    have length := s.length_image m.order
    rw [h.codeBase]
    exact UInt16.toNat_ofNat_of_lt' (show _ < 0x10000 by omega)
  -- the dictionary grows downward from the last word, so procedure `k + 1` is `k` words below it
  have slot : e.dictionarySlot (UInt8.ofNat (k + 1)) = .ok (UInt16.ofNat (load +
      (s.start m.order s.procedures.length + 2 * (s.procedures.length - 1 - k)))) := by
    unfold Segment.dictionarySlot
    rw [number, top, codeBase, if_neg (by omega), h.topWord, ofNat_add_sub (by omega)]
    congr 3
    omega
  have leads := SegmentSpec.dictionary_of_reads h.code hp
  unfold SegmentTable.jtab
  rw [h.procedureCount few, except_ok_bind, if_neg inside, h.resident_eq, except_ok_bind, slot,
    except_ok_bind]
  exact leads

/-- No other number names a procedure. -/
theorem Holds.no_jtab (h : t.Holds m s load e) (few : s.procedures.length ≤ 255) {q : UInt8}
    (outside : q = 0 ∨ s.procedures.length < q.toNat) :
    t.jtab m s.number q = .error (.system (.noProcedure q s.number)) := by
  have count : (UInt8.ofNat s.procedures.length).toNat = s.procedures.length :=
    UInt8.toNat_ofNat_of_lt' (show _ < 256 by omega)
  unfold SegmentTable.jtab
  rw [h.procedureCount few, except_ok_bind, if_pos (by rwa [UInt8.lt_iff_toNat_lt, count])]

/-- The image of a segment can be loaded at every address above 0 at which it fits in free cells.  While
the segment is resident there, the overlay table knows the number of its procedures and finds the
attribute table of each, which gives what the procedure was made with and leads to its code and, for an
assembled body, to its marked exit; no other number names a procedure. -/
theorem resident_image_resolves (order : ByteOrder) (s : SegmentSpec) (load : Nat)
    (few : s.procedures.length ≤ 255)
    (levels : ∀ p ∈ s.procedures, -0x80 ≤ p.level ∧ p.level < 0x80) (above : 0x100 ≤ load)
    (fits : load + (s.image order).length ≤ 0x10000) :
    (∀ memory : Memory, memory.order = order →
      (∀ a : Address, load ≤ a.toNat → a.toNat < load + (s.image order).length →
        (memory.cell a).mapped = false ∧ (memory.cell a).readOnly = false) →
      ∃ loaded, Memory.writeBytes (UInt16.ofNat load) (s.image order) memory = .ok () loaded ∧
        loaded.order = order ∧ loaded.Reads load (s.image order)) ∧
    ∀ (m : Memory) (t : SegmentTable) (e : Segment), m.order = order →
      m.Reads load (s.image order) → t.get? s.number = some e → e.isResident = true →
      e.codeBase = UInt16.ofNat load → e.size = UInt16.ofNat (s.image order).length →
      t.procedureCount m s.number = .ok (UInt8.ofNat s.procedures.length) ∧
      (∀ k p, s.procedures[k]? = some p →
        ∃ jtab, t.jtab m s.number (UInt8.ofNat (k + 1)) = .ok jtab ∧
          p.Described m (load + s.start order k) (k + 1) jtab ∧
          m.Reads (load + s.start order k) (p.body.getD {}).code ∧
          ∀ body directives exit, p.body = some body → Body.assemble order directives = .ok body →
            Marked order directives exit →
            AttributeTable.exit m jtab = .ok (UInt16.ofNat (load + s.start order k + exit))) ∧
      ∀ q : UInt8, q = 0 ∨ s.procedures.length < q.toNat →
        t.jtab m s.number q = .error (.system (.noProcedure q s.number)) := by
  constructor
  · rintro memory rfl free
    exact Machine.exists_reads_image s memory (by omega) fits free
  · rintro m t e rfl code entry resident codeBase size
    have holds : t.Holds m s load e :=
      ⟨entry, resident, codeBase, size, by omega, fits, code⟩
    refine ⟨holds.procedureCount few, ?_, fun q outside => holds.no_jtab few outside⟩
    intro k p hp
    obtain ⟨before, after, eq, length⟩ := SegmentSpec.image_split m.order hp
    have placed := SegmentSpec.placed_of_reads code hp
    rw [eq] at code
    have described := ProcedureSpec.described_of_reads code.right.left
      (levels p (List.mem_of_getElem? hp))
    rw [length, Nat.add_assoc] at described
    refine ⟨_, holds.jtab few hp, described, placed.code, ?_⟩
    intro body directives exit hbody assembled marked
    have exits := described.exit
    rwa [hbody, Option.getD_some, marked.exit_eq assembled] at exits

/-- A procedure body with a marked exit. -/
def leaving : List Directive :=
  [.op Opcode.nop.code, .exit, .op Opcode.rnp.code, .byte 0]

/-- Its assembled form; the length is odd. -/
def leaveBody : Body where
  code := [Opcode.nop.code, Opcode.rnp.code, 0]
  jumpTable := []
  exit := 1

/-- A segment of a procedure bound to the host and one with code. -/
def leaveSegment : SegmentSpec where
  number := 7
  name := "LEAVE"
  procedures := [{ level := -1 }, { level := 2, dataBytes := 6, body := some leaveBody }]

/-- The entry of the segment while it lies at 0x101. -/
def leaveEntry : Segment where
  number := 7
  name := "LEAVE"
  unit := 4
  block := 0
  size := 30
  useCount := 1
  codeBase := 0x101

/-- The segment can be loaded at an odd address, and its second procedure has level 2 and the marked
exit. -/
theorem resident_image_resolves_leaving :
    ∃ m jtab, m.Reads 0x101 (leaveSegment.image .big) ∧
      (empty.insert leaveEntry).jtab m 7 2 = .ok jtab ∧ AttributeTable.level m jtab = .ok 2 ∧
      AttributeTable.exit m jtab = .ok 0x10C ∧
      (empty.insert leaveEntry).jtab m 7 3 = .error (.system (.noProcedure 3 7)) := by
  obtain ⟨loads, resolves⟩ := resident_image_resolves .big leaveSegment 0x101 (by decide) (by decide)
    (by decide) (by decide)
  have blank (a : Address) : ({ Memory.empty with order := .big } : Memory).cell a = {} :=
    Cells.get_replicate ..
  obtain ⟨m, -, order, reads⟩ := loads { Memory.empty with order := .big } rfl
    fun a _ _ => by rw [blank]; exact ⟨rfl, rfl⟩
  have entered : (empty.insert leaveEntry).get? 7 = some leaveEntry := by
    rw [get?_insert]
    rfl
  obtain ⟨-, tables, others⟩ := resolves m (empty.insert leaveEntry) leaveEntry order reads entered rfl
    rfl (by decide)
  obtain ⟨jtab, found, described, -, exits⟩ := tables 1 _ rfl
  have marked : Marked .big leaving 1 := ⟨[.op Opcode.nop.code], _, rfl, by decide, rfl⟩
  exact ⟨m, jtab, reads, found, described.level, exits leaveBody leaving 1 rfl (by decide) marked,
    others 3 (.inr (by decide))⟩

end SegmentTable
end PSystem
