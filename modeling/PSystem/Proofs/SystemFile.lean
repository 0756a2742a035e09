import PSystem.Proofs.CallReturn
import PSystem.Proofs.FileLayout
import PSystem.Proofs.Origins
import PSystem.Proofs.ReferenceCounts

/-!
# From the system file to memory

A volume `Carries` a code file under a name.  On whichever unit the volume is, and whether its sectors
are skewed or not, the boot finds the file, reads its dictionary in the byte order in which it was
written, and makes a table that leads back to the bytes of each segment (`Finds`).  Every step keeps the
table leading there, so a segment that is brought in is the one that was written
(`system_file_in_memory`).
-/

namespace PSystem

open Bytes (blockSize)

/-! ## The table of a dictionary -/

namespace SegmentTable

/-- The segment that a dictionary entry describes. -/
def described (unit fileBlock : Word) (e : DictionaryEntry) : Segment :=
  { number := e.number, name := e.name, unit := unit, block := fileBlock + e.block, size := e.length }

/-- Entries with different numbers all come into the table, and nothing else does. -/
theorem get?_foldl_addEntry {unit fileBlock : Word} {entries : List DictionaryEntry} {t : SegmentTable}
    (distinct : entries.Pairwise (·.number ≠ ·.number)) (new : ∀ e ∈ entries, t.get? e.number = none) :
    (∀ e ∈ entries, (entries.foldl (addEntry unit fileBlock) t).get? e.number =
      some (described unit fileBlock e)) ∧
    ∀ n, (∀ e ∈ entries, e.number ≠ n) →
      (entries.foldl (addEntry unit fileBlock) t).get? n = t.get? n := by
  induction entries generalizing t with
  | nil =>
    refine ⟨fun e he => ?_, fun _ _ => rfl⟩
    cases he
  | cons e rest ih =>
    obtain ⟨other, distinct⟩ := List.pairwise_cons.1 distinct
    have added : addEntry unit fileBlock t e = t.insert (described unit fileBlock e) := by
      unfold addEntry
      rw [new e List.mem_cons_self]
      rfl
    have here : (t.insert (described unit fileBlock e)).get? e.number =
        some (described unit fileBlock e) := by
      rw [get?_insert]
      exact if_pos rfl
    -- The numbers are distinct, so no later entry replaces this one.
    have away {n : UInt8} (ne : e.number ≠ n) :
        (t.insert (described unit fileBlock e)).get? n = t.get? n := by
      rw [get?_insert]
      exact if_neg ne
    rw [List.foldl_cons, added]
    obtain ⟨found, kept⟩ := ih (t := t.insert (described unit fileBlock e)) distinct fun f hf => by
      rw [away (other f hf)]
      exact new f (List.mem_cons_of_mem _ hf)
    constructor
    · intro f hf
      rcases List.mem_cons.1 hf with rfl | later
      · rw [kept _ fun g hg => (other g hg).symm]
        exact here
      · exact found f later
    · intro n ne
      rw [kept n fun g hg => ne g (List.mem_cons_of_mem _ hg)]
      exact away (ne e List.mem_cons_self)

theorem get?_ofDictionary {d : Dictionary} {unit fileBlock : Word}
    (distinct : d.entries.Pairwise (·.number ≠ ·.number)) {e : DictionaryEntry} (he : e ∈ d.entries) :
    (ofDictionary d unit fileBlock).get? e.number = some (described unit fileBlock e) :=
  (get?_foldl_addEntry distinct fun _ _ => get?_empty _).1 e he

end SegmentTable

/-! ## The dictionary of the system file -/

/-- A volume carries a code file made of segments, in a byte order and under a name.  The directory holds
fifteen bytes of every name, so these must tell the files before it from this one. -/
structure Carries (volume : Bytes) (order : ByteOrder) (parts : List CodePart) (name : String) : Prop where
  count : parts.length ≤ Dictionary.slots
  sizes : ∀ part ∈ parts, 1 ≤ part.bytes.length ∧ part.bytes.length ≤ 65534
  distinct : (parts.map (·.number)).Nodup
  kernel : 0 ∈ parts.map (·.number)
  ascii : Bytes.Ascii name
  short : name.length ≤ Directory.maxName
  blocks : volume.length < 65536 * blockSize
  placed : ∃ label before code after, CodeFile.image? order parts = some code ∧
    Volume.image? label (before ++ (name, code) :: after) = some volume ∧
    (before ++ (name, code) :: after).length ≤ Directory.maxFiles ∧
    ∀ file ∈ before, Bytes.sameName (Directory.shownName file.1) name = false

variable {volume : Bytes} {order : ByteOrder} {parts : List CodePart} {part : CodePart} {name : String}
  {unit : Word}

/-- What stands at the start of a block of a volume stands at a block that has a number. -/
theorem Carries.block_lt {bytes : Bytes} {b : Nat} (carries : Carries volume order parts name)
    (stands : bytes <+: volume.drop (b * blockSize)) (positive : 0 < bytes.length) : b < UInt16.size := by
  have inside := Bytes.le_of_stands stands positive
  have blocks := carries.blocks
  change b < 65536
  simp only [blockSize] at inside blocks
  omega

/-- What the dictionary of the system file says. -/
structure Tells (volume : Bytes) (parts : List CodePart) (fileBlock : Word)
    (entries : List DictionaryEntry) : Prop where
  numbers : entries.map (·.number) = parts.map (·.number)
  small : ∀ e ∈ entries, e.length.toNat ≤ 65534
  leads : ∀ part ∈ parts, ∃ e ∈ entries, e.number = part.number ∧
    e.length.toNat = part.bytes.length ∧
    part.bytes <+: volume.drop ((fileBlock + e.block).toNat * blockSize)

/-- The dictionary of the code file leads to the segments, wherever on the volume the file stands. -/
theorem Carries.tells {code : Bytes} {fileBlock : Word} (carries : Carries volume order parts name)
    (coded : CodeFile.image? order parts = some code)
    (stands : code <+: volume.drop (fileBlock.toNat * blockSize)) :
    Tells volume parts fileBlock ((CodeFile.entries 0 1 parts).map Dictionary.shown) := by
  refine ⟨?_, ?_, ?_⟩
  · rw [List.map_map]
    exact CodeFile.numbers_entries 0 1 parts
  · intro e he
    obtain ⟨e, listed, rfl⟩ := List.mem_map.1 he
    obtain ⟨-, -, part, member, -, length⟩ := CodeFile.mem_entries listed
    have large := (carries.sizes part member).2
    show e.length.toNat ≤ 65534
    rw [length, UInt16.toNat_ofNat_of_lt' (Nat.lt_of_le_of_lt large (by decide))]
    exact large
  · intro part member
    obtain ⟨front, back, rfl⟩ := List.append_of_mem member
    obtain ⟨low, high⟩ := carries.sizes part member
    -- the entry counts blocks from the start of the file, which the sum of both block numbers undoes
    have whole := Bytes.stands_trans stands (CodeFile.part_stands coded)
    rw [← Nat.add_mul] at whole
    have sum : _ < 65536 := carries.block_lt whole low
    have block : (fileBlock + UInt16.ofNat (1 + CodeFile.blocksOf front)).toNat =
        fileBlock.toNat + (1 + CodeFile.blocksOf front) := by
      rw [UInt16.toNat_add, UInt16.toNat_ofNat']
      omega
    rw [← block] at whole
    rw [CodeFile.entries_append, CodeFile.entries, List.map_append, List.map_cons]
    refine ⟨_, List.mem_append_right _ List.mem_cons_self, rfl, ?_, whole⟩
    exact UInt16.toNat_ofNat_of_lt' (Nat.lt_of_le_of_lt high (by decide))

/-- The dictionary of the code file is read as it was written. -/
theorem Carries.parsed {code : Bytes} (carries : Carries volume order parts name)
    (coded : CodeFile.image? order parts = some code) :
    Dictionary.parse? (code.take blockSize) =
      some { order := order, entries := (CodeFile.entries 0 1 parts).map Dictionary.shown } := by
  refine CodeFile.parse?_image? coded carries.count ?_ ?_
  · intro none
    have kernel := carries.kernel
    rw [none] at kernel
    cases kernel
  · intro part member
    obtain ⟨low, high⟩ := carries.sizes part member
    omega

/-- The table of the dictionary has every segment as its entry describes it. -/
theorem Tells.described {fileBlock : Word} {entries : List DictionaryEntry}
    (tells : Tells volume parts fileBlock entries) (distinct : (parts.map (·.number)).Nodup)
    (member : part ∈ parts) :
    ∃ e, (SegmentTable.ofDictionary { order := order, entries := entries } unit fileBlock).get?
        part.number = some (SegmentTable.described unit fileBlock e) ∧
      e.length.toNat = part.bytes.length ∧
      part.bytes <+: volume.drop ((fileBlock + e.block).toNat * blockSize) := by
  obtain ⟨e, listed, number, length, stands⟩ := tells.leads part member
  have apart : entries.Pairwise (·.number ≠ ·.number) := by
    rw [← tells.numbers] at distinct
    exact List.pairwise_map.1 distinct
  refine ⟨e, ?_, length, stands⟩
  rw [← number]
  exact SegmentTable.get?_ofDictionary (d := { order := order, entries := entries }) apart listed

/-! ## Finding the system file -/

namespace Storage

variable {s : Storage}

/-- A read of what stands at the start of a block of the volume. -/
theorem readBlocks_of_stands {block : Word} {bytes : Bytes} {n : Nat} (holds : s.Holds unit volume)
    (stands : bytes <+: volume.drop (block.toNat * blockSize)) (positive : 0 < bytes.length)
    (fits : n ≤ bytes.length) : s.readBlocks unit block n = .ok (bytes.take n) := by
  have inside := Bytes.le_of_stands stands positive
  obtain ⟨rest, eq⟩ := stands
  rw [readBlocks, readAt_of_holds holds (by omega), ← eq, List.take_append_of_le_length fits]

theorem directory_of_holds {label : String} {files : List (String × Bytes)} (holds : s.Holds unit volume)
    (placed : Volume.image? label files = some volume) :
    ∃ directory, Directory.encode? label (Volume.extents Volume.firstFile files) = some directory ∧
      s.directory unit = .ok (Directory.parse directory) := by
  obtain ⟨directory, encoded, stands⟩ := Volume.directory_stands placed
  have start : Volume.firstFile * blockSize = Directory.firstBlock * blockSize + Directory.size := rfl
  have room : Directory.firstBlock * blockSize + Directory.size ≤ volume.length := by
    rw [Volume.length_image? placed, Nat.add_mul, start]
    exact Nat.le_add_right ..
  obtain ⟨disk, on, large⟩ := size_of_holds holds
  have whole : min (disk.size - Directory.firstBlock * blockSize) Directory.size = Directory.size :=
    Nat.min_eq_right (by omega)
  refine ⟨directory, encoded, ?_⟩
  have read : s.readBlocks unit (UInt16.ofNat Directory.firstBlock) Directory.size = .ok directory :=
    (readAt_of_holds holds room).trans (congrArg Except.ok stands)
  rw [Storage.directory, on]
  dsimp only [Option.map_some, Option.getD_some]
  rw [whole, read]
  rfl

/-- A file is located at its first block, unless an earlier one has its name in the directory. -/
theorem locate_of_holds {label name : String} {before after : List (String × Bytes)} {code : Bytes}
    (holds : s.Holds unit volume)
    (placed : Volume.image? label (before ++ (name, code) :: after) = some volume)
    (few : (before ++ (name, code) :: after).length ≤ Directory.maxFiles) (ascii : Bytes.Ascii name)
    (short : name.length ≤ Directory.maxName)
    (others : ∀ file ∈ before, Bytes.sameName (Directory.shownName file.1) name = false) :
    ∃ extent, s.locate unit name = .ok extent ∧
      extent.firstBlock = UInt16.ofNat (Volume.firstFile + Volume.blocksOf before) := by
  obtain ⟨directory, encoded, read⟩ := directory_of_holds holds placed
  rw [Volume.extents_append, Volume.extents] at encoded
  have count : (Volume.extents Volume.firstFile (before ++ (name, code) :: after)).length ≤
      Directory.maxFiles := by
    rw [Volume.length_extents]
    exact few
  rw [Volume.extents_append, Volume.extents] at count
  -- The directory is searched in order, and no file before has a name that matches.
  have unlike : ∀ g ∈ Volume.extents Volume.firstFile before,
      Bytes.sameName (Directory.shownName g.name) name = false := by
    intro g hg
    have listed : g.name ∈ before.map (·.1) := by
      rw [← Volume.names_extents Volume.firstFile]
      exact List.mem_map_of_mem hg
    obtain ⟨file, member, same⟩ := List.mem_map.1 listed
    rw [← same]
    exact others file member
  have found := Directory.find?_encode? encoded count ascii short unlike
  have located (extent : FileExtent) (found : (Directory.parse directory).find? name = some extent) :
      s.locate unit name = .ok extent := by
    rw [locate, read, except_ok_bind, found]
  exact ⟨_, located _ found, rfl⟩

end Storage

namespace Machine

variable {m m' : Machine}

theorem orBoot_bind_of_ok {α β : Type} {e : Except StorageError α} {a : α} (h : e = .ok a)
    (f : α → Exec β) : (orBoot e >>= f) m = f a m := by
  rw [h]
  rfl

theorem findSystem_of_parsed {extent : FileExtent} {block0 : Bytes} {dictionary : Dictionary}
    (located : m.storage.locate unit name = .ok extent)
    (read : m.storage.readBlocks unit extent.firstBlock blockSize = .ok block0)
    (parsed : Dictionary.parse? block0 = some dictionary) :
    findSystem unit name m = .ok (extent.firstBlock, dictionary) m := by
  unfold findSystem
  rw [get_bind_apply]
  refine (orBoot_bind_of_ok located _).trans ((orBoot_bind_of_ok read _).trans ?_)
  simp only [parsed]
  rfl

/-- A boot finds the code file, and its dictionary tells what was put into it. -/
theorem findSystem_of_carries (carries : Carries volume order parts name)
    (holds : m.storage.Holds unit volume) :
    ∃ fileBlock entries,
      findSystem unit name m = .ok (fileBlock, { order := order, entries := entries }) m ∧
      Tells volume parts fileBlock entries := by
  obtain ⟨label, before, code, after, coded, placed, few, others⟩ := carries.placed
  obtain ⟨extent, located, first⟩ :=
    Storage.locate_of_holds holds placed few carries.ascii carries.short others
  have stands := Volume.file_stands placed
  have head : blockSize ≤ code.length := by
    rw [CodeFile.length_image? coded, Nat.add_mul, Nat.one_mul]
    exact Nat.le_add_right ..
  have filled : 0 < code.length := Nat.lt_of_lt_of_le (by decide) head
  have start : extent.firstBlock.toNat = Volume.firstFile + Volume.blocksOf before := by
    rw [first, UInt16.toNat_ofNat_of_lt' (carries.block_lt stands filled)]
  rw [← start] at stands
  have block0 := Storage.readBlocks_of_stands holds stands filled head
  exact ⟨_, _, findSystem_of_parsed located block0 (carries.parsed coded), carries.tells coded stands⟩

/-! ## Bringing segments in -/

/-- The table leads to the bytes of a segment on a volume. -/
def Finds (m : Machine) (unit : Word) (volume : Bytes) (part : CodePart) : Prop :=
  ∃ s, m.segments.get? part.number = some s ∧ s.unit = unit ∧ s.size.toNat = part.bytes.length ∧
    part.bytes <+: volume.drop (s.block.toNat * blockSize)

/-- A segment is in memory. -/
def Resident (m : Machine) (n : UInt8) : Prop :=
  (m.segments.get? n).any Segment.isResident = true

instance (m : Machine) (n : UInt8) : Decidable (m.Resident n) :=
  inferInstanceAs (Decidable (_ = _))

theorem resident_iff {n : UInt8} :
    m.Resident n ↔ ∃ s, m.segments.get? n = some s ∧ s.isResident = true :=
  Option.any_eq_true _ _

/-- A segment is in memory, with just its bytes where it lies. -/
def HasCode (m : Machine) (part : CodePart) : Prop :=
  ∃ s, m.segments.get? part.number = some s ∧ s.isResident = true ∧
    s.size.toNat = part.bytes.length ∧
    m.memory.readBytes s.codeBase part.bytes.length = .ok part.bytes

theorem Finds.keep (h : m.Finds unit volume part) (same : SameOrigins m m') : m'.Finds unit volume part := by
  obtain ⟨s, hs, own, size, stands⟩ := h
  have origin := same part.number
  rw [hs, Option.map_some] at origin
  obtain ⟨s', hs', eq⟩ := Option.map_eq_some_iff.1 origin
  simp only [Segment.origin, Prod.mk.injEq] at eq
  obtain ⟨sameUnit, sameBlock, sameSize⟩ := eq
  exact ⟨s', hs', sameUnit ▸ own, sameSize ▸ size, sameBlock ▸ stands⟩

/-- What is read for a segment are its bytes. -/
theorem fetchCode_of_stands {block size : Word} (holds : m.storage.Holds unit volume)
    (length : size.toNat = part.bytes.length) (positive : 0 < part.bytes.length)
    (stands : part.bytes <+: volume.drop (block.toNat * blockSize)) :
    m.fetchCode unit block size = .ok part.bytes := by
  unfold fetchCode
  rw [Storage.readBlocks_of_stands holds stands positive (Nat.le_of_eq length), length, List.take_length]

/-- The bytes of a piece of code can be read where it lies. -/
theorem readBytes_of_placed {p : Placement} {k : Part} {bytes : Bytes} (secure : m.Secure)
    (placed : m.segments.placement? k = some p) (start : Heap.start ≤ p.base)
    (length : bytes.length = p.size.toNat) (holds : m.memory.Holds p.base bytes) :
    m.memory.readBytes p.base bytes.length = .ok bytes := by
  have above : ∀ i < bytes.length, Heap.start ≤ p.base + UInt16.ofNat i := by
    intro i hi
    have covers := secure.layout.covers placed (length ▸ hi)
    exact UInt16.le_trans start (UInt16.le_iff_toNat_le.2 covers.1)
  refine Memory.readBytes_of_holds holds ?_ ?_
  · intro i hi zero
    have := above i hi
    rw [zero] at this
    exact absurd this (by decide)
  · intro i hi
    exact secure.layout.unmapped _ (above i hi)

/-- A segment that was brought in has the bytes that the table leads to. -/
theorem Finds.hasCode (leads : m.Finds unit volume part) (positive : 0 < part.bytes.length)
    (holds : m.storage.Holds unit volume) (secure : m.Secure) (grows : Grows m m')
    (same : SameOrigins m m') (absent : ¬ m.Resident part.number) (resident : m'.Resident part.number) :
    m'.HasCode part := by
  obtain ⟨s, hs, inside⟩ := resident_iff.1 resident
  obtain ⟨s', hs', own, size, stands⟩ := leads.keep same
  rw [hs] at hs'
  cases hs'
  have placed : m'.segments.placement? (.segment part.number) = some s.placement :=
    SegmentTable.placement?_segment.2 ⟨s, hs, inside, rfl⟩
  obtain ⟨secure', before⟩ := grows secure
  rcases before _ _ placed with ⟨old, -⟩ | ⟨-, start, bytes, fetched, found⟩
  · obtain ⟨s₀, hs₀, inside₀, -⟩ := SegmentTable.placement?_segment.1 old
    exact absurd (resident_iff.2 ⟨s₀, hs₀, inside₀⟩) absent
  · have fetch := fetchCode_of_stands holds size positive stands
    rw [← own] at fetch
    cases fetched.symm.trans fetch
    exact ⟨s, hs, inside, size, readBytes_of_placed secure' placed start size.symm found⟩

/-! ## Runs -/

/-- The machines that steps lead to, between which the host may change disks and console, and what it shows. -/
inductive Later (m₀ : Machine) : Machine → Prop
  | start : Later m₀ m₀
  | step {m : Machine} : Later m₀ m → Later m₀ (endState (step m))
  | host {m : Machine} (storage : Storage) (console : Console) :
      Later m₀ m → Later m₀ { m with storage := storage, console := console }
  | observe {m : Machine} (host : HostView) : Later m₀ m → Later m₀ (m.observe host)

/-- Along a run the machine stays secure, and the table leads where it led. -/
theorem Later.kept {m₀ : Machine} (h : Later m₀ m) (secure : m₀.Secure) :
    m.Secure ∧ SameOrigins m₀ m := by
  induction h with
  | start => exact ⟨secure, Std.Refl.refl _⟩
  | @step m _ ih =>
    obtain ⟨secure, same⟩ := ih
    exact ⟨(grows_step m secure).1, IsTrans.trans _ _ _ same (sameOrigins_step m)⟩
  | host storage console _ ih =>
    obtain ⟨secure, same⟩ := ih
    exact ⟨⟨secure.layout, secure.kernel, secure.based, secure.hosted⟩, same⟩
  | @observe m host _ ih =>
    obtain ⟨secure, same⟩ := ih
    exact ⟨(Settles.observe m host secure).1, same⟩

/-! ## The boot -/

theorem order_of_call {segment procedure : UInt8} {kind : CallKind} (secure : m.Secure)
    (h : call segment procedure m = .ok kind m') : m'.memory.order = m.memory.order := by
  rcases call_cases secure.regular secure.hosted.quietly h with
    ⟨e, m'', eq, -⟩ | ⟨-, kept, -⟩ | ⟨jtab, p, m'', -, -, eq, entered⟩
  · cases eq
  · exact kept.store.memory.order
  · cases eq
    exact entered.store.memory.order

/-- A boot makes a table that leads to all segments, in the byte order in which they were written. -/
theorem finds_of_boot {fresh m₀ : Machine} (hfresh : fresh.Fresh)
    (carries : Carries volume order parts name) (holds : fresh.storage.Holds unit volume)
    (booted : boot unit name fresh = .ok () m₀) :
    SystemFits fresh unit name ∧ m₀.memory.order = order ∧ ∀ part ∈ parts, m₀.Finds unit volume part := by
  obtain ⟨fileBlock, entries, found, tells⟩ := findSystem_of_carries carries holds
  have fits : SystemFits fresh unit name := by
    intro block dictionary found' e he
    cases found.symm.trans found'
    exact tells.small e he
  obtain ⟨m₁, kind, m₂, loading, loaded, called, rfl⟩ := loaded_of_boot hfresh fits booted
  obtain ⟨block, dictionary, memory, kernel, m₁', found', written, -, -, -, hk, load, ext⟩ :=
    loadSystem_stages loading
  cases found.symm.trans found'
  -- no second entry has number 0, so segment 0 is in one piece
  have single : kernel.extension = none := by
    obtain ⟨part, member, zero⟩ := List.mem_map.1 carries.kernel
    obtain ⟨e, described, -⟩ := tells.described carries.distinct member
    rw [zero, hk] at described
    cases described
    rfl
  have only : m₁ = m₁' := by
    rcases ext with ⟨-, eq⟩ | ⟨base, some_, -⟩
    · exact eq
    · exact absurd single some_
  subst only
  have unloaded := SegmentTable.unloaded_ofDictionary (d := { order := order, entries := entries })
    tells.small unit fileBlock
  have from_ := loadedFrom_loadSegment (m := prepared fresh memory _) unloaded.entries.numbered load
  have kept : SameOrigins (prepared fresh memory _) m₂.record :=
    IsTrans.trans _ _ _ (Keeps.of_ok load) (IsTrans.trans _ _ _ (Keeps.of_ok called) (sameOrigins_record m₂))
  refine ⟨fits, ?_, fun part member => ?_⟩
  · rw [record_eq]
    exact (order_of_call loaded.secure called).trans (from_.order.trans written)
  · obtain ⟨e, described, length, stands⟩ := tells.described carries.distinct member
    have led : (prepared fresh memory _).Finds unit volume part := ⟨_, described, rfl, length, stands⟩
    exact led.keep kept

/-- After a boot segment 0 is in memory as it was written. -/
theorem booted_of_carries {storage : Storage} {console : Console} {config : Config} {host : HostView}
    {limit : Option Nat} {m₀ : Machine} (carries : Carries volume order parts name)
    (holds : storage.Holds unit volume)
    (booted : boot unit name (create storage console config host limit) = .ok () m₀) :
    m₀.memory.order = order ∧ m₀.Secure ∧ (∀ part ∈ parts, m₀.Finds unit volume part) ∧
      ∀ part ∈ parts, part.number = 0 → m₀.HasCode part := by
  have hfresh := fresh_create storage console config host limit
  obtain ⟨fits, same, leads⟩ := finds_of_boot hfresh carries holds booted
  have imaged := imaged_of_boot hfresh fits booted
  refine ⟨same, imaged.secure, leads, ?_⟩
  intro part member zero
  obtain ⟨s, hs, own, size, stands⟩ := leads part member
  obtain ⟨s', hs', inside⟩ := imaged.secure.kernel
  rw [zero, hs'] at hs
  cases hs
  have placed : m₀.segments.placement? (.segment 0) = some s.placement :=
    SegmentTable.placement?_segment.2 ⟨s, hs', inside, rfl⟩
  have empty : (create storage console config host limit).segments.placement? (.segment 0) = none := by
    rw [hfresh.segments]
    exact SegmentTable.unloaded_empty.placement?_eq_none _
  -- what the boot read for segment 0 are its bytes
  have fetch := fetchCode_of_stands (m := create storage console config host limit) holds size
    (carries.sizes part member).1 stands
  have read : noted (create storage console config host limit) m₀ (fun _ => []) (.segment 0) =
      part.bytes := by
    rw [← own] at fetch
    simp only [noted, empty, placed]
    exact congrArg (fun fetched => fetched.toOption.getD []) fetch
  have found := imaged.holds _ _ placed
  rw [read] at found
  refine ⟨s, zero ▸ hs', inside, size, ?_⟩
  exact readBytes_of_placed imaged.secure placed (imaged.start _ _ placed) size.symm found

/-- A volume with a code file behind other files. -/
def volume? (order : ByteOrder) (segments : List SegmentSpec) (before : List (String × Bytes))
    (name : String) : Option Bytes :=
  (CodeFile.image? order (segments.map (CodePart.ofSpec order))).bind fun code =>
    Volume.image? "VOLUME" (before ++ [(name, code)])

/-- A machine with a volume on unit 4. -/
def mounted (volume : Bytes) : Machine :=
  create (Storage.empty.setDisk 4 (some (Disk.ofBytes volume true false))) default default default none

theorem holds_mounted (volume : Bytes) : (mounted volume).storage.Holds 4 volume :=
  @Storage.holds_attach 4 Storage.empty _ volume true false rfl

/-- The system file of a volume comes into memory as it was written: the machine takes its byte order,
segment 0 is there after the boot, and every other segment whenever it is brought in later, as long as
the unit then still holds the volume. -/
theorem system_file_in_memory {storage : Storage} {console : Console} {config : Config} {host : HostView}
    {limit : Option Nat} {m₀ : Machine} (carries : Carries volume order parts name)
    (holds : storage.Holds unit volume)
    (booted : boot unit name (create storage console config host limit) = .ok () m₀) :
    m₀.memory.order = order ∧
    (∀ part ∈ parts, part.number = 0 → m₀.HasCode part) ∧
    ∀ m, Later m₀ m → m.storage.Holds unit volume → ∀ part ∈ parts, ¬ m.Resident part.number →
      (∀ m', perform .getseg m = .ok () m' → m'.Resident part.number → m'.HasCode part) ∧
      ((endState (step m)).Resident part.number → (endState (step m)).HasCode part) := by
  obtain ⟨same, secure, leads, kernel⟩ := booted_of_carries carries holds booted
  refine ⟨same, kernel, ?_⟩
  intro m later still part member absent
  obtain ⟨secure', origins⟩ := later.kept secure
  have leads' := (leads part member).keep origins
  have positive := (carries.sizes part member).1
  constructor
  · intro m' performed resident
    have grows := grows_perform .getseg m
    have kept := (sameOrigins_perform .getseg).related m
    rw [performed] at grows kept
    exact leads'.hasCode positive still secure' grows kept absent resident
  · exact leads'.hasCode positive still secure' (grows_step m) (sameOrigins_step m) absent

/-- A big-endian system file behind another file. -/
def behindNotes : Bytes :=
  (volume? .big visiting [("NOTES", [1, 2, 3])] "SYSTEM").getD []

/-- The first instruction is over, and the volume is on its unit again. -/
def beforeOverlay : Machine :=
  { endState (step (endState (boot 4 "SYSTEM" (mounted behindNotes)))) with
    storage := (mounted behindNotes).storage, console := default }

theorem behindNotes_run :
    (volume? .big visiting [("NOTES", [1, 2, 3])] "SYSTEM").isSome = true ∧
      behindNotes.length < 65536 * blockSize ∧
      succeeded (boot 4 "SYSTEM" (mounted behindNotes)) = true ∧
      ¬ beforeOverlay.Resident 1 ∧ (endState (step beforeOverlay)).Resident 1 := by
  decide +kernel

theorem system_file_in_memory_behindNotes :
    ∃ m₀, boot 4 "SYSTEM" (mounted behindNotes) = .ok () m₀ ∧ m₀.memory.order = .big ∧
      Later m₀ beforeOverlay ∧ ¬ beforeOverlay.Resident 1 ∧
      ∃ part ∈ visiting.map (CodePart.ofSpec .big), part.number = 1 ∧
        (endState (step beforeOverlay)).HasCode part := by
  obtain ⟨made, small, booted, absent, resident⟩ := behindNotes_run
  have booted := eq_ok_of_succeeded booted
  obtain ⟨volume, found⟩ := Option.isSome_iff_exists.1 made
  have same : behindNotes = volume := by
    rw [behindNotes, found, Option.getD_some]
  obtain ⟨code, coded, placed⟩ := Option.bind_eq_some_iff.1 found
  -- The system file stands behind another one, so that its blocks do not begin where the files do.
  have carries : Carries behindNotes .big (visiting.map (CodePart.ofSpec .big)) "SYSTEM" :=
    { count := by decide
      sizes := by decide +kernel
      distinct := by decide
      kernel := by decide
      ascii := by decide
      short := by decide
      blocks := small
      placed := ⟨"VOLUME", [("NOTES", [1, 2, 3])], code, [], coded, same ▸ placed,
        Nat.le_of_ble_eq_true rfl, by decide +kernel⟩ }
  obtain ⟨order, -, loaded⟩ := system_file_in_memory carries (holds_mounted behindNotes) booted
  have later : Later _ beforeOverlay := .host (mounted behindNotes).storage default (.step .start)
  obtain ⟨part, member, number⟩ : ∃ part ∈ visiting.map (CodePart.ofSpec .big), part.number = 1 :=
    ⟨_, List.mem_cons_of_mem _ List.mem_cons_self, rfl⟩
  rw [← number] at absent resident
  refine ⟨_, booted, order, later, number ▸ absent, part, member, number, ?_⟩
  exact (loaded _ later (holds_mounted behindNotes) _ member absent).2 resident

/-! ## Names that a directory cuts short -/

/-- A main program that stops. -/
def stopping : List SegmentSpec :=
  [{ number := 0
     name := "KERNEL"
     procedures := [{ level := 1, body := some { code := [Opcode.xit.code] } }] }]

/-- A big-endian code file. -/
def longerFile : List (String × Bytes) :=
  [("SYSTEM.PASCAL.OLD", (CodeFile.image? .big (stopping.map (CodePart.ofSpec .big))).getD [])]

/-- A little-endian system file behind a big-endian file with a longer name. -/
def shadowed : Bytes :=
  (volume? .little stopping longerFile "SYSTEM.PASCAL.O").getD []

theorem shadowed_run :
    (volume? .little stopping longerFile "SYSTEM.PASCAL.O").isSome = true ∧
      shadowed.length < 65536 * blockSize ∧
      succeeded (boot 4 "SYSTEM.PASCAL.O" (mounted shadowed)) = true ∧
      (endState (boot 4 "SYSTEM.PASCAL.O" (mounted shadowed))).memory.order = .big := by
  decide +kernel

/-- Of two files whose names differ, but not in the fifteen bytes that the directory holds, the first is
started in place of the other. -/
theorem longer_name_shadows_system_file :
    ∃ code volume m,
      CodeFile.image? .little (stopping.map (CodePart.ofSpec .little)) = some code ∧
      Volume.image? "VOLUME" (longerFile ++ [("SYSTEM.PASCAL.O", code)]) = some volume ∧
      (∀ file ∈ longerFile, Bytes.sameName file.1 "SYSTEM.PASCAL.O" = false) ∧
      volume.length < 65536 * blockSize ∧ (mounted volume).storage.Holds 4 volume ∧
      boot 4 "SYSTEM.PASCAL.O" (mounted volume) = .ok () m ∧ m.memory.order ≠ .little := by
  obtain ⟨made, small, booted, order⟩ := shadowed_run
  obtain ⟨volume, found⟩ := Option.isSome_iff_exists.1 made
  have same : shadowed = volume := by
    rw [shadowed, found, Option.getD_some]
  obtain ⟨code, coded, placed⟩ := Option.bind_eq_some_iff.1 found
  have names : ∀ file ∈ longerFile, Bytes.sameName file.1 "SYSTEM.PASCAL.O" = false := by
    intro file member
    cases List.mem_singleton.1 member
    decide
  refine ⟨code, shadowed, _, coded, same ▸ placed, names, small, holds_mounted _,
    eq_ok_of_succeeded booted, ?_⟩
  rw [order]
  decide

end Machine
end PSystem
