import PSystem.Proofs.AlignedOperands
import PSystem.Proofs.Visits

/-!
# Even addresses

The program stack grows down from an even address.  Code takes an even number of bytes of it, but a
frame as many as the attribute table of its procedure says.  With frames of even size, everything in
the program stack lies at even addresses (`kept_even`); a frame of odd size makes the program stack
pointer odd (`load_addresses_even_iff`).
-/

namespace PSystem
namespace Machine

variable {above : Prop} {rule : Machine → Prop} {m m' : Machine} {active made new : List Call}

/-- The program stack pointer, the frames and the code lie at even addresses. -/
structure WordAligned (m : Machine) (active : List Call) : Prop where
  psp : m.psp.toNat % 2 = 0
  frames : ∀ c ∈ active, c.frame.toNat % 2 = 0
  bases : ∀ part p, m.segments.placement? part = some p → p.base.toNat % 2 = 0

/-- Code that is there in the next state was there before. -/
theorem WordAligned.bases_of_settles (h : m.WordAligned active) (secure : m.Secure)
    (settles : Settles m m') :
    ∀ part p, m'.segments.placement? part = some p → p.base.toNat % 2 = 0 := by
  intro part p placed
  exact h.bases part p ((settles secure).2 part p placed).1

theorem even_footprint {table : SegmentTable} {s : Segment} {n : UInt8} (entries : table.WellFormed)
    (hs : table.get? n = some s) : s.footprint.toNat % 2 = 0 := by
  have even : s.footprint.toNat = _ := toNat_evenSize (entries.sized n s hs).1
  omega

theorem WordAligned.load {n : UInt8} (h : m.WordAligned active) (secure : m.Secure)
    (loaded : loadSegment n m = .ok () m') : m'.WordAligned active := by
  rcases loadSegment_outcome secure.layout loaded with
    ⟨e, failed⟩ | ⟨s, hs, ⟨resident, eq⟩ | ⟨absent, base, bytes, memory, brought, eq⟩⟩
  · cases failed
  · cases eq
    exact ⟨h.psp, h.frames, h.bases_of_settles secure (settles_countUp hs resident)⟩
  · cases eq
    have number := secure.layout.entries.numbered n s hs
    have other := secure.other_of_absent hs absent
    have carved := brought.carved
    have psp := h.psp
    -- The segment is put below an even stack pointer and takes an even number of bytes.
    have whole := even_footprint secure.layout.entries hs
    have even : base.toNat % 2 = 0 := by omega
    refine ⟨even, h.frames, fun part p placed => ?_⟩
    change (m.segments.modify s.number (Segment.putAt base)).placement? part = some p at placed
    rw [number, CodeLayout.placement?_putAt base hs (fun kernel => absurd kernel other) absent]
      at placed
    split at placed
    · cases placed
      exact even
    · exact h.bases part p placed

theorem WordAligned.reclaimed (h : m.WordAligned active) (placed : Placed m active) :
    m.reclaimed.WordAligned active := by
  refine ⟨?_, h.frames, h.bases⟩
  show (min m.frameFloor m.residentFloor).toNat % 2 = 0
  rw [SegmentTable.min_eq_ite]
  split
  · -- the current frame is that of the innermost call
    unfold frameFloor
    split
    · rfl
    · rename_i some_
      have deep := placed.upright.active_of_mp some_
      rw [← placed.length] at deep
      obtain ⟨c, rest, rfl⟩ := List.exists_cons_of_length_pos deep
      have current : c.frame = m.mp := congrArg Activation.frame placed.current
      rw [← current]
      exact h.frames c List.mem_cons_self
  · rcases SegmentTable.residentFloor_eq_base (t := m.segments) programTop
        placed.upright.secure.layout.entries.single with top | ⟨part, p, found, eq⟩
    · rw [show m.residentFloor = programTop from top]
      rfl
    · rw [show m.residentFloor = p.base from eq.symm]
      exact h.bases part p found

theorem WordAligned.entered {segment : UInt8} {c : Call} (h : m.WordAligned active) (secure : m.Secure)
    (made : Made segment c m m') (even : c.size % 2 = 0) : m'.WordAligned (c :: active) := by
  have registers := made.entered.registers
  have frame : c.frame = m'.mp := congrArg Activation.frame made.activation
  have size : m'.mp.toNat + c.size = m.psp.toNat := made.entered.size
  have psp : m'.psp = m'.mp := by rw [registers]
  have old := h.psp
  have here : m'.mp.toNat % 2 = 0 := by omega
  refine ⟨psp ▸ here, fun d hd => ?_, h.bases_of_settles secure (settles_entered made.entered)⟩
  rcases List.mem_cons.1 hd with rfl | hd
  · rw [frame]
    exact here
  · exact h.frames d hd

/-- With frames of even size, everything stays at even addresses. -/
theorem kept_even :
    Kept above fun m active made => (∀ c ∈ made, c.size % 2 = 0) → m.WordAligned active where
  stays := by
    intro m m' active made _ stays h sizes
    obtain ⟨psp, frames, bases⟩ := h sizes
    exact ⟨stays.psp ▸ psp, frames, stays.segments ▸ bases⟩
  load placed loaded h sizes := (h sizes).load placed.upright.secure loaded
  release := by
    intro m n s active made placed other hs resident h sizes
    obtain ⟨psp, frames, -⟩ := h sizes
    exact ⟨psp, frames, (h sizes).bases_of_settles placed.upright.secure
      (settles_afterRelease hs resident other)⟩
  reclaim placed h sizes := (h sizes).reclaimed placed
  back := by
    intro m entry active made _ _ _ h sizes
    obtain ⟨psp, frames, bases⟩ := h sizes
    exact ⟨psp, fun c hc => frames c (List.mem_of_mem_tail hc), bases⟩
  made := by
    intro m m' segment c active made placed called h sizes
    exact (h fun d hd => sizes d (List.mem_cons_of_mem c hd)).entered placed.upright.secure called
      (sizes c List.mem_cons_self)

/-- A system is loaded to even addresses. -/
theorem even_of_loadSystem {unit : Word} {file : String} {fresh loaded : Machine}
    (hfresh : fresh.Fresh) (fits : SystemFits fresh unit file)
    (loading : loadSystem unit file fresh = .ok () loaded) : loaded.WordAligned [] := by
  obtain ⟨block, dictionary, kernel, base, unloaded, hk, top, pieces⟩ :=
    pieces_of_loadSystem hfresh fits loading
  have whole := even_footprint unloaded.entries hk
  have even : base.toNat % 2 = 0 := by omega
  have absent : kernel.isResident = false := by simp [Segment.isResident, unloaded.unused 0 kernel hk]
  have unplaced : kernel.extensionPlacement? = none := by
    cases hx : kernel.extension with
    | none => simp [Segment.extensionPlacement?, hx]
    | some x => simp [Segment.extensionPlacement?, hx, unloaded.unplaced 0 kernel hk x hx]
  -- segment 0 is the only one with code in memory
  have bases (part : Part) (p : Placement) (placed : ((SegmentTable.ofDictionary dictionary unit
      block).modify 0 (Segment.putAt base)).placement? part = some p) : p.base.toNat % 2 = 0 := by
    rw [CodeLayout.placement?_putAt base hk (fun _ => unplaced) absent] at placed
    split at placed
    · cases placed
      exact even
    · rw [unloaded.placement?_eq_none] at placed
      cases placed
  rcases pieces with ⟨psp, table⟩ | ⟨x, extension, hx, carved, psp, table⟩
  · exact ⟨psp ▸ even, List.forall_mem_nil _, table ▸ bases⟩
  · have size := toNat_evenSize ((unloaded.entries.sized 0 kernel hk).2 x hx)
    have even' : extension.toNat % 2 = 0 := by omega
    refine ⟨psp ▸ even', List.forall_mem_nil _, fun part p placed => ?_⟩
    have entry := SegmentTable.get?_modify_self (f := Segment.putAt base) hk
    rw [table, placement?_placeExtension entry rfl] at placed
    split at placed
    · cases placed
      exact even'
    · exact bases part p placed

/-- If everything is at even addresses, the program stack pointer stays even exactly if the calls that
are made have frames of even size. -/
theorem WordAligned.passes_iff (h : m.WordAligned active) (placed : Placed m active)
    (passes : Passes above m m' new) :
    m'.psp.toNat % 2 = 0 ↔ ∀ c ∈ new, c.size % 2 = 0 := by
  have start : (∀ c ∈ ([] : List Call), c.size % 2 = 0) → m.WordAligned active := fun _ => h
  cases passes with
  | goesOn shifts =>
    have kept := (kept_even.shifts placed shifts start).2.2 (List.forall_mem_nil _)
    exact iff_of_true kept.psp (List.forall_mem_nil _)
  | @enters m₁ m₂ segment c shifts entered noted =>
    have kept := (kept_even.shifts placed shifts start).2.2 (List.forall_mem_nil _)
    have size : m₂.mp.toNat + c.size = m₁.psp.toNat := entered.entered.size
    have old := kept.psp
    have psp : m'.psp = m₂.mp := by
      rw [show m' = _ from noted, entered.entered.registers]
    rw [psp, List.forall_mem_singleton]
    omega

/-! ## Runs -/

theorem Visits.wordAligned (run : Visits rule m active made) :
    Placed m active ∧ ((∀ c ∈ made, c.size % 2 = 0) → m.WordAligned active) :=
  run.kept (kept_even : Kept True _)
    (fun hfresh fits loading _ => even_of_loadSystem hfresh fits loading) fun _ _ _ => trivial

theorem Visits.even_of_sizes (run : Visits rule m active made) (sizes : ∀ c ∈ made, c.size % 2 = 0) :
    Visits (fun m => rule m ∧ m.psp.toNat % 2 = 0) m active made := by
  induction run with
  | boot fits loading booted => exact .boot fits loading booted
  | step run headers ruled ih =>
    have earlier := fun c hc => sizes c (List.mem_append_right _ hc)
    exact .step (ih earlier) headers ⟨ruled, (run.wordAligned.2 earlier).psp⟩
  | observe host run ih => exact .observe host (ih sizes)

theorem Visits.sizes_of_even (run : Visits (fun m => rule m ∧ m.psp.toNat % 2 = 0) m active made)
    (even : m.psp.toNat % 2 = 0) : ∀ c ∈ made, c.size % 2 = 0 := by
  induction run with
  | @boot storage console config host limit unit file loaded m fits loading booted =>
    have hfresh := fresh_create storage console config host limit
    obtain ⟨placed, passes⟩ : Placed loaded [] ∧ Passes True loaded m _ :=
      passes_of_boot hfresh fits loading booted
    exact ((even_of_loadSystem hfresh fits loading).passes_iff placed passes).1 even
  | step run headers ruled ih =>
    have earlier := ih ruled.2
    obtain ⟨placed, aligned⟩ := run.wordAligned
    have passes := placed.upright.passes_step headers
    have later := ((aligned earlier).passes_iff placed passes).1 even
    exact List.forall_mem_append.2 ⟨later, earlier⟩
  | observe host run ih => exact ih even

/-- The program stack pointer is even all along a run exactly if every frame that was made on the way
has an even size.  Then all frames and all code lie at even addresses, and the words of assembled
instructions are read as they were assembled. -/
theorem load_addresses_even_iff (run : Visits rule m active made) :
    ((∀ c ∈ made, c.size % 2 = 0) ↔
      Visits (fun m => rule m ∧ m.psp.toNat % 2 = 0) m active made ∧ m.psp.toNat % 2 = 0) ∧
    ((∀ c ∈ made, c.size % 2 = 0) → m.WordAligned active ∧
      ∀ part p, m.segments.placement? part = some p →
      ∀ (s : SegmentSpec) (k : Nat) (q : ProcedureSpec) (body : Body) (directives : List Directive),
        m.Executes s p.base.toNat k → s.procedures[k]? = some q → q.body = some body →
        Body.assemble m.memory.order directives = .ok body → m.ReadsWords directives) := by
  obtain ⟨-, aligned⟩ := run.wordAligned
  refine ⟨⟨fun sizes => ⟨run.even_of_sizes sizes, (aligned sizes).psp⟩,
    fun ⟨strict, even⟩ => strict.sizes_of_even even⟩, fun sizes => ⟨aligned sizes, ?_⟩⟩
  intro part p placed s k q body directives executes hq hbody assembled
  exact executes.readsWords hq hbody assembled ((aligned sizes).bases part p placed)

/-! ## A word in an overlay -/

/-- A procedure that pushes a word behind a byte of padding. -/
def pushing : List Directive :=
  Directive.ldci 0x1234 ++ [.op Opcode.rnp.code, .byte 0]

/-- Its body. -/
def pushingBody : Body where
  code := [Opcode.ldci.code, 0, 0x34, 0x12, Opcode.rnp.code, 0]
  exit := 4

/-- A segment with the procedure. -/
def pushingSegment : SegmentSpec where
  number := 1
  name := "OVERLAY"
  procedures := [{ level := 1, body := some pushingBody }]

/-- The segment, and a main program with some bytes of data that calls it. -/
def overlaid (dataBytes : Word) : List SegmentSpec :=
  [{ number := 0
     name := "KERNEL"
     procedures :=
       [{ level := 1
          dataBytes := dataBytes
          body := some { code := [Opcode.cxp.code, 1, 1, Opcode.xit.code] } }] },
   pushingSegment]

/-- The procedure when it is about to push the word. -/
def overlaidVisit (dataBytes : Word) : Machine × List Call × List Call :=
  let calls := (callMade 0 1 (unstarted (overlaid dataBytes))).toList
  visit 1 (started (overlaid dataBytes)) calls calls

/-- The machine executes the procedure from its start, in the segment with its code at an address. -/
def Pushes (m : Machine) (base : Address) : Prop :=
  m.halted = false ∧ m.memory.order = .little ∧ m.ipc = 0 ∧
    (m.segments.placement? (.segment 1)).map Placement.base = some base ∧
    m.memory.Reads base.toNat (pushingSegment.image .little) ∧
    m.jtab = UInt16.ofNat (base.toNat + 14) ∧
    AttributeTable.entry m.memory m.jtab = .ok m.ipcBase

instance (m : Machine) (base : Address) : Decidable (m.Pushes base) :=
  inferInstanceAs (Decidable (_ ∧ _ ∧ _ ∧ _ ∧ _ ∧ _ ∧ _))

theorem Pushes.executes {base : Address} (h : m.Pushes base) (fits : base.toNat + 20 ≤ 0x10000) :
    m.Executes pushingSegment base.toNat 0 := by
  obtain ⟨running, order, -, -, code, table, entry⟩ := h
  constructor
  · exact running
  · rw [order]
    exact fits
  · rw [order]
    exact code
  · rw [order]
    exact ⟨14, by decide, table⟩
  · exact entry

theorem visits_overlaid {dataBytes : Word} (starts : starts (overlaid dataBytes) = true)
    (kept : keepsTo (fun _ => true) 1 (started (overlaid dataBytes)) = true) :
    Visits (fun _ => True) (overlaidVisit dataBytes).1 (overlaidVisit dataBytes).2.1
      (overlaidVisit dataBytes).2.2 :=
  (visits_started _ starts).steps (fun _ _ => trivial) kept

theorem overlaidVisit_run :
    starts (overlaid 2) = true ∧ keepsTo (fun _ => true) 1 (started (overlaid 2)) = true ∧
    (overlaidVisit 2).2.1.length = 2 ∧ (∀ c ∈ (overlaidVisit 2).2.2, c.size % 2 = 0) ∧
    (overlaidVisit 2).1.Pushes 0xEFCA := by
  decide +kernel

/-- With two bytes of data in the main program, the procedure pushes the word. -/
theorem load_addresses_even_overlaid :
    Body.assemble .little pushing = .ok pushingBody ∧
      ∃ m active made, Visits (fun _ => True) m active made ∧ active.length = 2 ∧
        (∀ c ∈ made, c.size % 2 = 0) ∧ m.WordAligned active ∧
        m.Executes pushingSegment 0xEFCA 0 ∧
        executeNext m.prepare = (liftM (push 0x1234) : Exec Unit)
          (m.prepare.movedTo (m.ipcBase + 4)) := by
  have assembled : Body.assemble .little pushing = .ok pushingBody := by decide
  obtain ⟨starts, kept, two, sizes, pushes⟩ := overlaidVisit_run
  have run := visits_overlaid starts kept
  have executes := pushes.executes (by decide)
  obtain ⟨-, order, here, there, -⟩ := pushes
  obtain ⟨p, placed, base⟩ := Option.map_eq_some_iff.1 there
  obtain ⟨aligned, reads⟩ := (load_addresses_even_iff run).2 sizes
  have words := reads _ p placed pushingSegment 0 { level := 1, body := some pushingBody } pushingBody
    pushing (base ▸ executes) rfl rfl (order ▸ assembled)
  have pushed := words.ldci [] 0x1234 [.op Opcode.rnp.code, .byte 0] rfl (by rw [order, here]; rfl)
  rw [order] at pushed
  exact ⟨assembled, _, _, _, run, two, sizes, aligned, executes, pushed⟩

theorem oddVisit_run :
    starts (overlaid 1) = true ∧ keepsTo (fun _ => true) 1 (started (overlaid 1)) = true ∧
    (overlaidVisit 1).1.psp.toNat % 2 = 1 ∧ (overlaidVisit 1).1.Pushes 0xEFCB ∧
    succeeded (step (overlaidVisit 1).1) = true ∧
    (endState (step (overlaidVisit 1).1)).top? = some 0x3400 := by
  decide +kernel

/-- With one byte of data in the main program, its frame and the segment below it lie at odd addresses,
and the procedure pushes the padding and half of the word. -/
theorem odd_frame_shifts_words :
    Body.assemble .little pushing = .ok pushingBody ∧
      ∃ m active made, Visits (fun _ => True) m active made ∧ m.psp.toNat % 2 = 1 ∧
        (∃ p, m.segments.placement? (.segment 1) = some p ∧ p.base = 0xEFCB) ∧
        m.Executes pushingSegment 0xEFCB 0 ∧ m.ipc = 0 ∧ succeeded (step m) = true ∧
        (endState (step m)).top? = some 0x3400 := by
  obtain ⟨starts, kept, odd, pushes, stepped, top⟩ := oddVisit_run
  have executes := pushes.executes (by decide)
  obtain ⟨-, -, here, placed, -⟩ := pushes
  exact ⟨by decide, _, _, _, visits_overlaid starts kept, odd, Option.map_eq_some_iff.1 placed,
    executes, here, stepped, top⟩

end Machine
end PSystem
