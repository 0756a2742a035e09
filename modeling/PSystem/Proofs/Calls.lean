import PSystem.Machine.Call
import PSystem.Proofs.Overlay

/-!
# What calls do

`Entered` says everything about the machine after a frame was made: the registers, the words of the
header, and that no memory changed outside of the space between heap and program stack and of the
evaluation stack.  A call that fails changes nothing but these cells and the stack pointer
(`Confined`).
-/

namespace PSystem

namespace Memory

theorem length_of_mapM {ε α β : Type} {f : α → Except ε β} {xs : List α} {ys : List β}
    (h : xs.mapM f = .ok ys) : ys.length = xs.length := by
  induction xs generalizing ys with
  | nil =>
    cases h
    rfl
  | cons x xs ih =>
    rw [List.mapM_cons] at h
    obtain ⟨y, -, h⟩ := except_bind_eq_ok.1 h
    obtain ⟨rest, hr, h⟩ := except_bind_eq_ok.1 h
    cases h
    simp [ih hr]

theorem length_of_readBytes {m : Memory} {a : Address} {n : Nat} {bytes : Bytes}
    (h : m.readBytes a n = .ok bytes) : bytes.length = n := by
  simpa using length_of_mapM h

end Memory

/-- What the attribute table of a procedure says. -/
structure Attributes where
  level : Int
  parameterBytes : Word
  dataBytes : Word
  entry : Address
  deriving DecidableEq, Repr

/-- The attribute table at an address says this. -/
structure Attributes.At (p : Attributes) (m : Memory) (jtab : Address) : Prop where
  level : AttributeTable.level m jtab = .ok p.level
  parameterBytes : AttributeTable.parameterBytes m jtab = .ok p.parameterBytes
  dataBytes : AttributeTable.dataBytes m jtab = .ok p.dataBytes
  entry : AttributeTable.entry m jtab = .ok p.entry

/-- A segment whose latest base procedure has a frame at an address. -/
def Segment.withDataBase (frame : Address) (s : Segment) : Segment :=
  { s with dataBase := frame }

namespace Machine

variable {α : Type} {S : Address → Prop} {m m' : Machine} {e : Fault} {frame jtab : Address}
  {segment procedure : UInt8} {size : Nat} {link : Address} {bytes : Word}

/-! ## Work within bounds -/

/-- Only the store changed: its cells in `S`, and the stack pointer within its bounds. -/
structure Confined (S : Address → Prop) (m m' : Machine) : Prop where
  store : Store.Quiet m.store m'.store
  off : Memory.AgreesOff S m.memory m'.memory
  rest : m' = { m with store := m'.store }

instance (S : Address → Prop) : IsPreorder Machine (Confined S) where
  refl _ := ⟨Std.Refl.refl _, fun _ _ => rfl, rfl⟩
  trans m m' m'' h h' := by
    refine ⟨IsTrans.trans _ _ _ h.store h'.store,
      IsTrans.trans (r := Memory.AgreesOff S) _ _ _ h.off h'.off, ?_⟩
    have rest := h'.rest
    rw [h.rest] at rest
    exact rest

theorem Confined.quiet (h : Confined S m m') : Quiet m m' where
  store := h.store
  heap := by
    rw [h.rest]
    exact id
  rest := by
    rw [h.rest]

/-- The machine with another evaluation stack pointer. -/
def withPointer (m : Machine) (sp : Address) : Machine :=
  { m with store := { m.store with sp := sp } }

theorem confined_onMemory (x : Run Memory α) [guarded : Keeps Memory.Guarded x]
    (off : Keeps (Memory.AgreesOff S) x) : Keeps (Confined S) (onMemory x) := by
  constructor
  intro m
  unfold onMemory onStore Store.onMemory
  have g := guarded.related m.store.memory
  have o := off.related m.store.memory
  cases h : x m.store.memory with
  | ok a memory =>
    rw [h] at g o
    exact ⟨⟨g, id⟩, o, rfl⟩
  | error e memory =>
    rw [h] at g o
    exact ⟨⟨g, id⟩, o, rfl⟩

theorem confined_push (stack : ∀ a, Store.limit ≤ a → S a) (w : Word) :
    Keeps (Confined S) (push w) := by
  constructor
  intro m
  unfold push onStore
  have quiet := (Store.quiet_of_works (Store.push w)).related m.store
  have upper := (Store.upper_push w).related m.store
  cases h : Store.push w m.store with
  | ok u store =>
    rw [h] at quiet upper
    exact ⟨quiet, upper.mono stack, rfl⟩
  | error e store =>
    rw [h] at quiet upper
    exact ⟨quiet, upper.mono stack, rfl⟩

/-! ## The space for a frame -/

theorem toNat_add_ofNat {a : Address} {i : Nat} (h : a.toNat + i < 2 ^ 16) :
    (a + UInt16.ofNat i).toNat = a.toNat + i := by
  rw [UInt16.toNat_add, UInt16.toNat_ofNat']
  omega

/-- The cells that a call may write to. -/
def CallRegion (m : Machine) (a : Address) : Prop :=
  m.heap.np ≤ a ∧ a < m.psp ∨ Store.limit ≤ a

theorem carveFrame_ok (h : m.carveFrame size = .ok frame) :
    frame.toNat + size = m.psp.toNat ∧ m.heap.np ≤ frame := by
  unfold carveFrame at h
  split at h
  · rename_i fits
    cases h
    have hp := m.psp.toNat_lt
    have small : m.psp.toNat - size < UInt16.size := by
      change _ < 2 ^ 16
      omega
    rw [UInt16.le_iff_toNat_le, UInt16.toNat_ofNat_of_lt' small]
    omega
  · cases h

/-- The frame lies between the heap and the program stack as it was. -/
theorem between_of_carved (carved : frame.toNat + size = m.psp.toNat) (room : m.heap.np ≤ frame)
    {i : Nat} (hi : i < size) :
    m.heap.np ≤ frame + UInt16.ofNat i ∧ frame + UInt16.ofNat i < m.psp := by
  have hp := m.psp.toNat_lt
  rw [UInt16.le_iff_toNat_le] at room ⊢
  rw [UInt16.lt_iff_toNat_lt, toNat_add_ofNat (by omega)]
  omega

theorem callRegion_of_carved (carved : frame.toNat + size = m.psp.toNat) (room : m.heap.np ≤ frame)
    {i : Nat} (hi : i < size) : CallRegion m (frame + UInt16.ofNat i) :=
  .inl (between_of_carved carved room hi)

/-! ## Parameters -/

theorem word_one (frame : Address) : Frame.word frame 1 = frame + 14 := by
  simp [Frame.word, Frame.headerSize]

/-- Words that are on the stack end at its bottom at the latest. -/
theorem toNat_drop {s : Store} (enough : bytes.toNat ≤ s.depth * 2) :
    (s.sp + bytes).toNat = s.sp.toNat + bytes.toNat ∧
      (s.sp.toNat + bytes.toNat ≤ 0xFFF0 ∨ bytes.toNat = 0) := by
  have hs := s.sp.toNat_lt
  rw [UInt16.toNat_add]
  unfold Store.depth Word.monus at enough
  split at enough
  · rename_i within
    rw [UInt16.le_iff_toNat_le] at within
    rw [UInt16.toNat_sub_of_le _ _ within] at enough
    change s.sp.toNat ≤ 0xFFF0 at within
    change _ ≤ (0xFFF0 - s.sp.toNat) / 2 * 2 at enough
    omega
  · have none : bytes.toNat = 0 := by simpa using enough
    omega

/-- Dropping words that are on the stack stays in bounds. -/
theorem limit_le_drop {s : Store} (low : Store.limit ≤ s.sp) (enough : bytes.toNat ≤ s.depth * 2) :
    Store.limit ≤ s.sp + bytes := by
  obtain ⟨sum, -⟩ := toNat_drop enough
  rw [UInt16.le_iff_toNat_le] at low ⊢
  omega

/-- How moving the parameters ends. -/
theorem moveParameters_cases (inside : ∀ i < bytes.toNat, S (frame + 14 + UInt16.ofNat i))
    {r : EStateM.Result Fault Machine Unit}
    (h : moveParameters segment procedure frame bytes m = r) :
    (∃ e m', r = .error e m' ∧ Confined S m m') ∨
    ∃ m', r = .ok () m' ∧ Confined S m m' ∧ m'.store.sp = m.store.sp + bytes ∧
      bytes.toNat ≤ m.store.depth * 2 := by
  unfold moveParameters at h
  rw [get_bind_apply] at h
  dsimp only at h
  split at h
  · exact .inl ⟨_, _, h.symm, Std.Refl.refl m⟩
  rename_i enough
  rcases reading_bind_cases h with ⟨e, -, hr⟩ | ⟨parameters, hp, h⟩
  · exact .inl ⟨e, m, hr, Std.Refl.refl m⟩
  -- as many bytes are written as were read
  have length := Memory.length_of_readBytes hp
  have confined : Keeps (Confined S)
      (onMemory (Memory.writeBytes (Frame.word frame 1) parameters)) := by
    apply confined_onMemory
    apply Memory.keeps_writeBytes_off
    intro i hi
    rw [word_one]
    exact inside i (length ▸ hi)
  rcases bind_cases h with ⟨e, m', hw, hr⟩ | ⟨u, m₁, hw, h⟩
  · exact .inl ⟨e, m', hr, confined.of_error hw⟩
  · obtain ⟨memory, -, rfl⟩ := onMemory_eq_ok.1 hw
    have written := confined.of_ok hw
    have dropped : Confined S (m.withMemory memory) (m.withMemory memory |>.withPointer
        (m.store.sp + bytes)) := by
      refine ⟨⟨Std.Refl.refl _, fun low => ?_⟩, fun _ _ => rfl, rfl⟩
      exact limit_le_drop low (by omega)
    exact .inr ⟨_, h.symm, IsTrans.trans _ _ _ written dropped, rfl, by omega⟩

/-! ## The header -/

/-- The words of a header are written side by side. -/
theorem writeHeader_eq (frame link : Address) (m : Machine) :
    writeHeader frame link m = onMemory (Memory.writeWords frame
      [m.psp, link, m.mp, m.jtab, m.seg.toUInt16, m.ipc, m.store.sp]) m := by
  have next (a b : Word) : frame + a + b = frame + (a + b) := UInt16.add_assoc frame a b
  have zero : frame + Frame.savedPsp = frame := UInt16.add_zero frame
  unfold writeHeader
  rw [get_bind_apply]
  simp only [Memory.writeWords, next, zero, bind_pure_unit]
  rfl

/-- The words of the header of a frame. -/
structure Header (m : Memory) (frame : Address) (psp link mp jtab seg ipc sp : Word) : Prop where
  savedPsp : m.peekWord (frame + Frame.savedPsp) = psp
  staticLink : m.peekWord (frame + Frame.staticLink) = link
  dynamicLink : m.peekWord (frame + Frame.dynamicLink) = mp
  savedJtab : m.peekWord (frame + Frame.savedJtab) = jtab
  savedSeg : m.peekWord (frame + Frame.savedSeg) = seg
  savedIpc : m.peekWord (frame + Frame.savedIpc) = ipc
  savedSp : m.peekWord (frame + Frame.savedSp) = sp

/-- How writing a header ends. -/
theorem writeHeader_cases (inside : ∀ i < 14, S (frame + UInt16.ofNat i))
    (unmapped : ∀ i < 14, (m.memory.cell (frame + UInt16.ofNat i)).mapped = false)
    {r : EStateM.Result Fault Machine Unit} (h : writeHeader frame link m = r) :
    (∃ e m', r = .error e m' ∧ Confined S m m') ∨
    ∃ m', r = .ok () m' ∧ Confined S m m' ∧ m'.store.sp = m.store.sp ∧
      Header m'.memory frame m.psp link m.mp m.jtab m.seg.toUInt16 m.ipc m.store.sp := by
  rw [writeHeader_eq] at h
  have confined : Keeps (Confined S) (onMemory (Memory.writeWords frame
      [m.psp, link, m.mp, m.jtab, m.seg.toUInt16, m.ipc, m.store.sp])) :=
    confined_onMemory _ (Memory.keeps_writeWords_off inside)
  cases r with
  | error e m' => exact .inl ⟨e, m', rfl, confined.of_error h⟩
  | ok u m' =>
    have kept := confined.of_ok h
    obtain ⟨memory, written, rfl⟩ := onMemory_eq_ok.1 h
    have words := Memory.peekWord_of_writeWords written unmapped (by simp)
    exact .inr ⟨_, rfl, kept, rfl,
      { savedPsp := words 0 (by simp), staticLink := words 1 (by simp)
        dynamicLink := words 2 (by simp), savedJtab := words 3 (by simp)
        savedSeg := words 4 (by simp), savedIpc := words 5 (by simp)
        savedSp := words 6 (by simp) }⟩

/-- How a push ends on unmapped cells. -/
theorem push_cases {w : Word} (stack : ∀ a, Store.limit ≤ a → S a)
    (unmapped : ∀ a, Store.limit ≤ a → (m.memory.cell a).mapped = false)
    {r : EStateM.Result Fault Machine Unit} (h : push w m = r) :
    (∃ e m', r = .error e m' ∧ Confined S m m') ∨
    ∃ m', r = .ok () m' ∧ Confined S m m' ∧ m'.store.sp = m.store.sp - 2 ∧
      Store.limit ≤ m'.store.sp ∧ Store.limit ≤ m'.store.sp + 1 ∧
      m'.memory.peekWord m'.store.sp = w := by
  have confined := confined_push stack w
  cases r with
  | error e m' => exact .inl ⟨e, m', rfl, confined.of_error h⟩
  | ok u m' =>
    have kept := confined.of_ok h
    refine .inr ⟨m', rfl, kept, ?_⟩
    unfold push onStore Store.push at h
    by_cases room : m.store.sp < Store.limit + 2
    · simp [room] at h
    · have low := Store.limit_le_sub_two room
      have high := Store.limit_le_sub_one room
      simp only [room, if_false] at h
      unfold Store.onMemory at h
      cases hw : Memory.writeWord (m.store.sp - 2) w m.store.memory with
      | error e memory => simp [hw] at h
      | ok u memory =>
        simp only [hw] at h
        cases h
        exact ⟨rfl, low, high, Memory.peekWord_of_writeWord (unmapped _ low) (unmapped _ high) hw⟩

/-! ## Frames -/

/-- What calls rely on: the heap and what lies above it is memory of its own, without devices. -/
structure Regular (m : Machine) : Prop where
  heap : Heap.start ≤ m.heap.np
  unmapped : ∀ a, Heap.start ≤ a → (m.memory.cell a).mapped = false
  top : m.psp ≤ programTop

/-- The machine after a frame was made for a procedure and the procedure was entered. -/
structure Entered (p : Attributes) (segment : UInt8) (jtab : Address) (m m' : Machine) : Prop where
  attributes : p.At m.memory jtab
  size : m'.mp.toNat + (14 + p.parameterBytes.toNat + p.dataBytes.toNat) = m.psp.toNat
  room : m.heap.np ≤ m'.mp
  enough : p.parameterBytes.toNat ≤ m.store.depth * 2
  registers : m' =
    { m with
      store := m'.store
      segments := if p.level ≤ 0 then m.segments.modify segment (Segment.withDataBase m'.mp)
        else m.segments
      psp := m'.mp, mp := m'.mp, base := if p.level ≤ 0 then m'.mp else m.base
      seg := segment, jtab := jtab, ipcBase := p.entry, ipc := 0, depth := m.depth + 1 }
  store : Store.Quiet m.store m'.store
  off : Memory.AgreesOff (CallRegion m) m.memory m'.memory
  sp : m'.store.sp =
    if p.level ≤ 0 then m.store.sp + p.parameterBytes - 2 else m.store.sp + p.parameterBytes
  header : ∃ link, m.staticLinkFor p.level = .ok link ∧
    Header m'.memory m'.mp m.psp link m.mp m.jtab m.seg.toUInt16 m.ipc m'.store.sp
  /-- A base procedure finds the base register of its caller on top of the stack. -/
  savedBase : p.level ≤ 0 → Store.limit ≤ m'.store.sp ∧ Store.limit ≤ m'.store.sp + 1 ∧
    m'.memory.peekWord m'.store.sp = m.base

/-! ## Entering a procedure -/

/-- Reads the attribute table of a procedure. -/
def readAttributes (jtab : Address) : Run Machine Attributes := do
  let level ← reading (AttributeTable.level · jtab)
  let parameterBytes ← reading (AttributeTable.parameterBytes · jtab)
  let dataBytes ← reading (AttributeTable.dataBytes · jtab)
  let entry ← reading (AttributeTable.entry · jtab)
  return { level, parameterBytes, dataBytes, entry }

/-- What a call does before it settles in the frame that it makes. -/
def makeFrame (segment procedure : UInt8) (p : Attributes) : Run Machine Address := do
  let link ← orFault ((← get).staticLinkFor p.level)
  let size := Frame.headerSize.toNat + p.parameterBytes.toNat + p.dataBytes.toNat
  let frame ← orFault ((← get).carveFrame size)
  moveParameters segment procedure frame p.parameterBytes
  if p.level ≤ 0 then push (← get).base
  writeHeader frame link
  return frame

/-- What is left to do once the header is written. -/
def settle (segment : UInt8) (jtab : Address) (p : Attributes) (frame : Address) :
    Run Machine Unit := do
  if p.level ≤ 0 then
    modify fun m => { m with base := frame }
    modifySegment segment fun s => { s with dataBase := frame }
  modify fun m =>
    { m with
      psp := frame, mp := frame, seg := segment, jtab := jtab, ipcBase := p.entry, ipc := 0
      depth := m.depth + 1 }
  let m ← get
  if m.heap.collides m.psp then throw .stackOverflow

/-- The frame is above the heap, so that entering it is never too much. -/
theorem settle_eq (p : Attributes) (room : m.heap.np ≤ frame) :
    settle segment jtab p frame m = .ok ()
      { m with
        segments := if p.level ≤ 0 then m.segments.modify segment (Segment.withDataBase frame)
          else m.segments
        psp := frame, mp := frame, base := if p.level ≤ 0 then frame else m.base
        seg := segment, jtab := jtab, ipcBase := p.entry, ipc := 0, depth := m.depth + 1 } := by
  -- the last check of a call repeats the one that carved the frame
  have clear : m.heap.collides frame = false := by
    simpa [Heap.collides] using room
  unfold settle
  by_cases base : p.level ≤ 0
  · simp only [base, if_true, modifySegment, modify_bind_apply, get_bind_apply, clear,
      Bool.false_eq_true, if_false]
    rfl
  · simp only [base, if_false, modify_bind_apply, get_bind_apply, clear, Bool.false_eq_true]
    rfl

theorem enter_eq : enter segment procedure jtab =
    (readAttributes jtab >>= fun p => makeFrame segment procedure p >>= fun frame =>
      settle segment jtab p frame) := by
  unfold enter readAttributes makeFrame settle
  simp only [bind_assoc, pure_bind]
  refine bind_congr fun level => bind_congr fun parameterBytes => bind_congr fun dataBytes =>
    bind_congr fun entry => bind_congr fun _ => bind_congr fun link => bind_congr fun _ =>
    bind_congr fun frame => bind_congr fun _ => ?_
  -- both branch on the level again after the header was written
  by_cases base : level ≤ 0
  · simp only [base, if_true, bind_assoc, pure_bind]
  · simp only [base, if_false, bind_assoc, pure_bind]

section Keeps

variable {R : Machine → Machine → Prop} [IsPreorder Machine R]

instance keeps_readAttributes (jtab : Address) : Keeps R (readAttributes jtab) := by
  unfold readAttributes
  infer_instance

instance keeps_makeFrame (segment procedure : UInt8) (p : Attributes)
    [∀ frame bytes, Keeps R (moveParameters segment procedure frame bytes)]
    [∀ w, Keeps R (push w)] [∀ frame link, Keeps R (writeHeader frame link)] :
    Keeps R (makeFrame segment procedure p) := by
  unfold makeFrame
  refine Keeps.seq inferInstance fun _ => Keeps.seq inferInstance fun link =>
    Keeps.seq inferInstance fun _ => Keeps.seq inferInstance fun frame => ?_
  infer_instance

theorem keeps_enter (segment procedure : UInt8) (jtab : Address)
    [∀ p, Keeps R (makeFrame segment procedure p)]
    [∀ p frame, Keeps R (settle segment jtab p frame)] :
    Keeps R (enter segment procedure jtab) := by
  rw [enter_eq]
  infer_instance

end Keeps

theorem readAttributes_cases {r : EStateM.Result Fault Machine Attributes}
    (h : readAttributes jtab m = r) :
    (∃ e, r = .error e m) ∨ ∃ p, r = .ok p m ∧ p.At m.memory jtab := by
  unfold readAttributes at h
  rcases reading_bind_cases h with ⟨e, -, hr⟩ | ⟨level, hl, h⟩
  · exact .inl ⟨e, hr⟩
  rcases reading_bind_cases h with ⟨e, -, hr⟩ | ⟨parameterBytes, hp, h⟩
  · exact .inl ⟨e, hr⟩
  rcases reading_bind_cases h with ⟨e, -, hr⟩ | ⟨dataBytes, hd, h⟩
  · exact .inl ⟨e, hr⟩
  rcases reading_bind_cases h with ⟨e, -, hr⟩ | ⟨entry, he, h⟩
  · exact .inl ⟨e, hr⟩
  exact .inr ⟨_, h.symm, ⟨hl, hp, hd, he⟩⟩

/-- What is left to do once the parameters are in the frame. -/
def linkFrame (p : Attributes) (link frame : Address) : Run Machine Address := do
  if p.level ≤ 0 then push (← get).base
  writeHeader frame link
  return frame

theorem linkFrame_of_base {p : Attributes} (base : p.level ≤ 0) :
    linkFrame p link frame m =
      (push m.base >>= fun _ => writeHeader frame link >>= fun _ => pure frame) m := by
  unfold linkFrame
  simp only [base, if_true]
  exact get_bind_apply _ m

theorem linkFrame_of_inner {p : Attributes} (inner : ¬ p.level ≤ 0) :
    linkFrame p link frame m = (writeHeader frame link >>= fun _ => pure frame) m := by
  unfold linkFrame
  simp only [inner, if_false]

/-- Making a frame fails before anything has changed, or finds the static link and the space. -/
theorem makeFrame_stages {p : Attributes} {r : EStateM.Result Fault Machine Address}
    (h : makeFrame segment procedure p m = r) :
    (∃ e, r = .error e m) ∨
    ∃ link frame, m.staticLinkFor p.level = .ok link ∧
      frame.toNat + (14 + p.parameterBytes.toNat + p.dataBytes.toNat) = m.psp.toNat ∧
      m.heap.np ≤ frame ∧
      (moveParameters segment procedure frame p.parameterBytes >>= fun _ =>
        linkFrame p link frame) m = r := by
  unfold makeFrame at h
  rw [get_bind_apply] at h
  rcases orFault_bind_cases h with ⟨e, -, hr⟩ | ⟨link, linked, h⟩
  · exact .inl ⟨e, hr⟩
  dsimp only at h
  rw [get_bind_apply] at h
  rcases orFault_bind_cases h with ⟨e, -, hr⟩ | ⟨frame, carved, h⟩
  · exact .inl ⟨e, hr⟩
  obtain ⟨size, room⟩ := carveFrame_ok carved
  exact .inr ⟨link, frame, linked, size, room, h⟩

/-- The machine after a frame was made for a procedure, before the procedure is entered. -/
structure Laid (p : Attributes) (frame : Address) (m m' : Machine) : Prop where
  size : frame.toNat + (14 + p.parameterBytes.toNat + p.dataBytes.toNat) = m.psp.toNat
  room : m.heap.np ≤ frame
  enough : p.parameterBytes.toNat ≤ m.store.depth * 2
  confined : Confined (CallRegion m) m m'
  sp : m'.store.sp =
    if p.level ≤ 0 then m.store.sp + p.parameterBytes - 2 else m.store.sp + p.parameterBytes
  header : ∃ link, m.staticLinkFor p.level = .ok link ∧
    Header m'.memory frame m.psp link m.mp m.jtab m.seg.toUInt16 m.ipc m'.store.sp
  savedBase : p.level ≤ 0 → Store.limit ≤ m'.store.sp ∧ Store.limit ≤ m'.store.sp + 1 ∧
    m'.memory.peekWord m'.store.sp = m.base

/-- How making a frame ends once the parameters are moved and the base register is pushed. -/
theorem linked_cases (regular : Regular m) {p : Attributes} {m₁ : Machine}
    (size : frame.toNat + (14 + p.parameterBytes.toNat + p.dataBytes.toNat) = m.psp.toNat)
    (room : m.heap.np ≤ frame) (enough : p.parameterBytes.toNat ≤ m.store.depth * 2)
    (linked : m.staticLinkFor p.level = .ok link) (moved : Confined (CallRegion m) m m₁)
    (sp : m₁.store.sp =
      if p.level ≤ 0 then m.store.sp + p.parameterBytes - 2 else m.store.sp + p.parameterBytes)
    (saved : p.level ≤ 0 → Store.limit ≤ m₁.store.sp ∧ Store.limit ≤ m₁.store.sp + 1 ∧
      m₁.memory.peekWord m₁.store.sp = m.base)
    {r : EStateM.Result Fault Machine Address}
    (h : (writeHeader frame link >>= fun _ => pure frame) m₁ = r) :
    (∃ e m', r = .error e m' ∧ Confined (CallRegion m) m m') ∨
    ∃ m', r = .ok frame m' ∧ Laid p frame m m' := by
  let S : Address → Prop := fun a => m.heap.np ≤ a ∧ a < m.psp
  have widen {m' : Machine} (k : Confined S m₁ m') : Confined (CallRegion m) m m' :=
    IsTrans.trans _ _ _ moved ⟨k.store, k.off.mono fun _ ha => .inl ha, k.rest⟩
  -- the header lies in the space that was carved
  have inside : ∀ i < 14, S (frame + UInt16.ofNat i) := fun i hi =>
    between_of_carved size room (by omega)
  have unmapped : ∀ i < 14, (m₁.memory.cell (frame + UInt16.ofNat i)).mapped = false := by
    intro i hi
    have start := UInt16.le_trans regular.heap (inside i hi).1
    exact (moved.store.memory.mapped _).trans (regular.unmapped _ start)
  rcases bind_cases h with ⟨e, m', hw, hr⟩ | ⟨u, m₂, hw, h⟩
  · rcases writeHeader_cases inside unmapped hw with ⟨e, m', eq, kept⟩ | ⟨m', eq, -⟩
    · cases eq
      exact .inl ⟨_, _, hr, widen kept⟩
    · cases eq
  rcases writeHeader_cases inside unmapped hw with ⟨e, m', eq, -⟩ | ⟨m', eq, kept, sp₂, header⟩
  · cases eq
  cases eq
  refine .inr ⟨_, h.symm, ?_⟩
  refine
    { size := size, room := room, enough := enough, confined := widen kept
      sp := sp₂.trans sp, header := ⟨link, linked, ?header⟩, savedBase := ?savedBase }
  case header =>
    rw [moved.rest] at header
    rw [sp₂]
    exact header
  case savedBase =>
    intro base
    obtain ⟨low, high, word⟩ := saved base
    -- the header lies below the evaluation stack
    have away {a : Address} (ha : Store.limit ≤ a) : ¬ S a := by
      rintro ⟨-, below⟩
      exact UInt16.not_lt.2 (UInt16.le_trans regular.top ha) below
    rw [sp₂]
    exact ⟨low, high, (Memory.peekWord_congr kept.store.memory.order
      (kept.off.peekByte (away low)) (kept.off.peekByte (away high))).trans word⟩

/-- How making a frame ends. -/
theorem makeFrame_cases (regular : Regular m) {p : Attributes}
    {r : EStateM.Result Fault Machine Address} (h : makeFrame segment procedure p m = r) :
    (∃ e m', r = .error e m' ∧ Confined (CallRegion m) m m') ∨
    ∃ frame m', r = .ok frame m' ∧ Laid p frame m m' := by
  rcases makeFrame_stages h with ⟨e, hr⟩ | ⟨link, frame, linked, size, room, h⟩
  · exact .inl ⟨e, m, hr, Std.Refl.refl m⟩
  have parameters : ∀ i < p.parameterBytes.toNat,
      CallRegion m (frame + 14 + UInt16.ofNat i) := by
    intro i hi
    have := callRegion_of_carved size room (i := 14 + i) (by omega)
    rwa [UInt16.ofNat_add, ← UInt16.add_assoc] at this
  rcases bind_cases h with ⟨e, m', hm, hr⟩ | ⟨u, m₁, hm, h⟩
  · rcases moveParameters_cases parameters hm with ⟨e, m', eq, kept⟩ | ⟨m', eq, -⟩
    · cases eq
      exact .inl ⟨_, _, hr, kept⟩
    · cases eq
  rcases moveParameters_cases parameters hm with ⟨e, m', eq, -⟩ | ⟨m', eq, moved, sp, enough⟩
  · cases eq
  cases eq
  by_cases base : p.level ≤ 0
  · rw [linkFrame_of_base base] at h
    -- a base procedure pushes the base register of its caller
    have stack : ∀ a, Store.limit ≤ a → CallRegion m a := fun a ha => .inr ha
    have unmapped : ∀ a, Store.limit ≤ a → (m₁.memory.cell a).mapped = false := by
      intro a ha
      have start : Heap.start ≤ a := UInt16.le_trans (by decide) ha
      exact (moved.store.memory.mapped a).trans (regular.unmapped a start)
    have same : m₁.base = m.base := by rw [moved.rest]
    rcases bind_cases h with ⟨e, m', hw, hr⟩ | ⟨u, m₂, hw, h⟩
    · rcases push_cases stack unmapped hw with ⟨e, m', eq, kept⟩ | ⟨m', eq, -⟩
      · cases eq
        exact .inl ⟨_, _, hr, IsTrans.trans _ _ _ moved kept⟩
      · cases eq
    rcases push_cases stack unmapped hw with ⟨e, m', eq, -⟩ | ⟨m', eq, kept, sp₂, low, high, word⟩
    · cases eq
    cases eq
    rcases linked_cases regular size room enough linked (IsTrans.trans _ _ _ moved kept)
      (by rw [if_pos base, sp₂, sp]) (fun _ => ⟨low, high, same ▸ word⟩) h
      with failed | ⟨m', eq, laid⟩
    · exact .inl failed
    · exact .inr ⟨frame, m', eq, laid⟩
  · rw [linkFrame_of_inner base] at h
    rcases linked_cases regular size room enough linked moved (by rw [if_neg base, sp])
      (fun low => absurd low base) h with failed | ⟨m', eq, laid⟩
    · exact .inl failed
    · exact .inr ⟨frame, m', eq, laid⟩

/-- A procedure can be entered once its frame is made. -/
theorem Laid.entered {p : Attributes} {m₁ : Machine} (laid : Laid p frame m m₁)
    (attributes : p.At m.memory jtab) (segment : UInt8) :
    ∃ m', settle segment jtab p frame m₁ = .ok () m' ∧ Entered p segment jtab m m' := by
  have above : m₁.heap.np ≤ frame := by
    rw [laid.confined.rest]
    exact laid.room
  refine ⟨_, settle_eq p above, ?_⟩
  exact
    { attributes := attributes, size := laid.size, room := laid.room, enough := laid.enough
      registers := by rw [laid.confined.rest]
      store := laid.confined.store, off := laid.confined.off, sp := laid.sp
      header := laid.header, savedBase := laid.savedBase }

/-- How entering a procedure ends. -/
theorem enter_cases (regular : Regular m) {r : EStateM.Result Fault Machine Unit}
    (h : enter segment procedure jtab m = r) :
    (∃ e m', r = .error e m' ∧ Confined (CallRegion m) m m') ∨
    ∃ p m', r = .ok () m' ∧ Entered p segment jtab m m' := by
  rw [enter_eq] at h
  rcases readAttributes_cases (rfl : readAttributes jtab m = _) with
    ⟨e, unread⟩ | ⟨p, read, attributes⟩
  · rw [bind_of_error unread] at h
    exact .inl ⟨e, m, h.symm, Std.Refl.refl m⟩
  rw [bind_of_ok read] at h
  rcases makeFrame_cases regular (rfl : makeFrame segment procedure p m = _) with
    ⟨e, m', unmade, kept⟩ | ⟨frame, m₁, made, laid⟩
  · rw [bind_of_error unmade] at h
    exact .inl ⟨e, m', h.symm, kept⟩
  rw [bind_of_ok made] at h
  obtain ⟨m', settled, entered⟩ := laid.entered attributes segment
  exact .inr ⟨p, m', h.symm.trans settled, entered⟩

/-! ## Calling a procedure -/

/-- A call names a procedure that is bound to the host. -/
def CallsHost (m : Machine) (segment procedure : UInt8) : Prop :=
  ∃ jtab, m.segments.jtab m.memory segment procedure = .ok jtab ∧
    AttributeTable.number m.memory jtab = .ok 0

/-- What the host may do: procedures bound to it work on the evaluation stack. -/
def Hosted (m : Machine) : Prop :=
  ∀ b ∈ m.bound, b.procedure = 1 ∧ Keeps Store.Quiet b.run

/-- Procedures that are bound to the host do to memory and evaluation stack what instructions do. -/
def HostsQuietly (m : Machine) : Prop :=
  ∀ b ∈ m.bound, Keeps Store.Quiet b.run

theorem Hosted.quietly (h : m.Hosted) : m.HostsQuietly :=
  fun b hb => (h b hb).2

theorem callBound_cases (segment procedure : UInt8) (m : Machine) :
    (∃ e, callBound segment procedure m = .error e m) ∨
    ∃ b ∈ m.bound, b.procedure = procedure ∧ callBound segment procedure m = onStore b.run m := by
  unfold callBound
  rw [get_bind_apply]
  cases hs : m.segments.require segment with
  | error e => exact .inl ⟨e, rfl⟩
  | ok s =>
    rw [show orFault (Except.ok s : Except Fault Segment) = pure s from rfl, pure_bind]
    cases found : m.bound.find? fun b =>
        b.segment == String.ofList ((Blank.trim s.name.toList).map Char.toUpper) &&
          b.procedure == procedure with
    | none => exact .inl ⟨_, rfl⟩
    | some b =>
      have named := List.find?_some found
      simp only [Bool.and_eq_true, beq_iff_eq] at named
      exact .inr ⟨b, List.mem_of_find?_eq_some found, named.2, rfl⟩

theorem confined_callBound (hosted : m.HostsQuietly) (segment procedure : UInt8) :
    Confined (fun _ => True) m (endState (callBound segment procedure m)) := by
  rcases callBound_cases segment procedure m with ⟨e, h⟩ | ⟨b, mem, -, h⟩
  · rw [h]
    exact Std.Refl.refl m
  · have kept := (hosted b mem).related m.store
    rw [h]
    unfold onStore
    cases hr : b.run m.store with
    | ok a store =>
      rw [hr] at kept
      exact ⟨kept, fun a ha => absurd trivial ha, rfl⟩
    | error e store =>
      rw [hr] at kept
      exact ⟨kept, fun a ha => absurd trivial ha, rfl⟩

/-- How a call ends: a frame was made, or the host did the work, or nothing but the space for
frames and the evaluation stack was touched. -/
theorem call_cases (regular : Regular m) (hosted : m.HostsQuietly)
    {r : EStateM.Result Fault Machine CallKind} (h : call segment procedure m = r) :
    (∃ e m', r = .error e m' ∧ Confined (CallRegion m) m m') ∨
    (m.CallsHost segment procedure ∧ Confined (fun _ => True) m (endState r) ∧
      ((∃ m', r = .ok .finished m') ∨ ∃ e m', r = .error e m')) ∨
    ∃ jtab p m', m.segments.jtab m.memory segment procedure = .ok jtab ∧
      (∃ number, AttributeTable.number m.memory jtab = .ok number ∧ number ≠ 0) ∧
      r = .ok .entered m' ∧ Entered p segment jtab m m' := by
  unfold call at h
  rw [get_bind_apply] at h
  rcases orFault_bind_cases h with ⟨e, -, hr⟩ | ⟨jtab, hj, h⟩
  · exact .inl ⟨e, m, hr, Std.Refl.refl m⟩
  rcases reading_bind_cases h with ⟨e, -, hr⟩ | ⟨number, hn, h⟩
  · exact .inl ⟨e, m, hr, Std.Refl.refl m⟩
  -- procedure number 0 in an attribute table stands for the host
  by_cases host : number = 0
  · subst host
    right
    left
    have kept := confined_callBound hosted segment procedure
    refine ⟨⟨jtab, hj, hn⟩, ?_⟩
    simp only [if_true] at h
    rcases bind_cases h with ⟨e, m', hb, hr⟩ | ⟨u, m', hb, h⟩
    · rw [hb] at kept
      rw [hr]
      exact ⟨kept, .inr ⟨e, m', rfl⟩⟩
    · rw [hb] at kept
      rw [← h]
      exact ⟨kept, .inl ⟨m', rfl⟩⟩
  · simp only [host, if_false] at h
    rcases bind_cases h with ⟨e, m', he, hr⟩ | ⟨u, m', he, h⟩
    · rcases enter_cases regular he with ⟨e', m'', eq, kept⟩ | ⟨p, m'', eq, -⟩
      · cases eq
        exact .inl ⟨e, m', hr, kept⟩
      · cases eq
    · rcases enter_cases regular he with ⟨e', m'', eq, -⟩ | ⟨p, m'', eq, entered⟩
      · cases eq
      · cases eq
        exact .inr (.inr ⟨jtab, p, m', hj, ⟨number, hn, host⟩, h.symm, entered⟩)

/-- A call that makes a frame enters the procedure, whatever is bound to the host. -/
theorem entered_of_call (regular : Regular m) (h : call segment procedure m = .ok .entered m') :
    ∃ jtab p, m.segments.jtab m.memory segment procedure = .ok jtab ∧
      Entered p segment jtab m m' := by
  unfold call at h
  rw [get_bind_apply] at h
  rcases orFault_bind_cases h with ⟨e, -, eq⟩ | ⟨jtab, hj, h⟩
  · cases eq
  rcases reading_bind_cases h with ⟨e, -, eq⟩ | ⟨number, hn, h⟩
  · cases eq
  by_cases host : number = 0
  · simp only [host, if_true] at h
    obtain ⟨u, m₁, -, eq⟩ := bind_eq_ok.1 h
    cases eq
  · simp only [host, if_false] at h
    obtain ⟨u, m₁, he, eq⟩ := bind_eq_ok.1 h
    cases eq
    rcases enter_cases regular he with ⟨e', m'', eq, -⟩ | ⟨p, m'', eq, entered⟩
    · cases eq
    · cases eq
      exact ⟨jtab, p, hj, entered⟩

/-! ## Calls that bring a segment in -/

/-- The machine with the program stack pointer at the lowest live frame or code. -/
def reclaimed (m : Machine) : Machine :=
  { m with psp := min (if m.mp = 0 then programTop else m.mp) m.residentFloor }

/-- How giving up a segment ends. -/
theorem leaveSegment_cases {r : EStateM.Result Fault Machine Unit}
    (h : leaveSegment segment m = r) :
    ((∃ e, r = .error e m) ∧ ∀ s, m.segments.get? segment = some s → s.isResident = false) ∨
    ∃ s, m.segments.get? segment = some s ∧ s.isResident = true ∧
      r = .ok () (m.afterRelease segment s).reclaimed := by
  unfold leaveSegment at h
  rcases bind_cases h with ⟨e, m', hu, hr⟩ | ⟨u, m', hu, h⟩
  · rcases unloadSegment_cases hu with ⟨⟨e', eq⟩, absent⟩ | ⟨s, -, -, eq⟩
    · cases eq
      exact .inl ⟨⟨e, hr⟩, absent⟩
    · cases eq
  · rcases unloadSegment_cases hu with ⟨⟨e', eq⟩, -⟩ | ⟨s, hs, resident, eq⟩
    · cases eq
    · cases eq
      exact .inr ⟨s, hs, resident, h.symm⟩

/-- Whether an external call brings its segment in. -/
def BringsIn (m : Machine) (segment : UInt8) : Prop :=
  segment ≠ m.seg ∧ segment ≠ 0

instance : Decidable (m.BringsIn segment) :=
  inferInstanceAs (Decidable (_ ∧ _))

/-- An external call within the segment, or into segment 0, is a plain call. -/
theorem callExternal_of_here (here : ¬ m.BringsIn segment) :
    callExternal segment procedure m = match call segment procedure m with
      | .ok _ m' => .ok () m'
      | .error e m' => .error e m' := by
  unfold BringsIn at here
  unfold callExternal
  rw [get_bind_apply]
  simp only [here, if_false]
  rw [bind_apply, attempt]
  cases call segment procedure m with
  | ok kind m' => cases kind <;> rfl
  | error e m' => rfl

/-- An external call into another segment loads it first, and lets it go unless a frame is made. -/
theorem callExternal_of_bringsIn (away : m.BringsIn segment) :
    callExternal segment procedure m = match loadSegment segment m with
      | .error e m' => .error e m'
      | .ok _ m₁ => match call segment procedure m₁ with
        | .ok .entered m₂ => .ok () m₂
        | .ok .finished m₂ => leaveSegment segment m₂
        | .error e m₂ => match leaveSegment segment m₂ with
          | .ok _ m₃ => .error e m₃
          | .error e' m₃ => .error e' m₃ := by
  unfold BringsIn at away
  unfold callExternal
  rw [get_bind_apply]
  simp only [away, if_true, ne_eq, not_false_eq_true, and_self]
  rw [bind_apply]
  cases loadSegment segment m with
  | error e m' => rfl
  | ok u m₁ =>
    dsimp only
    rw [bind_apply, attempt]
    cases call segment procedure m₁ with
    | ok kind m₂ => cases kind <;> rfl
    | error e m₂ =>
      dsimp only
      rw [bind_apply]
      cases leaveSegment segment m₂ <;> rfl

/-- Nothing is left to do after the call of a procedure of the current segment. -/
theorem callHere_rest (procedure : UInt8) (m : Machine) :
    endState ((do let _ ← call (← get).seg procedure : Run Machine Unit) m) =
      endState (call m.seg procedure m) ∧
    succeeded ((do let _ ← call (← get).seg procedure : Run Machine Unit) m) =
      succeeded (call m.seg procedure m) := by
  have rest : (do let _ ← call (← get).seg procedure : Run Machine Unit) m =
      (call m.seg procedure >>= fun _ => pure ()) m :=
    get_bind_apply _ m
  rw [rest, bind_apply]
  cases call m.seg procedure m <;> exact ⟨rfl, rfl⟩

/-- An external call goes on from `loaded`, where its segment is in memory. -/
def Brings (m : Machine) (segment : UInt8) (loaded : Machine) : Prop :=
  (m.BringsIn segment ∧ loadSegment segment m = .ok () loaded) ∨ (¬ m.BringsIn segment ∧ loaded = m)

/-- What an external call from `m` does if no frame was made: it lets a segment go that it brought
in. -/
def letGo (m : Machine) (segment : UInt8) : Run Machine Unit :=
  if m.BringsIn segment then leaveSegment segment else pure ()

theorem Brings.load (h : m.Brings segment m') (away : m.BringsIn segment) :
    loadSegment segment m = .ok () m' := by
  rcases h with ⟨-, load⟩ | ⟨here, -⟩
  · exact load
  · exact absurd away here

theorem letGo_of_bringsIn (away : m.BringsIn segment) : m.letGo segment = leaveSegment segment :=
  if_pos away

theorem letGo_of_here (here : ¬ m.BringsIn segment) : m.letGo segment = pure () :=
  if_neg here

section Keeps

variable {R : Machine → Machine → Prop} [IsPreorder Machine R]

theorem Brings.related [loads : Keeps R (loadSegment segment)] (h : m.Brings segment m') :
    R m m' := by
  rcases h with ⟨-, load⟩ | ⟨-, rfl⟩
  · exact loads.of_ok load
  · exact Std.Refl.refl m'

theorem keeps_leaveSegment
    (released : ∀ m s, m.segments.get? segment = some s → s.isResident = true →
      R m (m.afterRelease segment s))
    (reclaimed : ∀ m, R m m.reclaimed) : Keeps R (leaveSegment segment) := by
  constructor
  intro m
  rcases leaveSegment_cases (rfl : leaveSegment segment m = _) with
    ⟨⟨e, h⟩, -⟩ | ⟨s, hs, resident, h⟩
  · rw [h]
    exact Std.Refl.refl m
  · rw [h]
    exact IsTrans.trans _ _ _ (released m s hs resident) (reclaimed _)

theorem keeps_letGo (left : segment ≠ 0 → Keeps R (leaveSegment segment)) :
    Keeps R (m.letGo segment) := by
  unfold letGo
  by_cases away : m.BringsIn segment
  · rw [if_pos away]
    exact left away.2
  · rw [if_neg away]
    infer_instance

end Keeps

theorem brings_cases (segment : UInt8) (m : Machine) :
    (∃ e m', m.BringsIn segment ∧ loadSegment segment m = .error e m') ∨
      ∃ loaded, m.Brings segment loaded := by
  by_cases away : m.BringsIn segment
  · cases load : loadSegment segment m with
    | error e m' => exact .inl ⟨e, m', away, rfl⟩
    | ok u loaded => exact .inr ⟨loaded, .inl ⟨away, load⟩⟩
  · exact .inr ⟨m, .inr ⟨away, rfl⟩⟩

/-- An external call is a call from where its segment is in memory. -/
theorem callExternal_of_brings {loaded : Machine} (brought : m.Brings segment loaded) :
    callExternal segment procedure m = match call segment procedure loaded with
      | .ok .entered m' => .ok () m'
      | .ok .finished m' => m.letGo segment m'
      | .error e m' => match m.letGo segment m' with
        | .ok _ m'' => .error e m''
        | .error e' m'' => .error e' m'' := by
  rcases brought with ⟨away, load⟩ | ⟨here, rfl⟩
  · rw [callExternal_of_bringsIn away, load, letGo_of_bringsIn away]
  · rw [callExternal_of_here here, letGo_of_here here]
    cases call segment procedure loaded with
    | ok kind m' => cases kind <;> rfl
    | error e m' => rfl

/-- How an external call ends: its segment cannot be brought in, or a frame is made, or none is made
and a segment that was brought in is let go again. -/
theorem callExternal_cases {r : EStateM.Result Fault Machine Unit}
    (h : callExternal segment procedure m = r) :
    (∃ e m', m.BringsIn segment ∧ loadSegment segment m = .error e m' ∧ r = .error e m') ∨
    ∃ loaded, m.Brings segment loaded ∧
      ((∃ m', call segment procedure loaded = .ok .entered m' ∧ r = .ok () m') ∨
        (∃ m', call segment procedure loaded = .ok .finished m' ∧ r = m.letGo segment m') ∨
        ∃ e e' m', call segment procedure loaded = .error e m' ∧
          r = .error e' (endState (m.letGo segment m'))) := by
  rcases brings_cases segment m with ⟨e, m', away, load⟩ | ⟨loaded, brought⟩
  · rw [callExternal_of_bringsIn away, load] at h
    exact .inl ⟨e, m', away, load, h.symm⟩
  rw [callExternal_of_brings brought] at h
  refine .inr ⟨loaded, brought, ?_⟩
  cases called : call segment procedure loaded with
  | ok kind m' =>
    rw [called] at h
    cases kind with
    | entered => exact .inl ⟨m', rfl, h.symm⟩
    | finished => exact .inr (.inl ⟨m', rfl, h.symm⟩)
  | error e m' =>
    rw [called] at h
    dsimp only at h
    -- letting go may fail in turn, and then its fault is the one that counts
    cases left : m.letGo segment m' with
    | ok u m'' | error e' m'' =>
      rw [left] at h
      exact .inr (.inr ⟨e, _, m', rfl, by rw [left]; exact h.symm⟩)

/-- Where an external call ends that makes no frame. -/
theorem callExternal_ends {r : EStateM.Result Fault Machine Unit}
    (h : callExternal segment procedure m = r) :
    (∃ e m', m.BringsIn segment ∧ loadSegment segment m = .error e m' ∧ r = .error e m') ∨
    ∃ loaded, m.Brings segment loaded ∧
      ((∃ m', call segment procedure loaded = .ok .entered m' ∧ r = .ok () m') ∨
        (∀ m', call segment procedure loaded ≠ .ok .entered m') ∧
          endState r = endState (m.letGo segment (endState (call segment procedure loaded)))) := by
  rcases callExternal_cases h with failed | ⟨loaded, brought, entered | ended⟩
  · exact .inl failed
  · exact .inr ⟨loaded, brought, .inl entered⟩
  refine .inr ⟨loaded, brought, .inr ?_⟩
  rcases ended with ⟨m', called, rfl⟩ | ⟨e, e', m', called, rfl⟩
  · rw [called]
    exact ⟨nofun, rfl⟩
  · rw [called]
    exact ⟨nofun, rfl⟩

end Machine
end PSystem
