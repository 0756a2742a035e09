import PSystem.Proofs.FailedLoads
import PSystem.Proofs.Traps

/-!
# Calls that fail

A call checks everything before it changes anything: by the time the parameters leave the evaluation
stack, the frame has been carved out of memory that can be written, and taking parameters off makes
the room for the base register.  So a call that fails has done nothing (`call_error`).  An external
call may have loaded its segment by then; releasing it and moving the program stack pointer back up
undoes the load, as the pointer was at the lowest live frame or resident segment before
(`failed_call_undone`).  Only the evaluation stack can get in the way: the push of the base register
moves the pointer before it writes, and nothing moves it back (`failed_call_moves_pointer`).
-/

namespace PSystem

/-! ## Writes that cannot fail -/

namespace Memory

variable {m m' : Memory} {a : Address}

/-- A write of a byte fails only at address 0 and at a protected cell. -/
theorem writeByte_unlocked (valid : a ≠ 0) (unlocked : (m.cell a).readOnly = false) (v : UInt8) :
    ∃ m', writeByte a v m = .ok () m' := by
  unfold writeByte
  rw [if_neg valid]
  cases m.device? a with
  | none =>
    dsimp only
    rw [unlocked]
    exact ⟨_, rfl⟩
  | some device =>
    dsimp only
    split
    · exact ⟨_, rfl⟩
    · exact ⟨_, rfl⟩

/-- Addresses that a write may go to, whatever was written before. -/
def Open (m : Memory) (a : Address) : Prop :=
  a ≠ 0 ∧ (m.cell a).readOnly = false

theorem Open.guarded (h : m.Open a) (g : Guarded m m') : m'.Open a :=
  ⟨h.1, (g.readOnly a).trans h.2⟩

theorem writeBytes_open (bs : Bytes) (h : ∀ i < bs.length, m.Open (a + UInt16.ofNat i)) :
    ∃ m', writeBytes a bs m = .ok () m' := by
  induction bs generalizing a m with
  | nil => exact ⟨m, rfl⟩
  | cons b bs ih =>
    have head : m.Open a := by simpa using h 0 (by simp)
    obtain ⟨m₁, first⟩ := writeByte_unlocked head.1 head.2 b
    have guarded : Guarded m m₁ := Keeps.of_ok first
    rw [writeBytes, bind_of_ok first]
    apply ih
    intro i hi
    rw [add_one_add]
    exact (h (i + 1) (by simpa using hi)).guarded guarded

theorem writeWord_open (h : m.Open a) (h' : m.Open (a + 1)) (w : Word) :
    ∃ m', writeWord a w m = .ok () m' := by
  obtain ⟨m₁, first⟩ := writeByte_unlocked h.1 h.2 (m.order.split w).1
  have guarded : Guarded m m₁ := Keeps.of_ok first
  obtain ⟨m₂, second⟩ := writeByte_unlocked h'.1 (h'.guarded guarded).2 (m.order.split w).2
  exact ⟨m₂, (bind_of_ok first).trans second⟩

theorem writeWords_open (ws : List Word) (h : ∀ i < 2 * ws.length, m.Open (a + UInt16.ofNat i)) :
    ∃ m', writeWords a ws m = .ok () m' := by
  induction ws generalizing a m with
  | nil => exact ⟨m, rfl⟩
  | cons w ws ih =>
    rw [List.length_cons] at h
    have low : m.Open a := by simpa using h 0 (by omega)
    obtain ⟨m₁, first⟩ := writeWord_open low (h 1 (by omega)) w
    have guarded : Guarded m m₁ := Keeps.of_ok first
    rw [writeWords, bind_of_ok first]
    apply ih
    intro i hi
    rw [add_two_add]
    exact (h (i + 2) (by omega)).guarded guarded

end Memory

namespace Machine

variable {m m' : Machine} {e : Fault} {segment procedure : UInt8} {frame link jtab : Address}
  {size : Nat} {bytes : Word}

/-! ## Calls of resident segments -/

/-- What a call that fails relies on: nothing in the way of a frame or of the evaluation stack is
protected, and the evaluation stack pointer is within its bounds. -/
structure Callable (m : Machine) : Prop where
  heap : Heap.start ≤ m.heap.np
  unlocked : ∀ a, a < m.psp → (m.memory.cell a).readOnly = false
  stack : ∀ a, Store.limit ≤ a → a < Store.top → (m.memory.cell a).readOnly = false
  low : Store.limit ≤ m.store.sp
  high : m.store.sp ≤ Store.top
  even : m.store.sp.toNat % 2 = 0

theorem Callable.open_of_carved (h : m.Callable) (carved : frame.toNat + size = m.psp.toNat)
    (room : m.heap.np ≤ frame) {i : Nat} (hi : i < size) :
    m.memory.Open (frame + UInt16.ofNat i) := by
  have hp := m.psp.toNat_lt
  have start := UInt16.le_iff_toNat_le.1 (UInt16.le_trans h.heap room)
  have place := toNat_add_ofNat (a := frame) (i := i) (by omega)
  refine ⟨?_, h.unlocked _ (UInt16.lt_iff_toNat_lt.2 (by omega))⟩
  intro zero
  rw [zero] at place
  change 0x100 ≤ frame.toNat at start
  change 0 = _ at place
  omega

/-- The words on a stack whose pointer is even reach to its end. -/
theorem Callable.depth_eq (h : m.Callable) :
    m.store.sp.toNat + m.store.depth * 2 = Store.top.toNat := by
  have even := h.even
  have high := UInt16.le_iff_toNat_le.1 h.high
  change _ ≤ 0xFFF0 at high
  unfold Store.depth Word.monus
  rw [if_pos h.high, UInt16.toNat_sub_of_le _ _ h.high]
  change _ + (0xFFF0 - _) / 2 * 2 = 0xFFF0
  omega

/-- Moving the parameters fails only before anything has changed. -/
theorem moveParameters_error
    (inside : ∀ i < bytes.toNat, m.memory.Open (frame + 14 + UInt16.ofNat i))
    (h : moveParameters segment procedure frame bytes m = .error e m') : m' = m := by
  unfold moveParameters at h
  rw [get_bind_apply] at h
  dsimp only at h
  split at h
  · cases h
    rfl
  rcases reading_bind_cases h with ⟨e', -, hr⟩ | ⟨parameters, hp, h⟩
  · cases hr
    rfl
  have length := Memory.length_of_readBytes hp
  have unlocked : ∀ i < parameters.length, m.memory.Open (Frame.word frame 1 + UInt16.ofNat i) := by
    intro i hi
    rw [word_one]
    exact inside i (length ▸ hi)
  obtain ⟨memory, written⟩ := Memory.writeBytes_open parameters unlocked
  rw [bind_of_ok (onMemory_of_ok written)] at h
  cases h

/-- Without parameters nothing is moved. -/
theorem moveParameters_zero : moveParameters segment procedure frame 0 m = .ok () m := by
  have stays : m.withPointer (m.store.sp + 0) = m := by rw [UInt16.add_zero]; rfl
  unfold moveParameters
  rw [get_bind_apply]
  simp only [UInt16.toNat_zero, Nat.not_lt_zero, if_false]
  exact congrArg (EStateM.Result.ok ()) stays

theorem push_full (full : m.store.sp < Store.limit + 2) (w : Word) :
    Machine.push w m = .error .stackOverflow m := by
  unfold Machine.push onStore Store.push
  rw [if_pos full]

/-- A push that has room for a word succeeds. -/
theorem Callable.push (h : m.Callable) {m₁ : Machine} (guarded : Memory.Guarded m.memory m₁.memory)
    (high : m₁.store.sp ≤ Store.top) (room : ¬ m₁.store.sp < Store.limit + 2) (w : Word) :
    ∃ m', Machine.push w m₁ = .ok () m' := by
  have down := Store.sub_two_of_room room
  have low := Store.limit_le_sub_two room
  have low' := Store.limit_le_sub_one room
  have top := UInt16.le_iff_toNat_le.1 high
  have deep := UInt16.le_iff_toNat_le.1 low
  change _ ≤ 0xFFF0 at top
  change 0xF000 ≤ _ at deep
  have next : (m₁.store.sp - 2 + 1).toNat = m₁.store.sp.toNat - 2 + 1 := by
    rw [UInt16.toNat_add, down, UInt16.toNat_one]
    omega
  -- both bytes lie on the stack
  have opened {a : Address} (low : Store.limit ≤ a) (high : a.toNat < 0xFFF0) :
      m₁.memory.Open a := by
    refine ⟨?_, (guarded.readOnly a).trans (h.stack a low (UInt16.lt_iff_toNat_lt.2 high))⟩
    rintro rfl
    exact absurd low (by decide)
  obtain ⟨memory, written⟩ := Memory.writeWord_open (opened low (by omega))
    (opened low' (by omega)) w
  refine ⟨{ m₁ with store := { memory := memory, sp := m₁.store.sp - 2 } }, ?_⟩
  unfold Machine.push onStore Store.push
  rw [if_neg room]
  unfold Store.onMemory
  change Memory.writeWord (m₁.store.sp - 2) w m₁.store.memory = _ at written
  simp only [written]

/-- Where the evaluation stack pointer is once the parameters are moved. -/
theorem Callable.moved (h : m.Callable) {m₁ : Machine}
    (moving : moveParameters segment procedure frame bytes m = .ok () m₁) :
    Confined (fun _ => True) m m₁ ∧ m₁.store.sp.toNat = m.store.sp.toNat + bytes.toNat ∧
      m₁.store.sp ≤ Store.top := by
  rcases moveParameters_cases (S := fun _ => True) (fun _ _ => trivial) moving with
    ⟨_, _, eq, -⟩ | ⟨_, eq, moved, sp, enough⟩
  · cases eq
  cases eq
  have depth := h.depth_eq
  have place : m₁.store.sp.toNat = m.store.sp.toNat + bytes.toNat := by
    rw [sp, UInt16.toNat_add]
    change _ = 0xFFF0 at depth
    omega
  refine ⟨moved, place, UInt16.le_iff_toNat_le.2 ?_⟩
  omega

/-- A full stack had no parameters to move, so nothing has changed. -/
theorem Callable.unmoved_of_full (h : m.Callable) (pair : bytes.toNat % 2 = 0) {m₁ : Machine}
    (moving : moveParameters segment procedure frame bytes m = .ok () m₁)
    (full : m₁.store.sp < Store.limit + 2) : m₁ = m := by
  obtain ⟨-, sp, -⟩ := h.moved moving
  have low := UInt16.le_iff_toNat_le.1 h.low
  have even := h.even
  rw [UInt16.lt_iff_toNat_lt, sp, Store.limit_add_two] at full
  change 0xF000 ≤ _ at low
  obtain rfl : bytes = 0 := UInt16.toNat_inj.1 (by rw [UInt16.toNat_zero]; omega)
  rw [moveParameters_zero] at moving
  cases moving
  rfl

/-- Once the parameters are moved and the base register is pushed, a frame is made. -/
theorem Callable.linked (h : m.Callable) (link : Address) {m₁ : Machine}
    (carved : frame.toNat + size = m.psp.toNat) (header : 14 ≤ size) (room : m.heap.np ≤ frame)
    (quiet : Confined (fun _ => True) m m₁) :
    ∃ m', (writeHeader frame link >>= fun _ => pure frame) m₁ = .ok frame m' ∧
      m'.heap.np ≤ frame := by
  obtain ⟨memory, written⟩ := Memory.writeWords_open (m := m₁.memory) (a := frame)
    [m₁.psp, link, m₁.mp, m₁.jtab, m₁.seg.toUInt16, m₁.ipc, m₁.store.sp]
    fun i hi =>
      (h.open_of_carved carved room (Nat.lt_of_lt_of_le hi header)).guarded quiet.store.memory
  have wrote := (writeHeader_eq frame link m₁).trans (onMemory_of_ok written)
  refine ⟨_, bind_of_ok wrote, ?_⟩
  rw [quiet.rest]
  exact room

/-- Making a frame fails only before anything has changed. -/
theorem Callable.makeFrame_cases (h : m.Callable) {p : Attributes}
    (even : p.parameterBytes.toNat % 2 = 0) {r : EStateM.Result Fault Machine Address}
    (making : makeFrame segment procedure p m = r) :
    (∃ e, r = .error e m) ∨ ∃ frame m', r = .ok frame m' ∧ m'.heap.np ≤ frame := by
  rcases makeFrame_stages making with failed | ⟨link, frame, -, carved, room, making⟩
  · exact .inl failed
  have inside : ∀ i < p.parameterBytes.toNat, m.memory.Open (frame + 14 + UInt16.ofNat i) := by
    intro i hi
    have place := h.open_of_carved carved room (i := 14 + i) (by omega)
    rwa [UInt16.ofNat_add, ← UInt16.add_assoc] at place
  rcases bind_cases making with ⟨e, m₁, moving, hr⟩ | ⟨⟨⟩, m₁, moving, making⟩
  · rw [moveParameters_error inside moving] at hr
    exact .inl ⟨e, hr⟩
  obtain ⟨moved, -, top⟩ := h.moved moving
  -- A base procedure saves the base of its caller on the stack, which may be full; any other cannot
  -- fail from here on.
  by_cases base : p.level ≤ 0
  · rw [linkFrame_of_base base] at making
    by_cases full : m₁.store.sp < Store.limit + 2
    · rw [bind_of_error (push_full full _), h.unmoved_of_full even moving full] at making
      exact .inl ⟨_, making.symm⟩
    · obtain ⟨m₂, pushed⟩ := h.push moved.store.memory top full m₁.base
      have kept := (confined_push (S := fun _ => True) (fun _ _ => trivial) m₁.base).of_ok pushed
      obtain ⟨m₃, done, below⟩ := h.linked link carved (by omega) room
        (IsTrans.trans _ _ _ moved kept)
      rw [bind_of_ok pushed, done] at making
      exact .inr ⟨frame, m₃, making.symm, below⟩
  · rw [linkFrame_of_inner base] at making
    obtain ⟨m₂, done, below⟩ := h.linked link carved (by omega) room moved
    exact .inr ⟨frame, m₂, making.symm.trans done, below⟩

/-- Entering a procedure fails only before anything has changed. -/
theorem Callable.enter_error (h : m.Callable)
    (even : ∀ w, AttributeTable.parameterBytes m.memory jtab = .ok w → w.toNat % 2 = 0)
    (failed : enter segment procedure jtab m = .error e m') : m' = m := by
  rw [enter_eq] at failed
  rcases readAttributes_cases (rfl : readAttributes jtab m = _) with
    ⟨_, unread⟩ | ⟨p, read, attributes⟩
  · rw [bind_of_error unread] at failed
    cases failed
    rfl
  rw [bind_of_ok read] at failed
  rcases h.makeFrame_cases (even _ attributes.parameterBytes)
      (rfl : makeFrame segment procedure p m = _) with ⟨_, unmade⟩ | ⟨frame, m₁, made, below⟩
  · rw [bind_of_error unmade] at failed
    cases failed
    rfl
  · rw [bind_of_ok made, settle_eq p below] at failed
    cases failed

/-- If there is such a procedure, it has code, and it takes whole words as parameters. -/
def TakesWords (m : Machine) (segment procedure : UInt8) : Prop :=
  ∀ jtab, m.segments.jtab m.memory segment procedure = .ok jtab →
    AttributeTable.number m.memory jtab ≠ .ok 0 ∧
      ∀ w, AttributeTable.parameterBytes m.memory jtab = .ok w → w.toNat % 2 = 0

/-- A call that fails has done nothing. -/
theorem Callable.call_error (h : m.Callable) (words : m.TakesWords segment procedure)
    (failed : call segment procedure m = .error e m') : m' = m := by
  unfold call at failed
  rw [get_bind_apply] at failed
  rcases orFault_bind_cases failed with ⟨_, -, hr⟩ | ⟨jtab, found, failed⟩
  · cases hr
    rfl
  obtain ⟨code, even⟩ := words jtab found
  rcases reading_bind_cases failed with ⟨_, -, hr⟩ | ⟨number, hn, failed⟩
  · cases hr
    rfl
  have some : number ≠ 0 := by
    rintro rfl
    exact code hn
  simp only [some, if_false] at failed
  rcases bind_cases failed with ⟨_, _, entering, hr⟩ | ⟨_, _, -, done⟩
  · cases hr
    exact h.enter_error even entering
  · cases done

/-- A call of a procedure with code makes a frame. -/
theorem TakesWords.entered (words : m.TakesWords segment procedure) {kind : CallKind}
    (done : call segment procedure m = .ok kind m') : kind = .entered := by
  unfold call at done
  rw [get_bind_apply] at done
  rcases orFault_bind_cases done with ⟨_, -, hr⟩ | ⟨jtab, found, done⟩
  · cases hr
  rcases reading_bind_cases done with ⟨_, -, hr⟩ | ⟨number, hn, done⟩
  · cases hr
  have some : number ≠ 0 := by
    rintro rfl
    exact (words jtab found).1 hn
  simp only [some, if_false] at done
  rcases bind_cases done with ⟨_, _, -, hr⟩ | ⟨_, _, -, done⟩
  · cases hr
  · cases done
    rfl

/-! ## External calls -/

/-- What holds of every machine that was started: entries stand under their numbers, and the program
stack is below the evaluation stack, of which nothing is protected. -/
structure Sound (m : Machine) : Prop where
  numbered : ∀ n s, m.segments.get? n = some s → s.number = n
  top : m.psp ≤ programTop
  stack : ∀ a, Store.limit ≤ a → a < Store.top → (m.memory.cell a).readOnly = false

theorem Grounded.sound (h : m.Grounded) : m.Sound where
  numbered := h.table.numbered
  top := h.regular.top
  stack := fun a low _ => h.stack a low

/-- Whatever the program does and whatever is in its system file. -/
theorem Trapped.sound {config : Config} {live : List Nat} (run : Trapped config m live) : m.Sound :=
  run.watched.grounded.sound

/-- A machine that is ready for a call: the program stack pointer is at the lowest live frame or
resident segment, nothing below it is protected, and the evaluation stack pointer is within its
bounds. -/
structure Ready (m : Machine) : Prop where
  settled : m.psp = min (if m.mp = 0 then programTop else m.mp) m.residentFloor
  unlocked : ∀ a, a < m.psp → (m.memory.cell a).readOnly = false
  heap : Heap.start ≤ m.heap.np
  low : Store.limit ≤ m.store.sp
  high : m.store.sp ≤ Store.top
  even : m.store.sp.toNat % 2 = 0

theorem Ready.callable (h : m.Ready) (sound : m.Sound) : m.Callable :=
  ⟨h.heap, h.unlocked, sound.stack, h.low, h.high, h.even⟩

/-- The machine is as before, except for what lies below the program stack pointer and for where
segments that are not in memory were last. -/
structure Undone (m m' : Machine) : Prop where
  registers : m'.registers = m.registers
  depth : m'.depth = m.depth
  segments : ∀ n, (m'.segments.get? n).map (fun s => (s.useCount, s.dataBase)) =
    (m.segments.get? n).map fun s => (s.useCount, s.dataBase)
  readOnly : ∀ a, (m'.memory.cell a).readOnly = (m.memory.cell a).readOnly
  above : ∀ a, m.psp ≤ a → m'.memory.peekByte a = m.memory.peekByte a

theorem Undone.refl (m : Machine) : Undone m m :=
  ⟨rfl, rfl, fun _ => rfl, fun _ => rfl, fun _ _ => rfl⟩

/-- Moving the program stack pointer back up undoes what did not change the uses of segments. -/
theorem Ready.undone (ready : m.Ready) (memory : Memory) (table : SegmentTable) (psp : Address)
    (segments : ∀ n, (table.get? n).map (fun s => (s.useCount, s.dataBase)) =
      (m.segments.get? n).map fun s => (s.useCount, s.dataBase))
    (code : ∀ n, (table.get? n).toList.flatMap SegmentTable.codeAddresses =
      (m.segments.get? n).toList.flatMap SegmentTable.codeAddresses)
    (readOnly : ∀ a, (memory.cell a).readOnly = (m.memory.cell a).readOnly)
    (above : ∀ a, m.psp ≤ a → memory.peekByte a = m.memory.peekByte a) :
    Undone m { (m.withMemory memory).withTable table with psp := psp }.reclaimed where
  registers := by
    have floor : table.residentFloor programTop = m.residentFloor :=
      SegmentTable.residentFloor_congr code
    have back : min (if m.mp = 0 then programTop else m.mp) (table.residentFloor programTop) =
        m.psp := by rw [floor, ← ready.settled]
    exact congrArg (fun psp => { m.registers with psp := psp }) back
  depth := rfl
  segments := segments
  readOnly := readOnly
  above := above

/-- The machine on which an external call makes its frame. -/
def withTarget (m : Machine) (segment : UInt8) : Machine :=
  if m.BringsIn segment then endState (loadSegment segment m) else m

/-- One more use of a resident segment is undone by its release. -/
theorem Ready.counted (ready : m.Ready) {s : Segment} (entry : m.segments.get? segment = some s)
    (resident : s.isResident = true) :
    ∃ m', leaveSegment segment (m.withTable (m.segments.modify segment Segment.countUp)) =
      .ok () m' ∧ Undone m m' := by
  have counted := SegmentTable.get?_modify_self (f := Segment.countUp) entry
  have used : 0 < s.useCount := by simpa [Segment.isResident] using resident
  rcases leaveSegment_cases (rfl : leaveSegment segment
      (m.withTable (m.segments.modify segment Segment.countUp)) = _) with
    ⟨-, absent⟩ | ⟨s₁, entry₁, -, left⟩
  · have gone := absent _ counted
    simp [Segment.isResident, Segment.countUp] at gone
  obtain rfl : Segment.countUp s = s₁ := Option.some.inj (counted.symm.trans entry₁)
  have table (n : UInt8) : ((m.segments.modify segment Segment.countUp).modify segment
      Segment.countDown).get? n = m.segments.get? n := by
    rw [SegmentTable.modify_modify, SegmentTable.get?_modify]
    split
    · cases m.segments.get? n <;> rfl
    · rfl
  -- The segment was in use before, so counting down again does not release it.
  have memory : memoryAfterRelease m.memory (Segment.countUp s) = m.memory := by
    unfold memoryAfterRelease
    rw [if_neg (by change s.useCount + 1 ≠ 1; omega)]
  refine ⟨_, left, ready.undone (memoryAfterRelease m.memory (Segment.countUp s))
    ((m.segments.modify segment Segment.countUp).modify segment Segment.countDown) m.psp
    ?_ ?_ ?_ ?_⟩
  · intro n
    rw [table]
  · intro n
    rw [table]
  · intro a
    rw [memory]
  · intro a _
    rw [memory]

section Brought

variable {s : Segment} {base : Address} {memory : Memory}

/-- A load protects the cells that it fills, and no others. -/
theorem readOnly_afterLoad (carved : base.toNat + s.footprint.toNat = m.psp.toNat)
    (guarded : Memory.Guarded m.memory memory) (a : Address) :
    ((m.afterLoad s base memory).memory.cell a).readOnly =
      if base ≤ a ∧ a < m.psp then true else (m.memory.cell a).readOnly := by
  rw [← guarded.readOnly, ← add_of_carved carved]
  exact congrArg Cell.readOnly (Memory.cell_protect memory base (base + s.footprint) true a)

/-- A call can be made where a segment was brought in. -/
theorem Ready.callable_brought (ready : m.Ready) (sound : m.Sound)
    (carved : base.toNat + s.footprint.toNat = m.psp.toNat)
    (guarded : Memory.Guarded m.memory memory) : (m.afterLoad s base memory).Callable := by
  have locked := readOnly_afterLoad carved guarded
  refine ⟨ready.heap, ?_, ?_, ready.low, ready.high, ready.even⟩
  · intro a lower
    have under : a < base := lower
    have below : base ≤ m.psp := UInt16.le_iff_toNat_le.2 (by omega)
    rw [locked, if_neg fun between => UInt16.not_le.2 under between.1]
    exact ready.unlocked a (UInt16.lt_of_lt_of_le under below)
  · intro a low high
    have upper : m.psp ≤ a := UInt16.le_trans sound.top low
    rw [locked, if_neg fun between => UInt16.not_le.2 between.2 upper]
    exact sound.stack a low high

/-- The entry of a segment that was brought in has one use and the place of its code. -/
theorem Sound.segments_afterLoad (sound : m.Sound) (entry : m.segments.get? segment = some s) :
    (m.afterLoad s base memory).segments = m.segments.modify segment (Segment.putAt base) :=
  congrArg (m.segments.modify · (Segment.putAt base)) (sound.numbered segment s entry)

/-- Once a segment that was brought in is released, its entry is unused again, and the other
entries are as they were. -/
theorem Sound.get?_released (sound : m.Sound) (entry : m.segments.get? segment = some s)
    (unused : s.useCount = 0) (n : UInt8) :
    ((m.afterLoad s base memory).segments.modify segment Segment.countDown).get? n =
      if segment = n then some { s with codeBase := base } else m.segments.get? n := by
  rw [sound.segments_afterLoad entry]
  split
  · rename_i here
    subst here
    rw [SegmentTable.modify_modify, SegmentTable.get?_modify_self entry]
    exact congrArg (fun uses => some { s with useCount := uses, codeBase := base }) unused.symm
  · rename_i other
    rw [SegmentTable.get?_modify_of_ne other, SegmentTable.get?_modify_of_ne other]

/-- Releasing a segment that was brought in undoes the load. -/
theorem Ready.brought (ready : m.Ready) (sound : m.Sound)
    (entry : m.segments.get? segment = some s) (absent : s.isResident = false)
    (carved : base.toNat + s.footprint.toNat = m.psp.toNat)
    (guarded : Memory.Guarded m.memory memory)
    (off : Memory.AgreesOff (fun a => base ≤ a ∧ a < m.psp) m.memory memory) :
    ∃ m', leaveSegment segment (m.afterLoad s base memory) = .ok () m' ∧ Undone m m' := by
  have put : (m.afterLoad s base memory).segments.get? segment = some (Segment.putAt base s) := by
    rw [sound.segments_afterLoad entry]
    exact SegmentTable.get?_modify_self entry
  rcases leaveSegment_cases (rfl : leaveSegment segment (m.afterLoad s base memory) = _) with
    ⟨-, gone⟩ | ⟨s₁, entry₁, -, left⟩
  · cases gone _ put
  obtain rfl : Segment.putAt base s = s₁ := Option.some.inj (put.symm.trans entry₁)
  -- Nothing else uses the segment, so letting go of it releases its memory again.
  have unused : s.useCount = 0 := by simpa [Segment.isResident] using absent
  have released : memoryAfterRelease (m.afterLoad s base memory).memory (Segment.putAt base s) =
      (m.afterLoad s base memory).memory.protect base (base + s.footprint) false := rfl
  refine ⟨_, left, ready.undone
    (memoryAfterRelease (m.afterLoad s base memory).memory (Segment.putAt base s))
    ((m.afterLoad s base memory).segments.modify segment Segment.countDown) base ?_ ?_ ?_ ?_⟩
  · intro n
    rw [sound.get?_released entry unused]
    split
    · rename_i here
      rw [← here, entry]
      rfl
    · rfl
  · intro n
    rw [sound.get?_released entry unused]
    split
    · rename_i here
      rw [← here, entry]
      simp [SegmentTable.codeAddresses, Segment.isResident, unused]
    · rfl
  · intro a
    rw [released, Memory.cell_protect, add_of_carved carved]
    dsimp only
    rw [readOnly_afterLoad carved guarded]
    split
    · rename_i inside
      exact (ready.unlocked a inside.2).symm
    · rfl
  · intro a upper
    rw [released, Memory.peekByte_protect]
    refine Memory.peekByte_protect.trans (off.peekByte ?_)
    exact fun between => UInt16.not_le.2 between.2 upper

end Brought

/-- A load fails without having done anything, or leaves the machine ready for a call; then
releasing the segment undoes it. -/
theorem Ready.load_cases (ready : m.Ready) (sound : m.Sound)
    (size : ∀ s, m.segments.get? segment = some s → s.size.toNat ≤ 65534)
    {r : EStateM.Result Fault Machine Unit} (h : loadSegment segment m = r) :
    (∃ e, r = .error e m) ∨
    ∃ m₁ m₂, r = .ok () m₁ ∧ m₁.Callable ∧ leaveSegment segment m₁ = .ok () m₂ ∧ Undone m m₂ := by
  rcases loadSegment_cases h with unchanged | ⟨s, entry, ⟨resident, rfl⟩ | ⟨absent, bring⟩⟩
  · exact .inl unchanged
  · obtain ⟨m₂, left, undone⟩ := ready.counted entry resident
    have callable := ready.callable sound
    exact .inr ⟨_, m₂, rfl, ⟨callable.heap, callable.unlocked, callable.stack, callable.low,
      callable.high, callable.even⟩, left, undone⟩
  rcases bringIn_cases bring with unchanged | ⟨base, bytes, room, fetched, ending⟩
  · exact .inl unchanged
  obtain ⟨carved, above⟩ := carve_ok room
  -- The code is written where no byte is write-protected, so that the write cannot fail.
  have footprint : s.footprint.toNat = 2 * ((s.size.toNat + 1) / 2) :=
    toNat_evenSize (size s entry)
  have length := length_of_fetchCode fetched
  have within : bytes.length ≤ s.footprint.toNat := by omega
  have hpsp := m.psp.toNat_lt
  have inside : ∀ i < bytes.length, base ≤ base + UInt16.ofNat i ∧
      base + UInt16.ofNat i < m.psp := by
    intro i hi
    have place := toNat_add_ofNat (a := base) (i := i) (by omega)
    rw [UInt16.le_iff_toNat_le, UInt16.lt_iff_toNat_lt]
    omega
  have unlocked : ∀ i < bytes.length, m.memory.Open (base + UInt16.ofNat i) := fun i hi =>
    (ready.callable sound).open_of_carved carved above (Nat.lt_of_lt_of_le hi within)
  obtain ⟨memory, written⟩ := Memory.writeBytes_open bytes unlocked
  have guarded : Memory.Guarded m.memory memory := Keeps.of_ok written
  have off : Memory.AgreesOff (fun a => base ≤ a ∧ a < m.psp) m.memory memory :=
    (Memory.keeps_writeBytes_off inside).of_ok written
  rw [written] at ending
  obtain ⟨m₂, left, undone⟩ := ready.brought sound entry absent carved guarded off
  exact .inr ⟨_, m₂, ending, ready.callable_brought sound carved guarded, left, undone⟩

/-- A machine that is ready for an external call of a procedure that takes whole words, in a segment
that fits in memory and whose uses can be counted. -/
structure ReadyFor (m : Machine) (segment procedure : UInt8) : Prop extends m.Ready where
  target : ∀ s, m.segments.get? segment = some s → s.size.toNat ≤ 65534 ∧ s.useCount < 65535
  words : (m.withTarget segment).TakesWords segment procedure

/-- An external call that fails is undone: registers, depth, uses of segments and protection are as
before, and so is every byte at or above the program stack pointer. -/
theorem failed_call_undone (sound : m.Sound) (ready : m.ReadyFor segment procedure)
    (failed : callExternal segment procedure m = .error e m') : Undone m m' := by
  have words := ready.words
  -- The call either fails before its segment is in memory, or its frame is not made and the segment
  -- is let go of again.
  by_cases away : m.BringsIn segment
  · rw [callExternal_of_bringsIn away] at failed
    rw [withTarget, if_pos away] at words
    rcases ready.load_cases sound (fun s entry => (ready.target s entry).1)
      (rfl : loadSegment segment m = _) with ⟨e', refused⟩ | ⟨m₁, m₂, loaded, callable, left, undone⟩
    · rw [refused] at failed
      cases failed
      exact Undone.refl m
    rw [loaded] at failed words
    cases called : call segment procedure m₁ with
    | ok kind m₃ =>
      have entered := words.entered called
      subst entered
      simp only [called] at failed
      cases failed
    | error e' m₃ =>
      have unchanged : m₃ = m₁ := callable.call_error words called
      subst unchanged
      simp only [called, left] at failed
      cases failed
      exact undone
  · rw [callExternal_of_here away] at failed
    rw [withTarget, if_neg away] at words
    cases called : call segment procedure m with
    | ok kind m₃ =>
      rw [called] at failed
      cases failed
    | error e' m₃ =>
      have unchanged : m₃ = m := (ready.callable sound).call_error words called
      rw [called] at failed
      cases failed
      exact unchanged ▸ Undone.refl m

/-- A segment with one procedure, which takes a word as parameter. -/
def takingWord : Bytes :=
  [0xAD, 0x00,
   0x00, 0x00, 0x02, 0x00, 0x06, 0x00, 0x08, 0x00, 0x01, 0x01,
   0x02, 0x00, 0x01, 0x01]

/-- The fault that a call fails with. -/
def faultOf : EStateM.Result Fault Machine Unit → Option Fault
  | .ok _ _ => none
  | .error fault _ => some fault

theorem eq_error_of_faultOf {r : EStateM.Result Fault Machine Unit} {fault : Fault}
    (h : faultOf r = some fault) : r = .error fault (endState r) := by
  cases r with
  | ok _ m' => cases h
  | error e m' =>
    cases h
    rfl

/-- Whether a procedure has code and takes whole words, by its attribute table. -/
def takesWords (m : Machine) (segment procedure : UInt8) : Bool :=
  match m.segments.jtab m.memory segment procedure with
  | .ok jtab =>
    match AttributeTable.number m.memory jtab, AttributeTable.parameterBytes m.memory jtab with
    | .ok number, .ok bytes => number != 0 && bytes.toNat % 2 == 0
    | _, _ => false
  | .error _ => true

theorem takesWords_of_table (h : m.takesWords segment procedure = true) :
    m.TakesWords segment procedure := by
  intro jtab found
  unfold takesWords at h
  rw [found] at h
  dsimp only at h
  split at h
  · rename_i number bytes numbered taken
    simp only [Bool.and_eq_true, bne_iff_ne, beq_iff_eq] at h
    refine ⟨?_, ?_⟩
    · rw [numbered]
      exact fun none => h.1 (Except.ok.inj none)
    · intro w taken'
      cases taken.symm.trans taken'
      exact h.2
  · cases h

/-- What can be computed of `ReadyFor`. -/
def Poised (m : Machine) (segment procedure : UInt8) : Prop :=
  m.psp = m.reclaimed.psp ∧ Heap.start ≤ m.heap.np ∧ Store.limit ≤ m.store.sp ∧
    m.store.sp ≤ Store.top ∧ m.store.sp.toNat % 2 = 0 ∧
    (∀ s ∈ m.segments.get? segment, s.size.toNat ≤ 65534 ∧ s.useCount < 65535) ∧
    (m.withTarget segment).takesWords segment procedure = true

instance (m : Machine) (segment procedure : UInt8) : Decidable (m.Poised segment procedure) :=
  inferInstanceAs (Decidable (_ ∧ _))

theorem Poised.ready (h : m.Poised segment procedure)
    (unlocked : ∀ a, a < m.psp → (m.memory.cell a).readOnly = false) :
    m.ReadyFor segment procedure := by
  obtain ⟨settled, heap, low, high, even, target, words⟩ := h
  exact
    { settled := settled, unlocked := unlocked, heap := heap, low := low, high := high, even := even
      target := target, words := takesWords_of_table words }

theorem unlocked_overlay (size : Word) (disk : Bytes) (a : Address) :
    ((overlay size disk).memory.cell a).readOnly = false :=
  (Memory.clean_reserve (Memory.clean_reserve Memory.clean_empty _ _) _ _).readOnly a

/-- A call with nothing on the evaluation stack brings the segment in, finds no parameter, and
leaves everything as it was. -/
theorem failed_call_undone_missing :
    (overlay 16 takingWord).Sound ∧ (overlay 16 takingWord).ReadyFor 1 1 ∧
      ∃ m', callExternal 1 1 (overlay 16 takingWord) =
          .error (.system (.missingParameters 1 1 2)) m' ∧
        Undone (overlay 16 takingWord) m' := by
  have sound : (overlay 16 takingWord).Sound :=
    ⟨(clear_overlay 16 takingWord).numbered, by decide +kernel, fun a _ _ => unlocked_overlay _ _ a⟩
  have poised : (overlay 16 takingWord).Poised 1 1 := by decide +kernel
  have ready := poised.ready fun a _ => unlocked_overlay 16 takingWord a
  -- The one procedure takes a word, which the empty stack does not have.
  have refused : faultOf (callExternal 1 1 (overlay 16 takingWord)) =
      some (.system (.missingParameters 1 1 2)) := by decide +kernel
  have failed := eq_error_of_faultOf refused
  exact ⟨sound, ready, _, failed, failed_call_undone sound ready failed⟩

/-- A segment with one base procedure, which takes no parameters. -/
def baseProcedure : Bytes :=
  [0xC1, 0x00,
   0x00, 0x00, 0x00, 0x00, 0x06, 0x00, 0x08, 0x00, 0x01, 0x00,
   0x02, 0x00, 0x01, 0x01]

/-- A machine whose evaluation stack starts with a protected word. -/
def lockedStack : Machine :=
  (overlay 16 baseProcedure).withMemory
    ((overlay 16 baseProcedure).memory.protect 0xFFEE 0xFFF0 true)

/-- A machine whose program stack starts at the upper end of the evaluation stack, where a segment
lies. -/
def raisedStack : Machine :=
  { overlay 16 baseProcedure with
    psp := 0xFFF0
    mp := 0xFFF0
    segments := (overlay 16 baseProcedure).segments.insert
      { number := 2, name := "TOP", unit := 4, block := 0, size := 2, useCount := 1
        codeBase := 0xFFF0 } }

theorem unlocked_lockedStack (a : Address) (below : a < lockedStack.psp) :
    (lockedStack.memory.cell a).readOnly = false := by
  have under : a < programTop := below
  have other : ¬ (0xFFEE ≤ a ∧ a < 0xFFF0) := fun inside =>
    UInt16.not_le.2 under (UInt16.le_trans (by decide) inside.1)
  exact (Memory.readOnly_protect_outside true other).trans (unlocked_overlay 16 baseProcedure a)

/-- A call of a base procedure that cannot push the base register leaves the evaluation stack pointer
where the push moved it: where a word of the evaluation stack is protected, and where the program
stack is not below the evaluation stack, so that the segment brought in covers that word. -/
theorem failed_call_moves_pointer :
    (lockedStack.ReadyFor 1 1 ∧ lockedStack.psp ≤ programTop ∧
      ∃ m', callExternal 1 1 lockedStack = .error (.invalidReference 0xFFEE) m' ∧
        lockedStack.store.sp = 0xFFF0 ∧ m'.store.sp = 0xFFEE) ∧
    (raisedStack.ReadyFor 1 1 ∧ (∀ a, (raisedStack.memory.cell a).readOnly = false) ∧
      ∃ m', callExternal 1 1 raisedStack = .error (.invalidReference 0xFFEE) m' ∧
        raisedStack.store.sp = 0xFFF0 ∧ m'.store.sp = 0xFFEE) := by
  constructor
  · have poised : lockedStack.Poised 1 1 := by decide +kernel
    have refused : faultOf (callExternal 1 1 lockedStack) = some (.invalidReference 0xFFEE) := by
      decide +kernel
    exact ⟨poised.ready unlocked_lockedStack, by decide +kernel, _, eq_error_of_faultOf refused,
      by decide +kernel, by decide +kernel⟩
  · have unlocked (a : Address) : (raisedStack.memory.cell a).readOnly = false :=
      unlocked_overlay 16 baseProcedure a
    have poised : raisedStack.Poised 1 1 := by decide +kernel
    have refused : faultOf (callExternal 1 1 raisedStack) = some (.invalidReference 0xFFEE) := by
      decide +kernel
    exact ⟨poised.ready fun a _ => unlocked a, unlocked, _, eq_error_of_faultOf refused,
      by decide +kernel, by decide +kernel⟩

end Machine
end PSystem
