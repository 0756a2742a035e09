import PSystem.Proofs.CallReturn
import PSystem.Proofs.CodeImmutability

/-!
# Calls and returns are symmetric

The return of an ordinary procedure restores its caller if the base register is as right after the
call (`return_restores_caller`).  It does not restore the base register itself: only the return of a
base procedure does, and it takes back no base register of 0 but at the outermost level
(`base_return_restores_caller_iff`).  What it reads and writes in memory has to be as the call left it,
too (`return_misled_by_memory`).
-/

namespace PSystem
namespace Machine

variable {m m₀ m₁ m₂ m₃ loaded : Machine} {segment procedure : UInt8} {p : Attributes}

/-! ## A run that shows the difference -/

/-- The machine after a call of a procedure of segment 0. -/
def entering (procedure : UInt8) (m : Machine) : Machine :=
  endState (call 0 procedure m)

/-- Whether a call made a frame. -/
def madeFrame : EStateM.Result Fault Machine CallKind → Bool
  | .ok .entered _ => true
  | _ => false

/-- Level and parameter bytes of a procedure that was called. -/
def planOf (procedure : UInt8) (m : Machine) : Option (Int × Word) :=
  match AttributeTable.level m.memory (entering procedure m).jtab,
    AttributeTable.parameterBytes m.memory (entering procedure m).jtab with
  | .ok level, .ok bytes => some (level, bytes)
  | _, _ => none

/-- Whether the attribute table of a machine still gives the entry point it had. -/
def keepsEntry (memory : Memory) (m : Machine) : Bool :=
  match entryOf memory m.jtab with
  | .ok entry => entry == m.ipcBase
  | .error _ => false

/-- The current frame: its address, segment, depth and header. -/
def currentFrame (m : Machine) : Address × UInt8 × Nat × Bytes :=
  (m.mp, m.seg, m.depth, (List.range 14).map fun i => m.memory.peekByte (m.mp + UInt16.ofNat i))

/-- The overlay table: number, use count, code base and code of each segment. -/
def overlays (m : Machine) : List (UInt8 × Nat × Address × Bytes) :=
  m.segments.toList.map fun s => (s.number, s.useCount, s.codeBase,
    (List.range s.size.toNat).map fun i => m.memory.peekByte (s.codeBase + UInt16.ofNat i))

theorem entered_of_madeFrame {r : EStateM.Result Fault Machine CallKind}
    (h : madeFrame r = true) : r = .ok .entered (endState r) := by
  cases r with
  | ok kind m =>
    cases kind with
    | entered => rfl
    | finished => cases h
  | error e m => cases h

theorem entryOf_of_keepsEntry {memory : Memory} (h : keepsEntry memory m = true) :
    entryOf memory m.jtab = .ok m.ipcBase := by
  unfold keepsEntry at h
  cases found : entryOf memory m.jtab with
  | ok entry =>
    rw [found] at h
    rw [eq_of_beq h]
  | error e =>
    rw [found] at h
    cases h

theorem calls_entering {level : Int} {bytes : Word} (secure : m.Secure)
    (made : madeFrame (call 0 procedure m) = true)
    (plan : planOf procedure m = some (level, bytes)) :
    ∃ p, Calls 0 procedure p m m (entering procedure m) ∧ p.level = level ∧
      p.parameterBytes = bytes := by
  have here : ¬ m.BringsIn 0 := fun away => away.2 rfl
  obtain ⟨p, calls⟩ := calls_of_call secure.regular (.inr ⟨here, rfl⟩) (entered_of_madeFrame made)
  refine ⟨p, calls, ?_⟩
  unfold planOf at plan
  have attributes := calls.attributes
  change p.At m.memory (entering procedure m).jtab at attributes
  rw [attributes.level, attributes.parameterBytes] at plan
  cases plan
  exact ⟨rfl, rfl⟩

theorem Secure.entering (h : m.Secure) (procedure : UInt8) : (entering procedure m).Secure :=
  ((settles_call 0 procedure).related m h).1

theorem Secure.stack (h : m.Secure) : Store.Open m.memory := by
  intro a ha
  have start : Heap.start ≤ a := UInt16.le_trans (by decide) ha
  refine ⟨ne_zero_of_start start, h.layout.unmapped a start, ?_⟩
  by_contra locked
  -- code ends below the evaluation stack
  obtain ⟨part, p, placed, covers⟩ := (h.layout.marked a).1 (by simpa using locked)
  have below := h.layout.below part p placed
  have above := UInt16.le_iff_toNat_le.1 ha
  change 0xF000 ≤ a.toNat at above
  have inside := covers.2
  omega

theorem Secure.again (h : m.Secure) : Again m m where
  frame := rfl
  seg := rfl
  depth := rfl
  header := fun _ _ => rfl
  uses := fun _ => rfl
  code := fun _ => rfl
  order := rfl
  unmapped := h.layout.unmapped
  stack := h.stack

/-- What the sample does: a call and two steps, which call the base procedure and return from it,
and calls of the base procedure from the main program and from itself. -/
theorem rebasing_run :
    let m₀ := started rebasing
    let m₁ := entering 2 m₀
    let m₂ := endState (step (endState (step m₁)))
    let b := entering 3 m₀
    (keepsEntry m₀.memory m₀ = true ∧ m₀.psp = m₀.reclaimed.psp ∧ m₀.store.sp = Store.top ∧
      madeFrame (call 0 2 m₀) = true ∧ planOf 2 m₀ = some (1, 0) ∧
      ((m₀.memory.cell (m₀.jtab - 2)).readOnly = true ∧
        (m₀.memory.cell (m₀.jtab - 2 + 1)).readOnly = true) ∧ 0xF002 ≤ m₁.store.sp.toNat) ∧
    (currentFrame m₂ = currentFrame m₁ ∧ overlays m₂ = overlays m₁ ∧
      succeeded (returnFrom 0 false m₂) = true ∧
      (endState (returnFrom 0 false m₂)).base ≠ m₀.base) ∧
    (madeFrame (call 0 3 m₀) = true ∧ planOf 3 m₀ = some (0, 0) ∧
      succeeded (returnFrom 0 true b) = false) ∧
    madeFrame (call 0 3 b) = true ∧ planOf 3 b = some (0, 0) ∧ b.base ≠ 0 ∧
      b.store.sp < 0xFFF2 ∧ 0xF000 ≤ b.store.sp.toNat ∧ b.psp = b.reclaimed.psp ∧
      keepsEntry (entering 3 b).memory b = true := by
  decide +kernel

theorem secure_started : (started rebasing).Secure :=
  (imaged_of_reached reached_rebasing).secure

/-! ## Symmetry -/

/-- The return of an ordinary procedure restores the caller, if its own frame is current again, code
is as it was and the base register is as right after the call. -/
theorem return_restores_caller (results : UInt8) (regular : m₀.Regular)
    (numbered : ∀ n s, m₀.segments.get? n = some s → s.number = n)
    (entry : entryOf m₀.memory m₀.jtab = .ok m₀.ipcBase) (enters : m₀.EntersCode)
    (psp : m₀.psp = min (if m₀.mp = 0 then programTop else m₀.mp) m₀.residentFloor)
    (unlocked : ∀ a, a < m₀.psp → (m₀.memory.cell a).readOnly = false)
    (called : Calls segment procedure p m₀ loaded m₁) (inner : 1 ≤ p.level)
    (again : Again m₁ m₂) (base : m₂.base = m₁.base)
    (code : ∀ a, (m₁.memory.cell a).readOnly = true → m₂.memory.peekByte a = m₁.memory.peekByte a)
    (room : Store.limit.toNat + 2 * results.toNat ≤ m₁.store.sp.toNat) :
    ∃ m₃, returnFrom results false m₂ = .ok () m₃ ∧ Restored m₀ m₃ ∧
      m₃.store.sp = m₀.store.sp + p.parameterBytes - UInt16.ofNat (2 * results.toNat) ∧
      ∀ i < results.toNat, m₃.memory.peekWord (m₃.store.sp + UInt16.ofNat (2 * i)) =
        m₂.memory.peekWord (Frame.word m₁.mp (UInt16.ofNat (i + 1))) := by
  have activated := called.activated regular numbered
  have level : ¬ p.level ≤ 0 := by omega
  have found := (again.entryOf_caller activated regular unlocked enters code).trans entry
  rcases again.returnFrom activated results false with ⟨e, m', failed, -⟩ | ⟨e, m, ok, back, eq⟩
  · cases found.symm.trans failed
  cases found.symm.trans ok
  have length := length_resultsOf m₂.memory m₁.mp results.toNat
  obtain ⟨m₃, done, rest, sp, words⟩ := pushResults_open
    (resultsOf m₂.memory m₁.mp results.toNat) back.stack (by rw [length, back.sp]; exact room)
  -- the base register is not restored, it has not changed
  have kept : m.base = m₀.base := by
    rw [back.base, base, activated.base, if_neg level]
  refine ⟨m₃, eq.trans done, ?_, ?_, ?_⟩
  · rw [rest]
    exact
      { mp := back.mp, base := kept, seg := back.seg, jtab := back.jtab, ipcBase := back.ipcBase
        ipc := back.ipc, psp := back.psp.trans psp.symm, depth := back.depth, uses := back.uses }
  · rw [sp, length, back.sp, activated.sp, if_neg level]
  · intro i hi
    have word := words i (by rw [length]; exact hi)
    rw [word]
    simp [resultsOf]

/-- An ordinary return does not restore the base register: here the called procedure calls a base
procedure that returns by RNP. -/
theorem base_register_not_restored :
    ∃ (m₀ m₁ m₂ m₃ : Machine) (images : Part → Bytes) (p : Attributes),
      (Reached m₀ images ∧ entryOf m₀.memory m₀.jtab = .ok m₀.ipcBase ∧
        m₀.psp = min (if m₀.mp = 0 then programTop else m₀.mp) m₀.residentFloor ∧
        (∀ a, a < m₀.psp → (m₀.memory.cell a).readOnly = false) ∧ m₀.store.sp = Store.top) ∧
      (callExternal 0 2 m₀ = .ok () m₁ ∧ Calls 0 2 p m₀ m₀ m₁ ∧ p.level = 1 ∧
        p.parameterBytes = 0) ∧
      (m₂ = endState (step (endState (step m₁))) ∧ currentFrame m₂ = currentFrame m₁ ∧
        overlays m₂ = overlays m₁) ∧
      returnFrom 0 false m₂ = .ok () m₃ ∧ m₃.base ≠ m₀.base := by
  obtain ⟨⟨entry, psp, sp, made, plan, -⟩, ⟨frame, table, returned, lost⟩, -⟩ := rebasing_run
  obtain ⟨p, calls, level, bytes⟩ := calls_entering secure_started made plan
  exact ⟨_, _, _, _, _, p, ⟨reached_rebasing, entryOf_of_keepsEntry entry, psp,
      fun _ below => secure_started.layout.unlocked below, sp⟩,
    ⟨calls.callExternal, calls, level, bytes⟩, ⟨rfl, frame, table⟩,
    eq_ok_of_succeeded returned, lost⟩

theorem return_restores_caller_rebasing :
    ∃ m₀ m₁ m₃ : Machine, callExternal 0 2 m₀ = .ok () m₁ ∧
      returnFrom 1 false m₁ = .ok () m₃ ∧ Restored m₀ m₃ := by
  obtain ⟨⟨entry, psp, -, made, plan, enters, room⟩, -⟩ := rebasing_run
  obtain ⟨p, calls, level, -⟩ := calls_entering secure_started made plan
  have secure := secure_started
  obtain ⟨m₃, returned, restored, -⟩ := return_restores_caller 1 secure.regular
    secure.layout.entries.numbered (entryOf_of_keepsEntry entry) (.inr enters) psp
    (fun _ below => secure.layout.unlocked below) calls (Int.le_of_eq level.symm)
    (secure.entering 2).again rfl (fun _ _ => rfl) room
  exact ⟨_, _, m₃, calls.callExternal, returned, restored⟩

/-! ## What a return takes for granted -/

/-- What is asked of a return besides memory: `m₁` is the machine after the call of a procedure of level 1
without parameters, and in `m₂` its frame is current again. -/
structure Returning (procedure : UInt8) (m₀ m₁ m₂ : Machine) : Prop where
  entry : entryOf m₀.memory m₀.jtab = .ok m₀.ipcBase
  psp : m₀.psp = min (if m₀.mp = 0 then programTop else m₀.mp) m₀.residentFloor
  unlocked : ∀ a, a < m₀.psp → (m₀.memory.cell a).readOnly = false
  sp : m₀.store.sp = Store.top
  called : call 0 procedure m₀ = .ok .entered m₁
  plan : planOf procedure m₀ = some (1, 0)
  frame : currentFrame m₂ = currentFrame m₁
  overlays : overlays m₂ = overlays m₁
  base : m₂.base = m₁.base

/-- The machine with the attribute table of its current procedure outside all segments. -/
def tabledOutside (m : Machine) : Machine :=
  { m with jtab := 0x202, ipcBase := 0x200 }

/-- The machine with a protected word at the upper end of its evaluation stack. -/
def stackProtected (m : Machine) : Machine :=
  m.withMemory (m.memory.protect 0xFFEE 0xFFF0 true)

/-- The machine with a device where the next header has the instruction counter. -/
def headerShown (m : Machine) : Machine :=
  m.withMemory (m.memory.attach
    { start := (entering 2 m).mp + Frame.savedIpc
      stop := (entering 2 m).mp + Frame.savedIpc + 2
      read := fun _ _ => 7 })

section Unlocked

variable (unlocked : ∀ a, a < m.psp → (m.memory.cell a).readOnly = false)
include unlocked

theorem unlocked_tabledOutside (a : Address) (below : a < m.tabledOutside.psp) :
    (m.tabledOutside.memory.cell a).readOnly = false :=
  unlocked a below

theorem unlocked_stackProtected (top : m.psp ≤ programTop) (a : Address)
    (below : a < m.stackProtected.psp) : (m.stackProtected.memory.cell a).readOnly = false := by
  have under : a < programTop := UInt16.lt_of_lt_of_le below top
  have other : ¬ (0xFFEE ≤ a ∧ a < 0xFFF0) := fun inside =>
    UInt16.not_le.2 under (UInt16.le_trans (by decide) inside.1)
  exact (Memory.readOnly_protect_outside true other).trans (unlocked a below)

theorem unlocked_headerShown (a : Address) (below : a < m.headerShown.psp) :
    (m.headerShown.memory.cell a).readOnly = false :=
  (Memory.readOnly_attach _ _ a).trans (unlocked a below)

end Unlocked

/-- The machine after a procedure that it called has changed the entry point of its caller. -/
def entryChanged (m : Machine) : Machine :=
  endState (onMemory (Memory.writeWord (m.jtab - 2) 2) (entering 2 m))

/-- What can be computed of `Returning`. -/
def Resuming (m₀ m₂ : Machine) : Prop :=
  keepsEntry m₀.memory m₀ = true ∧ m₀.psp = m₀.reclaimed.psp ∧ m₀.store.sp = Store.top ∧
    madeFrame (call 0 2 m₀) = true ∧ planOf 2 m₀ = some (1, 0) ∧
    currentFrame m₂ = currentFrame (entering 2 m₀) ∧ overlays m₂ = overlays (entering 2 m₀) ∧
    m₂.base = (entering 2 m₀).base

instance (m₀ m₂ : Machine) : Decidable (m₀.Resuming m₂) :=
  inferInstanceAs (Decidable (_ ∧ _))

theorem Resuming.returning (h : m₀.Resuming m₂)
    (unlocked : ∀ a, a < m₀.psp → (m₀.memory.cell a).readOnly = false) :
    Returning 2 m₀ (entering 2 m₀) m₂ := by
  obtain ⟨entry, psp, sp, made, plan, frame, overlays, base⟩ := h
  exact
    { entry := entryOf_of_keepsEntry entry, psp := psp, unlocked := unlocked, sp := sp
      called := entered_of_madeFrame made, plan := plan, frame := frame, overlays := overlays
      base := base }

theorem misled_run :
    let a := (started rebasing).tabledOutside
    let b := (started rebasing).stackProtected
    let c := (started rebasing).headerShown
    (a.Resuming a.entryChanged ∧ succeeded (returnFrom 0 false a.entryChanged) = true ∧
      (endState (returnFrom 0 false a.entryChanged)).ipcBase ≠ a.ipcBase) ∧
    (b.Resuming (entering 2 b) ∧ succeeded (returnFrom 1 false (entering 2 b)) = false) ∧
    (c.Resuming (entering 2 c) ∧ succeeded (returnFrom 0 false (entering 2 c)) = true ∧
      (endState (returnFrom 0 false (entering 2 c))).ipc ≠ c.ipc) := by
  decide +kernel

/-- What a return finds in memory has to be what the call left there, with the base register too: an
entry point that the called procedure changed is taken over, results are not pushed over a protected
word, and a device over the header shows another instruction counter. -/
theorem return_misled_by_memory :
    (∃ m₀ m₁ m₃, Returning 2 m₀ m₁ m₀.entryChanged ∧
      returnFrom 0 false m₀.entryChanged = .ok () m₃ ∧ m₃.ipcBase ≠ m₀.ipcBase) ∧
    (∃ m₀ m₁, Returning 2 m₀ m₁ m₁ ∧ ∀ m₃, returnFrom 1 false m₁ ≠ .ok () m₃) ∧
    ∃ m₀ m₁ m₃, Returning 2 m₀ m₁ m₁ ∧ returnFrom 0 false m₁ = .ok () m₃ ∧ m₃.ipc ≠ m₀.ipc := by
  obtain ⟨⟨outside, returned, moved⟩, ⟨covered, refused⟩, shown, resumed, lost⟩ := misled_run
  have unlocked (a : Address) (below : a < (started rebasing).psp) :
      ((started rebasing).memory.cell a).readOnly = false := secure_started.layout.unlocked below
  refine ⟨?_, ?_, ?_⟩
  · exact ⟨_, _, _, outside.returning (unlocked_tabledOutside unlocked),
      eq_ok_of_succeeded returned, moved⟩
  · have top := secure_started.regular.top
    refine ⟨_, _, covered.returning (unlocked_stackProtected unlocked top), fun m₃ done => ?_⟩
    rw [done] at refused
    cases refused
  · exact ⟨_, _, _, shown.returning (unlocked_headerShown unlocked),
      eq_ok_of_succeeded resumed, lost⟩

/-! ## Base procedures -/

/-- How the return of a base procedure ends once it is back in the caller. -/
theorem Back.handOver_base {entry : Address} (back : Back m₀ m₁ m₂ entry m)
    (activated : Activated segment p m₀ m₁) (outer : p.level ≤ 0)
    (word : m₂.memory.peekWord m₁.store.sp = m₁.memory.peekWord m₁.store.sp) (values : List Word) :
    (¬ (m₁.store.sp < Store.top ∧ m₀.ValidBase m₀.base) ∧
      ∃ stop m', handOver values true m = .error stop m') ∨
    (m₁.store.sp < Store.top ∧ m₀.ValidBase m₀.base ∧
      handOver values true m =
        handOver values false { m.withPointer (m₁.store.sp + 2) with base := m₀.base }) := by
  obtain ⟨low, high, saved⟩ := activated.savedBase outer
  have depth : m.ValidBase m₀.base ↔ m₀.ValidBase m₀.base := by
    unfold ValidBase
    rw [back.depth]
  have start {a : Address} (ha : Store.limit ≤ a) : Heap.start ≤ a := UInt16.le_trans (by decide) ha
  -- on top of the stack is still the word that the call pushed
  have read : m.memory.readWord m.store.sp = .ok m₀.base := by
    rw [back.sp, Memory.readWord_unmapped (ne_zero_of_start (start low))
      (ne_zero_of_start (start high)) (back.stack _ low).unmapped (back.stack _ high).unmapped,
      Memory.peekWord_congr back.order (back.bytes _) (back.bytes _), word, saved]
  have opened : handOver values true = (restoreBase >>= fun _ => handOver values false) := rfl
  rcases restoreBase_cases (rfl : restoreBase m = _) with
    ⟨e, failed, ⟨full, -⟩ | unread⟩ | ⟨base, room, hw, ⟨valid, eq⟩ | ⟨refused, eq⟩⟩
  · rw [back.sp] at full
    have stopped : (restoreBase >>= fun _ => handOver values false) m = _ := bind_of_error failed
    exact .inl ⟨fun both => UInt16.not_le.2 both.1 full, _, _, stopped⟩
  · cases read.symm.trans unread
  · cases read.symm.trans hw
    rw [back.sp] at room eq
    refine .inr ⟨UInt16.not_le.1 room, depth.1 valid, ?_⟩
    rw [opened]
    exact bind_of_ok eq
  · cases read.symm.trans hw
    have stopped : (restoreBase >>= fun _ => handOver values false) m = _ := bind_of_error eq
    exact .inl ⟨fun both => refused (depth.2 both.2), _, _, stopped⟩

/-- The place of the saved base register on the stack. -/
theorem base_slot_lt_top (activated : Activated segment p m₀ m₁) (outer : p.level ≤ 0)
    (above : Store.limit ≤ m₀.store.sp + p.parameterBytes) :
    m₁.store.sp < Store.top ↔ m₀.store.sp < 0xFFF2 := by
  have h₀ := m₀.store.sp.toNat_lt
  have enough := activated.enough
  have sum : (m₀.store.sp + p.parameterBytes).toNat =
      (m₀.store.sp.toNat + p.parameterBytes.toNat) % 2 ^ 16 := UInt16.toNat_add _ _
  rw [UInt16.le_iff_toNat_le] at above
  change 0xF000 ≤ _ at above
  have down : (m₀.store.sp + p.parameterBytes - 2).toNat =
      (m₀.store.sp + p.parameterBytes).toNat - 2 := by
    apply UInt16.toNat_sub_of_le
    rw [UInt16.le_iff_toNat_le]
    show 2 ≤ _
    omega
  rw [activated.sp, if_pos outer, UInt16.lt_iff_toNat_lt, UInt16.lt_iff_toNat_lt, down]
  show _ < 0xFFF0 ↔ _ < 0xFFF2
  unfold Store.depth Word.monus at enough
  split at enough
  · rename_i within
    have bound := UInt16.le_iff_toNat_le.1 within
    rw [UInt16.toNat_sub_of_le _ _ within] at enough
    change _ ≤ 0xFFF0 at bound
    change _ ≤ (0xFFF0 - _) / 2 * 2 at enough
    omega
  · -- A stack pointer past the top has no words behind it, so no parameters can have been taken.
    have none : p.parameterBytes.toNat = 0 := by simpa using enough
    omega

/-- The return of a base procedure restores the caller exactly if the caller has a base register, or
is the outermost one; it takes the stack, the program stack pointer and the attribute table of the
caller for granted. -/
theorem base_return_restores_caller_iff (results : UInt8) (secure : m₀.Secure)
    (called : Calls segment procedure p m₀ loaded m₁) (outer : p.level ≤ 0)
    (again : Again m₁ m₂)
    (word : m₂.memory.peekWord m₁.store.sp = m₁.memory.peekWord m₁.store.sp)
    (room : Store.limit.toNat + 2 * results.toNat ≤ (m₀.store.sp + p.parameterBytes).toNat) :
    (∃ m₃, returnFrom results true m₂ = .ok () m₃ ∧ Restored m₀ m₃ ∧
      m₃.store.sp = m₀.store.sp + p.parameterBytes - UInt16.ofNat (2 * results.toNat)) ↔
    (m₀.base = 0 → m₀.depth = 0) ∧ m₀.store.sp < 0xFFF2 ∧
      m₀.psp = min (if m₀.mp = 0 then programTop else m₀.mp) m₀.residentFloor ∧
      entryOf m₂.memory m₀.jtab = .ok m₀.ipcBase := by
  have activated := called.activated secure.regular secure.layout.entries.numbered
  have above : Store.limit ≤ m₀.store.sp + p.parameterBytes :=
    UInt16.le_iff_toNat_le.2 (Nat.le_trans (Nat.le_add_right _ _) room)
  have slot := base_slot_lt_top activated outer above
  -- a base register other than 0 lies in the program stack, and a return accepts it
  have valid : m₀.ValidBase m₀.base ↔ (m₀.base = 0 → m₀.depth = 0) := by
    unfold ValidBase
    by_cases zero : m₀.base = 0
    · simp [zero]
    · rw [if_neg zero]
      exact ⟨fun _ h => absurd h zero, fun _ => secure.based.resolve_left zero⟩
  -- the base register is taken from the stack before the results are pushed
  have lifted : m₁.store.sp + 2 = m₀.store.sp + p.parameterBytes := by
    rw [activated.sp, if_pos outer]
    exact UInt16.sub_add_cancel _ _
  have length := length_resultsOf m₂.memory m₁.mp results.toNat
  rcases again.returnFrom activated results true with
    ⟨e, m', failed, stuck⟩ | ⟨entry, m, ok, back, eq⟩
  · constructor
    · rintro ⟨m₃, done, -⟩
      cases stuck.symm.trans done
    · rintro ⟨-, -, -, found⟩
      cases found.symm.trans failed
  rcases back.handOver_base activated outer word (resultsOf m₂.memory m₁.mp results.toNat) with
    ⟨refused, stop, m', failed⟩ | ⟨below, based, handed⟩
  · constructor
    · rintro ⟨m₃, done, -⟩
      cases (eq.trans failed).symm.trans done
    · rintro ⟨based, below, -⟩
      exact absurd ⟨slot.2 below, valid.2 based⟩ refused
  obtain ⟨m₃, done, rest, sp, -⟩ := pushResults_open
    (m := { m.withPointer (m₁.store.sp + 2) with base := m₀.base })
    (resultsOf m₂.memory m₁.mp results.toNat) back.stack (by
      rw [length]
      show _ ≤ (m₁.store.sp + 2).toNat
      rw [lifted]
      exact room)
  have returned := (eq.trans handed).trans done
  constructor
  · rintro ⟨m₃', done', restored, -⟩
    cases returned.symm.trans done'
    have psp := restored.psp
    have found := restored.ipcBase
    rw [rest] at psp found
    refine ⟨valid.1 based, slot.1 below, psp.symm.trans back.psp, ?_⟩
    rw [ok, ← found, ← back.ipcBase]
    rfl
  · rintro ⟨-, -, psp, found⟩
    cases found.symm.trans ok
    refine ⟨m₃, returned, ?_, ?_⟩
    · rw [rest]
      exact
        { mp := back.mp, base := rfl, seg := back.seg, jtab := back.jtab, ipcBase := back.ipcBase
          ipc := back.ipc, psp := back.psp.trans psp.symm, depth := back.depth, uses := back.uses }
    · rw [sp, length]
      show m₁.store.sp + 2 - _ = _
      rw [lifted]

/-- A main program of level 1 has no base register, and a base procedure it calls cannot return. -/
theorem base_return_refused :
    ∃ (m₀ m₁ : Machine) (images : Part → Bytes) (p : Attributes), Reached m₀ images ∧
      callExternal 0 3 m₀ = .ok () m₁ ∧ Calls 0 3 p m₀ m₀ m₁ ∧ p.level = 0 ∧
      p.parameterBytes = 0 ∧ ∀ m₃, returnFrom 0 true m₁ ≠ .ok () m₃ := by
  obtain ⟨-, -, ⟨made, plan, refused⟩, -⟩ := rebasing_run
  obtain ⟨p, calls, level, bytes⟩ := calls_entering secure_started made plan
  refine ⟨_, _, _, p, reached_rebasing, calls.callExternal, calls, level, bytes, ?_⟩
  intro m₃ returned
  rw [returned] at refused
  cases refused

theorem base_return_restores_caller_rebasing :
    ∃ m₀ m₁ m₃ : Machine, m₀.Secure ∧ callExternal 0 3 m₀ = .ok () m₁ ∧
      returnFrom 0 true m₁ = .ok () m₃ ∧ Restored m₀ m₃ := by
  obtain ⟨-, -, -, made, plan, based, below, room, psp, kept⟩ := rebasing_run
  have secure := secure_started.entering 3
  obtain ⟨p, calls, level, bytes⟩ := calls_entering secure made plan
  have fits : Store.limit.toNat + 2 * (0 : UInt8).toNat ≤
      ((entering 3 (started rebasing)).store.sp + p.parameterBytes).toNat := by
    rw [bytes, UInt16.add_zero]
    exact room
  obtain ⟨m₃, returned, restored, -⟩ := (base_return_restores_caller_iff 0 secure calls
    (Int.le_of_eq level) (secure.entering 3).again rfl fits).2
    ⟨fun zero => absurd zero based, below, psp, entryOf_of_keepsEntry kept⟩
  exact ⟨_, _, m₃, secure, calls.callExternal, returned, restored⟩

end Machine
end PSystem
