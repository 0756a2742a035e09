import PSystem.Proofs.ReferenceCounts

/-!
# The call stack of a run

The frames in memory are the only record that the machine keeps of its calls.  A run is followed
here by a list of calls, innermost first, which is changed as instructions enter procedures and go
back to their callers (`callsAfter`): each call comes with what the attribute table said when it was
made and with the registers of the caller.  `Traced` is a run with this list.

What happens to a machine in one step is a sequence of few kinds of moves (`Move`), with at most one
way back to a caller (`GoesBack`) between them and at most one call (`Made`) after them (`Course`).  None
of these moves the code of a segment that stays in memory (`Develops`).
-/

namespace PSystem

/-! ## Calls -/

/-- What the attribute table at an address says. -/
def Attributes.read (m : Memory) (jtab : Address) : Except Fault Attributes := do
  let level ← AttributeTable.level m jtab
  let parameterBytes ← AttributeTable.parameterBytes m jtab
  let dataBytes ← AttributeTable.dataBytes m jtab
  let entry ← AttributeTable.entry m jtab
  return { level, parameterBytes, dataBytes, entry }

theorem Attributes.read_eq_ok {p : Attributes} {m : Memory} {jtab : Address} :
    read m jtab = .ok p ↔ p.At m jtab := by
  unfold read
  simp only [except_bind_eq_ok]
  constructor
  · rintro ⟨level, hl, parameters, hp, data, hd, entry, he, eq⟩
    cases eq
    exact ⟨hl, hp, hd, he⟩
  · intro h
    exact ⟨_, h.level, _, h.parameterBytes, _, h.dataBytes, _, h.entry, rfl⟩

/-- A call that made a frame. -/
structure Call where
  activation : Activation
  /-- The number of the procedure. -/
  number : UInt8
  /-- What the attribute table of the procedure said. -/
  attributes : Attributes
  /-- The static link. -/
  link : Address
  /-- The base register of the caller. -/
  base : Address
  /-- Where the caller goes on. -/
  resume : Word
  /-- The evaluation stack pointer of the frame, at which a base procedure finds the base register
  of its caller. -/
  sp : Address
  deriving DecidableEq, Repr

namespace Call

/-- The frame of a call. -/
def frame (c : Call) : Address :=
  c.activation.frame

/-- The attribute table of a call. -/
def jtab (c : Call) : Address :=
  c.activation.jtab

/-- The lexical level of a call. -/
def level (c : Call) : Int :=
  c.attributes.level

/-- The bytes of the frame: header, parameters and data. -/
def size (c : Call) : Nat :=
  14 + c.attributes.parameterBytes.toNat + c.attributes.dataBytes.toNat

/-- The distance of the exit code of a procedure from its entry point. -/
def exitOffset (m : Memory) (jtab : Address) : Except Fault Word := do
  return (← AttributeTable.exit m jtab) - (← AttributeTable.entry m jtab)

/-- The call is of the procedure that EXIT names. -/
def IsOf (segment procedure : UInt8) (c : Call) : Prop :=
  c.activation.segment = segment ∧ c.number = procedure

instance (segment procedure : UInt8) (c : Call) : Decidable (c.IsOf segment procedure) :=
  inferInstanceAs (Decidable (_ ∧ _))

/-- EXIT makes the callers, up to the procedure that it names, go on at their exit code. -/
def redirected (m : Memory) (segment procedure : UInt8) : List Call → List Call
  | c :: caller :: rest =>
    { c with resume := (exitOffset m caller.jtab).toOption.getD c.resume } ::
      if caller.IsOf segment procedure then caller :: rest
      else redirected m segment procedure (caller :: rest)
  | calls => calls

/-- The calls after an EXIT, which redirects no caller if the current procedure is the one that it
names. -/
def exited (m : Memory) (segment procedure : UInt8) : List Call → List Call
  | [] => []
  | c :: rest =>
    if c.IsOf segment procedure then c :: rest else redirected m segment procedure (c :: rest)

end Call

namespace Machine

variable {m m' m₁ m₂ : Machine} {calls calls' calls₁ : List Call} {n segment procedure : UInt8}

/-! ## The calls that instructions make -/

/-- The call of a procedure of a resident segment, if it makes a frame. -/
def callMade (segment procedure : UInt8) (m : Machine) : Option Call :=
  match call segment procedure m with
  | .ok .entered m' => do
    let number ← (AttributeTable.number m.memory m'.jtab).toOption
    let attributes ← (Attributes.read m.memory m'.jtab).toOption
    let link ← (m.staticLinkFor attributes.level).toOption
    return {
      activation := m'.current, number, attributes, link, base := m.base, resume := m.ipc
      sp := m'.store.sp }
  | _ => none

/-- The call of a procedure of any segment, which is brought in first. -/
def externalCallMade (segment procedure : UInt8) (m : Machine) : Option Call :=
  if m.BringsIn segment then
    match loadSegment segment m with
    | .ok _ loaded => callMade segment procedure loaded
    | .error _ _ => none
  else callMade segment procedure m

theorem externalCallMade_of_failed {e : Fault} (away : m.BringsIn segment)
    (load : loadSegment segment m = .error e m') : externalCallMade segment procedure m = none := by
  unfold externalCallMade
  rw [if_pos away, load]

theorem externalCallMade_of_brings {loaded : Machine} (brought : m.Brings segment loaded) :
    externalCallMade segment procedure m = callMade segment procedure loaded := by
  unfold externalCallMade
  rcases brought with ⟨away, load⟩ | ⟨here, rfl⟩
  · rw [if_pos away, load]
  · rw [if_neg here]

/-- Whether a return with the given number of results gets back to the caller. -/
def getsBack (results : UInt8) (m : Machine) : Bool :=
  match readCaller m.memory m.mp, frameWords m.memory m.mp results.toNat with
  | .ok caller, .ok _ => succeeded (resume caller m)
  | _, _ => false

/-- Whether an instruction whose operand is a number of results gets back to the caller. -/
def returns (m : Machine) : Bool :=
  match fetchByte m with
  | .ok results m => getsBack results m
  | .error _ _ => false

/-- The way in which an instruction, whose operands are still to be fetched, gets back to the caller:
as from a base procedure, or as from an ordinary one. -/
def returningBy (m : Machine) : Encoding → Option Bool
  | .table .rnp => if m.returns then some false else none
  | .table .rbp => if m.returns then some true else none
  | _ => none

/-- The calls after the standard procedure EXIT, whose operands are still to be popped. -/
def callsExited (m : Machine) (calls : List Call) : List Call :=
  match pop m with
  | .ok procedure m =>
    match pop m with
    | .ok segment m =>
      if succeeded (exitProcedure segment.toUInt8 procedure.toUInt8 m) then
        Call.exited m.memory segment.toUInt8 procedure.toUInt8 calls
      else calls
    | .error _ _ => calls
  | .error _ _ => calls

/-- The calls after an instruction whose operands are still to be fetched. -/
def callsBy (m : Machine) (calls : List Call) : Encoding → List Call
  | .table .clp | .table .cgp | .table .cip | .table .cbp =>
    match fetchByte m with
    | .ok procedure m => (callMade m.seg procedure m).toList ++ calls
    | .error _ _ => calls
  | .table .cxp =>
    match fetchByte m with
    | .ok segment m =>
      match fetchByte m with
      | .ok procedure m => (externalCallMade segment procedure m).toList ++ calls
      | .error _ _ => calls
    | .error _ _ => calls
  | .table .rnp | .table .rbp => if m.returns then calls.tail else calls
  | .table .csp =>
    match fetchByte m with
    | .ok code m =>
      if StandardProcedure.ofCode? code = some .exit then m.callsExited calls else calls
    | .error _ _ => calls
  | _ => calls

/-- The calls after the next instruction. -/
def callsNext (m : Machine) (calls : List Call) : List Call :=
  match fetchByte m with
  | .ok opcode m => m.callsBy calls (Encoding.ofCode opcode)
  | .error _ _ => calls

/-- The way in which the next instruction gets back to the caller. -/
def returningNext (m : Machine) : Option Bool :=
  match fetchByte m with
  | .ok opcode m => m.returningBy (Encoding.ofCode opcode)
  | .error _ _ => none

/-- The machine on which the handler of a fault is called. -/
def announced (fault : Fault) (m : Machine) : Machine :=
  { endState (onMemory (Syscom.recordTrap fault m.currentAddress m.mp) m) with
    trapDepth := some m.depth }

/-- The call of the handler that follows the stop of an instruction. -/
def handlerCall (m : Machine) : Stop → Option Call
  | .trap .halt | .trap (.breakpoint _) => none
  | .trap fault =>
    if succeeded (deliver fault m) then callMade 0 handlerProcedure (m.announced fault) else none
  | _ => none

/-- The calls after a step. -/
def callsAfter (m : Machine) (calls : List Call) : List Call :=
  if m.halted then calls
  else
    match executeNext m.prepare with
    | .ok _ _ => m.prepare.callsNext calls
    | .error stop m' =>
      (handlerCall { m' with instructions := m'.instructions + 1 } stop).toList ++
        m.prepare.callsNext calls

/-! ## Runs -/

/-- The machines that one boot and any number of steps lead to, with the calls that are active, if
the program stores nothing in the headers of active frames and releases no segment more often than
it got it.  `rule` is what else the program is asked to keep to in each step. -/
inductive Traced (rule : Machine → List Call → Prop) :
    Machine → List Call → (got given : UInt8 → Nat) → Prop
  | boot {storage : Storage} {console : Console} {config : Config} {host : HostView}
      {limit : Option Nat} {unit : Word} {file : String} {loaded m : Machine} :
      SystemFits (create storage console config host limit) unit file →
      loadSystem unit file (create storage console config host limit) = .ok () loaded →
      boot unit file (create storage console config host limit) = .ok () m →
      Traced rule m (callMade 0 1 loaded).toList (fun _ => 0) (fun _ => 0)
  | step {m : Machine} {calls : List Call} {got given : UInt8 → Nat} :
      Traced rule m calls got given → m.LeavesHeaders →
      (∀ s, s ≠ 0 →
        given s + tally .relseg m.performedIn s ≤ got s + tally .getseg m.performedIn s) →
      rule m calls →
      Traced rule (endState (step m)) (m.callsAfter calls)
        (fun s => got s + tally .getseg m.performedIn s)
        (fun s => given s + tally .relseg m.performedIn s)
  /-- Between two steps the host may show something else. -/
  | observe {m : Machine} {calls : List Call} {got given : UInt8 → Nat} (host : HostView) :
      Traced rule m calls got given → Traced rule (m.observe host) calls got given

theorem Traced.counted {rule : Machine → List Call → Prop} {got given : UInt8 → Nat}
    (h : Traced rule m calls got given) : Counted m got given := by
  induction h with
  | boot fits _ booted => exact .boot fits booted
  | step _ kept owned _ ih => exact ih.step kept owned
  | observe host _ ih => exact ih.observe host

/-! ## Attribute tables in code -/

/-- The attribute table of an activation lies in a piece of code. -/
def InPart (m : Machine) (a : Activation) (part : Part) : Prop :=
  ∃ p, m.segments.placement? part = some p ∧ p.base.toNat + 8 ≤ a.jtab.toNat ∧
    a.jtab.toNat + 2 ≤ p.base.toNat + p.footprint

/-- The attribute table of an activation lies in the code of its own segment. -/
def InCode (m : Machine) (a : Activation) : Prop :=
  m.InPart a (.segment a.segment) ∨ a.segment = 0 ∧ m.InPart a .extension

instance (m : Machine) (a : Activation) (part : Part) : Decidable (m.InPart a part) :=
  match h : m.segments.placement? part with
  | some p => decidable_of_iff
      (p.base.toNat + 8 ≤ a.jtab.toNat ∧ a.jtab.toNat + 2 ≤ p.base.toNat + p.footprint)
      ⟨fun inside => ⟨p, h, inside⟩, fun ⟨_, placed, inside⟩ =>
        Option.some.inj (h.symm.trans placed) ▸ inside⟩
  | none => isFalse fun ⟨_, placed, _⟩ => by cases h.symm.trans placed

instance (m : Machine) (a : Activation) : Decidable (m.InCode a) :=
  inferInstanceAs (Decidable (_ ∨ _ ∧ _))

/-- The attribute table that a call read says the same in another memory. -/
structure Told (memory : Memory) (c : Call) : Prop where
  attributes : c.attributes.At memory c.jtab
  number : AttributeTable.number memory c.jtab = .ok c.number

end Machine

namespace Memory

variable {m m' : Memory} {a jtab : Address}

theorem readWord_congr (order : m'.order = m.order) (first : m'.readByte a = m.readByte a)
    (second : m'.readByte (a + 1) = m.readByte (a + 1)) : m'.readWord a = m.readWord a := by
  unfold readWord
  rw [first, second, order]

theorem toNat_sub_of_le {i : Nat} (h : i ≤ a.toNat) : (a - UInt16.ofNat i).toNat = a.toNat - i :=
  Store.sub_ofNat_toNat h

/-- An attribute table is read from ten bytes. -/
theorem table_congr (order : m'.order = m.order) (low : 8 ≤ jtab.toNat)
    (high : jtab.toNat + 2 ≤ 2 ^ 16)
    (bytes : ∀ x : Address, jtab.toNat ≤ x.toNat + 8 → x.toNat < jtab.toNat + 2 →
      m'.readByte x = m.readByte x) :
    (∀ i, i = 2 ∨ i = 4 ∨ i = 6 ∨ i = 8 →
      m'.readWord (jtab - UInt16.ofNat i) = m.readWord (jtab - UInt16.ofNat i)) ∧
    m'.readByte jtab = m.readByte jtab ∧ m'.readByte (jtab + 1) = m.readByte (jtab + 1) := by
  have second : (jtab + 1).toNat = jtab.toNat + 1 := Machine.toNat_add_ofNat (i := 1) (by omega)
  refine ⟨?_, bytes _ (by omega) (by omega), bytes _ (by omega) (by omega)⟩
  intro i hi
  have start : (jtab - UInt16.ofNat i).toNat = jtab.toNat - i := toNat_sub_of_le (by omega)
  have next : (jtab - UInt16.ofNat i + 1).toNat = jtab.toNat - i + 1 :=
    start ▸ Machine.toNat_add_ofNat (a := jtab - UInt16.ofNat i) (i := 1) (by omega)
  exact readWord_congr order (bytes _ (by omega) (by omega)) (bytes _ (by omega) (by omega))

end Memory

namespace Machine

variable {m m' m₁ m₂ : Machine} {calls calls' calls₁ : List Call} {n segment procedure : UInt8}

theorem Told.congr {memory memory' : Memory} {c : Call} (h : Told memory c)
    (words : ∀ i, i = 2 ∨ i = 4 ∨ i = 6 ∨ i = 8 →
      memory'.readWord (c.jtab - UInt16.ofNat i) = memory.readWord (c.jtab - UInt16.ofNat i))
    (first : memory'.readByte c.jtab = memory.readByte c.jtab)
    (second : memory'.readByte (c.jtab + 1) = memory.readByte (c.jtab + 1)) : Told memory' c where
  attributes :=
    { level := by
        have level := h.attributes.level
        unfold AttributeTable.level at level ⊢
        rwa [second]
      parameterBytes := (words 6 (by decide)).trans h.attributes.parameterBytes
      dataBytes := (words 8 (by decide)).trans h.attributes.dataBytes
      entry := by
        have entry := h.attributes.entry
        unfold AttributeTable.entry AttributeTable.follow at entry ⊢
        rwa [show c.jtab - 2 = c.jtab - UInt16.ofNat 2 from rfl, words 2 (by decide)] }
  number := first.trans h.number

end Machine

namespace Machine

/-! ## Moves -/

/-- A call made a frame, and its procedure was entered. -/
structure Made (segment : UInt8) (c : Call) (m m' : Machine) : Prop where
  entered : Entered c.attributes segment c.jtab m m'
  activation : c.activation = m'.current
  number : AttributeTable.number m.memory c.jtab = .ok c.number
  link : m.staticLinkFor c.level = .ok c.link
  base : c.base = m.base
  resume : c.resume = m.ipc
  sp : c.sp = m'.store.sp

/-- Only what the machine notes about its own execution changed. -/
def Noted (m m' : Machine) : Prop :=
  m' = { m with
    trapDepth := m'.trapDepth, currentAddress := m'.currentAddress, halted := m'.halted
    instructions := m'.instructions, history := m'.history }

/-- What can happen to a machine and its calls between calls and returns. -/
inductive Move : Machine → List Call → Machine → List Call → Prop
  | note {m m' : Machine} {calls : List Call} : Noted m m' → Move m calls m' calls
  | observe {m : Machine} {calls : List Call} (host : HostView) : Move m calls (m.observe host) calls
  /-- Work that stores nothing in headers. -/
  | work {m m' : Machine} {calls : List Call} :
    Works m m' → m.HeadersIn m'.memory → m'.Standing → Move m calls m' calls
  | exit {m : Machine} {calls : List Call} (segment procedure : UInt8) : 0 < m.depth →
    Move m calls (endState (exitProcedure segment procedure m))
      (if succeeded (exitProcedure segment procedure m) then
        Call.exited m.memory segment procedure calls else calls)
  | load {m m' : Machine} {calls : List Call} {n : UInt8} :
    loadSegment n m = .ok () m' → Move m calls m' calls
  | leave {m m' : Machine} {calls : List Call} {n : UInt8} :
    n ≠ 0 → leaveSegment n m = .ok () m' → m'.Standing → Move m calls m' calls

/-- Any number of moves. -/
inductive Moves : Machine → List Call → Machine → List Call → Prop
  | refl (m : Machine) (calls : List Call) : Moves m calls m calls
  | step {m m₁ m' : Machine} {calls calls₁ calls' : List Call} :
    Moves m calls m₁ calls₁ → Move m₁ calls₁ m' calls' → Moves m calls m' calls'

variable {m m' m₁ m₂ : Machine} {calls calls' calls₁ : List Call} {n segment procedure : UInt8}

/-- The machine went back to the caller, and took the base register from the stack if a base
procedure was left. -/
structure GoesBack (base : Bool) (m m₁ m' : Machine) : Prop where
  active : 0 < m.depth
  resumed : resume m.callerFrom m = .ok () m₁
  restored : m' = if base then endState (restoreBase m₁) else m₁
  standing : m'.Standing

/-- Moves, and a call after them if `entered`. -/
inductive Ends : (entered : Bool) → Machine → List Call → Machine → List Call → Prop
  | stays {m m' : Machine} {calls calls' : List Call} :
    Moves m calls m' calls' → Ends false m calls m' calls'
  | enters {m m₁ m₂ m' : Machine} {calls calls₁ : List Call} {segment : UInt8} {c : Call} :
    Moves m calls m₁ calls₁ → Made segment c m₁ m₂ → m₂.Standing → Noted m₂ m' →
    Ends true m calls m' (c :: calls₁)

/-- What an instruction or a step does to a machine and its calls, where `r` is its outcome: it
leaves the current procedure at most once, and enters another one only if it succeeds. -/
inductive Course (m : Machine) (calls : List Call) (r : EStateM.Result Stop Machine Unit) :
    List Call → (returning : Option Bool) → Prop
  | goesOn {calls' : List Call} {entered : Bool} : (entered = true → succeeded r = true) →
    Ends entered m calls (endState r) calls' → Course m calls r calls' none
  /-- A base register that makes no sense stops the machine. -/
  | goesBack {m₁ m₂ m₃ : Machine} {calls' : List Call} {base entered : Bool} :
    Moves m calls m₁ calls → m₁.memory = m.memory → GoesBack base m₁ m₂ m₃ →
    (∀ cause s, base = true → restoreBase m₂ = .error (.panic cause) s →
      ∃ s', r = .error (.panic cause) s') →
    (entered = true → succeeded r = true) →
    Ends entered m₃ calls.tail (endState r) calls' → Course m calls r calls' (some base)

theorem Moves.one (h : Move m calls m' calls') : Moves m calls m' calls' :=
  .step (.refl m calls) h

theorem Moves.trans {calls₂ : List Call} (h : Moves m calls m₁ calls₁)
    (h' : Moves m₁ calls₁ m₂ calls₂) : Moves m calls m₂ calls₂ := by
  induction h' with
  | refl => exact h
  | step _ move ih => exact .step (ih h) move

theorem Ends.after {calls₂ : List Call} {entered : Bool} (h : Moves m calls m₁ calls₁)
    (h' : Ends entered m₁ calls₁ m₂ calls₂) : Ends entered m calls m₂ calls₂ := by
  cases h' with
  | stays moves => exact .stays (h.trans moves)
  | enters moves made standing noted => exact .enters (h.trans moves) made standing noted

/-- What comes before, with the memory as it is. -/
theorem Course.after {r : EStateM.Result Stop Machine Unit} {returning : Option Bool}
    (h : Moves m calls m₁ calls) (memory : m₁.memory = m.memory)
    (course : Course m₁ calls r calls' returning) : Course m calls r calls' returning := by
  cases course with
  | goesOn ok ends => exact .goesOn ok (ends.after h)
  | goesBack moves same back panics ok ends =>
    exact .goesBack (h.trans moves) (same.trans memory) back panics ok ends

/-- What every move leaves as it is: code that stays in memory, the extension of segment 0, and what
was given to the machine when it was made. -/
structure Develops (m m' : Machine) : Prop where
  grows : Grows m m'
  extension : m.Secure → m'.segments.placement? .extension = m.segments.placement? .extension
  order : m'.memory.order = m.memory.order
  bound : m'.bound = m.bound

theorem Develops.of_quiet (h : Quiet m m') : Develops m m' where
  grows := (Settles.of_quiet h).grows
  extension _ := by rw [h.segments]
  order := h.memory.order
  bound := h.bound

theorem Develops.of_settles (h : Settles m m')
    (extension : m.Secure → m'.segments.placement? .extension = m.segments.placement? .extension)
    (order : m'.memory.order = m.memory.order) (bound : m'.bound = m.bound) : Develops m m' :=
  ⟨h.grows, extension, order, bound⟩

theorem develops_loadSegment (h : loadSegment n m = .ok () m') : Develops m m' := by
  have grows : Grows m m' := by
    have grown := grows_loadSegment (n := n) (m := m)
    rwa [h] at grown
  rcases loadSegment_cases h with ⟨e, failed⟩ | ⟨s, hs, ⟨resident, eq⟩ | ⟨absent, brought⟩⟩
  · cases failed
  · cases eq
    refine ⟨grows, fun _ => ?_, rfl, rfl⟩
    apply SegmentTable.placement?_modify
    intro s' hs'
    rw [hs] at hs'
    cases hs'
    refine ⟨?_, rfl, rfl⟩
    rw [resident]
    simp [Segment.isResident, Segment.countUp]
  · rcases bringIn_cases brought with ⟨e, failed⟩ | ⟨base, bytes, -, -, written⟩
    · cases failed
    cases hw : Memory.writeBytes base bytes m.memory with
    | error e memory =>
      rw [hw] at written
      cases written
    | ok u memory =>
      rw [hw] at written
      cases written
      have guarded : Memory.Guarded m.memory memory := Keeps.of_ok hw
      refine ⟨grows, fun secure => ?_, guarded.order, rfl⟩
      have number := secure.layout.entries.numbered n s hs
      have other := secure.other_of_absent hs absent
      -- the extension belongs to segment 0, which is never absent
      show (m.segments.modify s.number (Segment.putAt base)).placement? .extension = _
      rw [number]
      exact SegmentTable.placement?_modify_of_ne (by simp) fun _ => other

theorem develops_afterRelease {s : Segment} (hs : m.segments.get? n = some s)
    (resident : s.isResident = true) (other : n ≠ 0) : Develops m (m.afterRelease n s) :=
  .of_settles (settles_afterRelease hs resident other)
    (fun _ => SegmentTable.placement?_modify_of_ne (by simp) fun _ => other)
    (order_memoryAfterRelease _ _) rfl

theorem Develops.trans (h : Develops m m₁) (settles : Settles m₁ m')
    (h' : Develops m₁ m') : Develops m m' where
  grows := h.grows.trans_settles settles
  extension secure := (h'.extension (h.grows secure).1).trans (h.extension secure)
  order := h'.order.trans h.order
  bound := h'.bound.trans h.bound

theorem develops_reclaimed : Develops m m.reclaimed :=
  .of_settles settles_reclaimed (fun _ => rfl) rfl rfl

theorem develops_leaveSegment (other : n ≠ 0) (h : leaveSegment n m = .ok () m') :
    Develops m m' := by
  rcases leaveSegment_cases h with ⟨⟨e, failed⟩, -⟩ | ⟨s, hs, resident, eq⟩
  · cases failed
  · cases eq
    exact (develops_afterRelease hs resident other).trans settles_reclaimed develops_reclaimed

theorem Made.develops {c : Call} (h : Made segment c m m') : Develops m m' := by
  have registers := h.entered.registers
  have table : m'.segments =
      if c.attributes.level ≤ 0 then m.segments.modify segment (Segment.withDataBase m'.mp)
      else m.segments := by
    rw [registers]
  refine .of_settles (settles_entered h.entered) (fun _ => ?_) h.entered.store.memory.order
    (by rw [registers])
  rw [table]
  split
  · exact SegmentTable.placement?_modify (f := Segment.withDataBase m'.mp)
      (fun _ _ => ⟨rfl, rfl, rfl⟩) _
  · rfl

theorem Move.develops (h : Move m calls m' calls') : Develops m m' := by
  cases h with
  | note noted =>
    have noted : m' = _ := noted
    refine .of_settles (Settles.of_same ?_ ?_ ?_ ?_ ?_ ?_) (fun _ => ?_) ?_ ?_
    all_goals
      rw [noted]
      try rfl
  | observe host => exact .of_settles (Settles.observe m host) (fun _ => rfl) rfl rfl
  | work works => exact .of_quiet works.quiet
  | exit segment procedure =>
    exact .of_quiet ((quiet_of_works (exitProcedure segment procedure)).related m)
  | load loaded => exact develops_loadSegment loaded
  | leave other left => exact develops_leaveSegment other left

theorem settles_restored (base : Bool) (m : Machine) :
    Settles m (if base then endState (restoreBase m) else m) := by
  cases base with
  | false => exact Std.Refl.refl m
  | true => exact settles_restoreBase.related m

theorem develops_restoreBase (m : Machine) : Develops m (endState (restoreBase m)) := by
  have settles : Settles m (endState (restoreBase m)) := settles_restoreBase.related m
  rw [restoreBase_rest] at settles ⊢
  exact .of_settles settles (fun _ => rfl) rfl rfl

theorem develops_resume {caller : Caller} (h : resume caller m = .ok () m') : Develops m m' := by
  have back (entry : Address) : Develops m (m.backAt caller entry) :=
    .of_settles (Settles.of_same rfl rfl rfl rfl rfl rfl) (fun _ => rfl) rfl rfl
  rcases resume_cases h with
    ⟨e, -, failed⟩ | ⟨entry, -, ⟨-, eq⟩ | ⟨leaves, ⟨⟨e, failed⟩, -⟩ | ⟨s, hs, resident, eq⟩⟩⟩
  · cases failed
  · cases eq
    exact (back entry).trans settles_reclaimed develops_reclaimed
  · cases failed
  · cases eq
    have left : Develops (m.backAt caller entry) _ := develops_afterRelease hs resident leaves.2
    have settled : Settles (m.backAt caller entry) _ := settles_afterRelease hs resident leaves.2
    exact ((back entry).trans settled left).trans settles_reclaimed develops_reclaimed

theorem GoesBack.develops {base : Bool} (h : GoesBack base m m₁ m') : Develops m m' := by
  have first := develops_resume h.resumed
  have settles := settles_restored base m₁
  rw [h.restored]
  cases base with
  | false => exact first
  | true => exact first.trans settles (develops_restoreBase m₁)

end Machine
end PSystem
