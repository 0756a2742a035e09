import PSystem.Proofs.Exits
import PSystem.Proofs.StaticChain

/-!
# The call chain

The registers of a machine and the headers of its frames are a picture of the list of calls: the base
register is the frame of the innermost base procedure, the entry point is the one that the attribute
table of the current procedure states, and the chain that is read through the headers lists the calls
(`call_chain`).

This asks something of the program.  A base procedure finds the base register of its caller on the
evaluation stack when it returns, so nobody may change it there, and procedures have to return as they
were called (`Disciplined`).
-/

namespace PSystem

namespace Call

variable {c : Call} {calls calls' : List Call}

/-! ## What registers and headers say of calls -/

/-- The frame of the innermost base procedure; 0 if there is none. -/
def baseOf : List Call → Address
  | [] => 0
  | c :: older => if c.level ≤ 0 then c.frame else baseOf older

/-- The entry point of the current procedure; 0 if there is none. -/
def entryPoint : List Call → Address
  | [] => 0
  | c :: _ => c.attributes.entry

/-- Each call notes the base register that its caller had. -/
def Based : List Call → Prop
  | [] => True
  | c :: older => c.base = baseOf older ∧ Based older

/-- The active frames, innermost first, where the current procedure is at `ipc`. -/
def summaries : (ipc : Word) → List Call → List FrameSummary
  | _, [] => []
  | ipc, c :: older =>
    { mp := c.frame, segment := c.activation.segment, procedure := c.number, level := c.level, ipc }
      :: summaries c.resume older

theorem baseOf_sameFrames (h : List.Forall₂ SameFrame calls calls') :
    baseOf calls' = baseOf calls := by
  induction h with
  | nil => rfl
  | cons same _ ih =>
    rw [baseOf, baseOf, ih, same]
    rfl

theorem entryPoint_sameFrames (h : List.Forall₂ SameFrame calls calls') :
    entryPoint calls' = entryPoint calls := by
  cases h with
  | nil => rfl
  | cons same _ =>
    rw [same]
    rfl

theorem Based.sameFrames (based : Based calls) (h : List.Forall₂ SameFrame calls calls') :
    Based calls' := by
  induction h with
  | nil => trivial
  | cons same others ih =>
    refine ⟨?_, ih based.2⟩
    rw [baseOf_sameFrames others, same]
    exact based.1

end Call

namespace Machine

variable {m m' m₁ m₂ : Machine} {calls calls' rest : List Call} {c : Call} {segment : UInt8}
  {base entered : Bool}

/-! ## The bounds of the evaluation stack -/

/-- A pointer into the evaluation stack, or to its bottom. -/
def InStack (sp : Address) : Prop :=
  Store.limit ≤ sp ∧ sp < Store.top + 2

/-- The stack pointers that returns go back to are in the stack, and base procedures have something to
pop there. -/
def Pointed (m : Machine) (calls : List Call) : Prop :=
  InStack m.store.sp ∧ ∀ c ∈ calls, InStack c.sp ∧ (c.level ≤ 0 → c.sp < Store.top)

theorem Pointed.sameFrames (h : Pointed m calls) (same : List.Forall₂ Call.SameFrame calls calls')
    (sp : InStack m'.store.sp) : Pointed m' calls' := by
  refine ⟨sp, fun c' hc' => ?_⟩
  obtain ⟨c, hc, eq⟩ := Call.mem_sameFrame same hc'
  rw [eq]
  exact h.2 c hc

theorem InStack.works (h : InStack m.store.sp) (works : Works m m') : InStack m'.store.sp :=
  ⟨works.store.quiet.bounded h.1, works.store.capped h.2⟩

theorem InStack.restored (h : InStack m.store.sp) : InStack (endState (restoreBase m)).store.sp := by
  have popped (room : ¬ Store.top ≤ m.store.sp) : InStack (m.store.sp + 2) :=
    ⟨Store.limit_le_add_two room h.1, Store.capped_add_two (s := m.store) room⟩
  rcases restoreBase_cases (rfl : restoreBase m = _) with
    ⟨e, eq, -⟩ | ⟨base, room, -, ⟨-, eq⟩ | ⟨-, eq⟩⟩
  · rw [eq]
    exact h
  all_goals
    rw [eq]
    exact popped room

/-- The stack pointer of a new frame. -/
theorem InStack.made (h : InStack m.store.sp) (made : Made segment c m m') :
    InStack c.sp ∧ (c.level ≤ 0 → c.sp < Store.top) := by
  obtain ⟨sum, within⟩ := toNat_drop made.entered.enough
  have low := UInt16.le_iff_toNat_le.1 h.1
  have high := UInt16.lt_iff_toNat_lt.1 h.2
  change 0xF000 ≤ m.store.sp.toNat at low
  change m.store.sp.toNat < 0xFFF2 at high
  have bounded := made.entered.store.bounded h.1
  have sp := made.entered.sp
  rw [← made.sp] at bounded sp
  change c.sp = if c.level ≤ 0 then _ else _ at sp
  by_cases outer : c.level ≤ 0
  · -- the base register of the caller is pushed on what the parameters leave
    rw [if_pos outer] at sp
    have place : c.sp.toNat = m.store.sp.toNat + c.attributes.parameterBytes.toNat - 2 := by
      rw [sp, UInt16.toNat_sub_of_le _ _ (UInt16.le_iff_toNat_le.2 (by
        rw [sum]
        show 2 ≤ _
        omega)), sum]
      rfl
    have below : c.sp < Store.top := UInt16.lt_iff_toNat_lt.2 (by
      show _ < 0xFFF0
      omega)
    exact ⟨⟨bounded, UInt16.lt_trans below (by decide)⟩, fun _ => below⟩
  · rw [if_neg outer] at sp
    have capped : Store.Capped { m.store with sp := m.store.sp + c.attributes.parameterBytes } :=
      capped_drop h.2 made.entered.enough
    exact ⟨⟨bounded, sp ▸ capped⟩, fun inner => absurd inner outer⟩

/-! ## What moves leave alone -/

/-- Between calls and returns, the base register, the entry point and the bounds of the stack stay. -/
theorem Move.registers (standing : m.Standing) (h : Move m calls m' calls') :
    m'.base = m.base ∧ m'.ipcBase = m.ipcBase ∧ (InStack m.store.sp → InStack m'.store.sp) := by
  have worked {m' : Machine} (works : Works m m') :
      m'.base = m.base ∧ m'.ipcBase = m.ipcBase ∧ (InStack m.store.sp → InStack m'.store.sp) :=
    ⟨works.quiet.base, works.quiet.ipcBase, fun sp => sp.works works⟩
  -- only EXIT and plain work may move the stack pointer, and stay within the stack
  cases h with
  | note noted =>
    rw [show m' = _ from noted]
    exact ⟨rfl, rfl, id⟩
  | observe host => exact ⟨rfl, rfl, id⟩
  | work works => exact worked works
  | exit segment procedure => exact worked ((works_exitProcedure segment procedure).related m)
  | load loaded =>
    rcases loadSegment_outcome standing.secure.layout loaded with
      ⟨e, failed⟩ | ⟨s, -, ⟨-, eq⟩ | ⟨-, base, bytes, memory, -, eq⟩⟩
    · cases failed
    all_goals
      cases eq
      exact ⟨rfl, rfl, id⟩
  | leave other left =>
    rcases leaveSegment_cases left with ⟨⟨e, failed⟩, -⟩ | ⟨s, -, -, eq⟩
    · cases failed
    · cases eq
      exact ⟨rfl, rfl, id⟩

/-- A return goes back to the stack pointer that the call noted. -/
theorem Tracked.wentBack_sp (h : Tracked m (c :: rest)) (back : GoesBack base m m₁ m') :
    m₁.store.sp = c.sp := by
  have frame : c.frame = m.mp := congrArg Activation.frame h.current
  have sp := (h.headers c List.mem_cons_self).2
  rw [frame] at sp
  rw [(wentBack back.resumed).sp, ← sp]
  rfl

theorem preserved_pointed : Preserved Pointed where
  move := by
    intro m m' calls calls' tracked _ move h
    exact h.sameFrames move.sameFrames ((move.registers tracked.standing).2.2 h.1)
  made := by
    intro m m' calls segment c _ _ made h
    have new := h.1.made made
    refine ⟨made.sp ▸ new.1, fun d hd => ?_⟩
    rcases List.mem_cons.1 hd with rfl | hd
    · exact new
    · exact h.2 d hd
  back := by
    intro m m₁ m' calls base tracked _ back h
    cases calls with
    | nil => exact absurd tracked.length (Nat.ne_of_lt back.active)
    | cons c rest =>
      have sp := tracked.wentBack_sp back
      have own := (h.2 c List.mem_cons_self).1
      rw [← sp] at own
      refine ⟨?_, fun d hd => h.2 d (List.mem_cons_of_mem c hd)⟩
      rw [back.restored]
      cases base with
      | false => exact own
      -- a base procedure also drops the base register that its caller pushed
      | true => exact own.restored

theorem pointed_of_loaded {fresh : Machine} (hfresh : fresh.Fresh) (ready : Loaded fresh m) :
    Pointed m [] := by
  have sp : m.store.sp = Store.top := by
    rw [ready.rest]
    exact hfresh.sp
  refine ⟨?_, fun c hc => by cases hc⟩
  rw [sp]
  exact ⟨by decide, by decide⟩

/-! ## Registers -/

/-- The registers and the headers of frames are as the calls say. -/
structure Registered (m : Machine) (calls : List Call) : Prop where
  base : m.base = Call.baseOf calls
  based : Call.Based calls
  entry : m.ipcBase = Call.entryPoint calls
  resumes : Resumes m calls

/-- Between calls and returns, only EXIT changes where callers go on. -/
theorem Move.resumes (tracked : Tracked m calls) (stacked : Stacked m calls) (coded : m.Coded calls)
    (move : Move m calls m' calls') (resumes : Resumes m calls) : Resumes m' calls' := by
  have kept {m' : Machine} (order : m'.memory.order = m.memory.order)
      (headers : m.HeadersIn m'.memory) : Resumes m' calls := by
    intro c hc
    have bytes (i : Nat) (hi : i < 14) := headers _ (tracked.active hc) i hi
    exact (word_of_header (i := 10) order (bytes 10 (by decide)) (bytes 11 (by decide))).trans
      (resumes c hc)
  have order := move.develops.order
  -- only EXIT writes to headers, and it sets the places where calls resume
  cases move with
  | note noted =>
    refine kept order fun a _ i _ => ?_
    rw [show m' = _ from noted]
    rfl
  | observe host => exact kept order fun _ _ _ _ => rfl
  | work works headers => exact kept order headers
  | exit segment procedure active => exact tracked.resumes_exit stacked coded active resumes
  | load loaded =>
    rcases tracked.standing.loadSegment_cases loaded with
      ⟨e, failed⟩ | ⟨_, eq, -, -, -, -, headers, -⟩
    · cases failed
    · cases eq
      exact kept order headers
  | leave other left => exact kept order fun a _ i _ => bytes_leaveSegment left _

theorem Registered.move (h : Registered m calls) (tracked : Tracked m calls)
    (stacked : Stacked m calls) (coded : m.Coded calls) (move : Move m calls m' calls') :
    Registered m' calls' := by
  obtain ⟨base, entry, -⟩ := move.registers tracked.standing
  have same := move.sameFrames
  exact
    { base := by rw [base, h.base, Call.baseOf_sameFrames same]
      based := h.based.sameFrames same
      entry := by rw [entry, h.entry, Call.entryPoint_sameFrames same]
      resumes := move.resumes tracked stacked coded h.resumes }

theorem Registered.moves (h : Registered m calls) (tracked : Tracked m calls)
    (stacked : Stacked m calls) (coded : m.Coded calls) (moves : Moves m calls m' calls') :
    Registered m' calls' := by
  induction moves with
  | refl => exact h
  | step before move ih =>
    exact (ih h tracked stacked coded).move (tracked.moves before)
      (preserved_stacked.moves tracked stacked before) (tracked.coded_moves before coded) move

theorem Registered.made (h : Registered m calls) (tracked : Tracked m calls)
    (made : Made segment c m m') : Registered m' (c :: calls) := by
  have registers := made.entered.registers
  have frame : c.frame = m'.mp := congrArg Activation.frame made.activation
  have base : m'.base = if c.level ≤ 0 then m'.mp else m.base := by rw [registers]; rfl
  have entry : m'.ipcBase = c.attributes.entry := by rw [registers]
  obtain ⟨link, -, header⟩ := made.entered.header
  refine ⟨?_, ⟨?_, h.based⟩, entry, ?_⟩
  · rw [base, ← frame, h.base]
    rfl
  · rw [made.base, h.base]
  · intro d hd
    rcases List.mem_cons.1 hd with rfl | hd
    · rw [frame, made.resume]
      exact header.savedIpc
    · have bytes (i : Nat) (hi : i < 14) :=
        made.headers tracked.standing _ (tracked.active hd) i hi
      exact (word_of_header (i := 10) made.develops.order (bytes 10 (by decide))
        (bytes 11 (by decide))).trans (h.resumes d hd)

/-- The entry point that the attribute table of the current procedure states. -/
theorem Tracked.entryOf_jtab (h : Tracked m calls) {memory : Memory}
    (told : ∀ c ∈ calls, Told memory c) :
    entryOf memory m.jtab = .ok (Call.entryPoint calls) := by
  unfold entryOf
  cases calls with
  | nil =>
    have none : m.jtab = 0 := congrArg Activation.jtab h.idle
    rw [if_pos none]
    rfl
  | cons c rest =>
    have jtab : c.jtab = m.jtab := congrArg Activation.jtab h.current
    rw [if_neg h.jtab_ne_zero, ← jtab]
    exact (told c List.mem_cons_self).attributes.entry

/-- The entry point after a return is that of the caller, if its table lies in code. -/
theorem Tracked.entryPoint_back (h : Tracked m (c :: rest)) (coded : m.Coded (c :: rest))
    (back : GoesBack base m m₁ m') : m'.ipcBase = Call.entryPoint rest := by
  have went := wentBack back.resumed
  have found := went.entry
  have current : m'.current = m.current.caller m.memory := by
    rw [back.rest]
    exact went.current
  change entryOf m.memory (m.current.caller m.memory).jtab = _ at found
  rw [← current] at found
  have outside : Tracked m' rest := h.back back
  have stated := outside.entryOf_jtab fun d hd =>
    h.told d (List.mem_cons_of_mem c hd) (coded d (List.mem_cons_of_mem c hd))
  rw [show m'.ipcBase = m₁.ipcBase by rw [back.rest]]
  exact Except.ok.inj (found.symm.trans stated)

/-- A base procedure that returns as one restores the base register from the stack, as it is found
there, unless this stops the machine. -/
theorem Tracked.base_back (h : Tracked m (c :: rest)) (pointed : Pointed m (c :: rest))
    (back : GoesBack true m m₁ m') (outer : c.level ≤ 0)
    (valid : ∀ cause s, restoreBase m₁ ≠ .error (.panic cause) s) :
    m'.base = m.memory.peekWord c.sp := by
  have went := wentBack back.resumed
  have sp := h.wentBack_sp back
  have develops := develops_resume back.resumed
  obtain ⟨⟨low, -⟩, below⟩ := pointed.2 c List.mem_cons_self
  have room := below outer
  rw [UInt16.le_iff_toNat_le] at low
  rw [UInt16.lt_iff_toNat_lt] at room
  change 0xF000 ≤ c.sp.toNat at low
  change c.sp.toNat < 0xFFF0 at room
  -- the stack pointer is above the heap, so the word there can be read
  have read := readWord_above (i := 0) (develops.grows h.standing.secure).1.layout.unmapped
    (UInt16.le_iff_toNat_le.2 (by
      show 0x100 ≤ c.sp.toNat
      omega) : Heap.start ≤ c.sp) (by omega)
  rw [show c.sp + UInt16.ofNat 0 = c.sp from UInt16.add_zero _] at read
  have same : m₁.memory.peekWord c.sp = m.memory.peekWord c.sp :=
    Memory.peekWord_congr develops.order (went.bytes _) (went.bytes _)
  rw [back.restored]
  rcases restoreBase_cases (rfl : restoreBase m₁ = _) with
    ⟨e, -, empty | unread⟩ | ⟨base, -, found, ⟨-, eq⟩ | ⟨-, eq⟩⟩
  · have atop := UInt16.le_iff_toNat_le.1 empty.1
    rw [sp] at atop
    change 0xFFF0 ≤ c.sp.toNat at atop
    omega
  · rw [sp, read] at unread
    cases unread
  · rw [sp, read] at found
    cases found
    rw [if_pos rfl, eq]
    exact same
  · exact absurd eq (valid _ _)

/-- A return goes back to what the registers were at the call, if it is of the kind of the call, and
a base procedure still finds the base register of its caller. -/
theorem Registered.back (h : Registered m (c :: rest)) (tracked : Tracked m (c :: rest))
    (pointed : Pointed m (c :: rest)) (coded : m.Coded (c :: rest)) (back : GoesBack base m m₁ m')
    (kind : base = true ↔ c.level ≤ 0) (saved : c.level ≤ 0 → m.memory.peekWord c.sp = c.base)
    (valid : ∀ cause s, base = true → restoreBase m₁ ≠ .error (.panic cause) s) :
    Registered m' rest where
  base := by
    have before := h.base
    rw [Call.baseOf] at before
    cases base with
    | false =>
      have inner : ¬ c.level ≤ 0 := fun outer => nomatch kind.2 outer
      rw [if_neg inner] at before
      rw [back.restored]
      exact (wentBack back.resumed).base.trans before
    | true =>
      have outer := kind.1 rfl
      rw [tracked.base_back pointed back outer fun cause s => valid cause s rfl, saved outer]
      exact h.based.1
  based := h.based.2
  entry := tracked.entryPoint_back coded back
  resumes := fun d hd => (Memory.peekWord_congr back.develops.order (back.bytes _)
    (back.bytes _)).trans (h.resumes d (List.mem_cons_of_mem c hd))

/-! ## Steps of disciplined programs -/

/-- Base procedures that are active find the base register of their caller on the stack. -/
def Saved (memory : Memory) (calls : List Call) : Prop :=
  ∀ c ∈ calls, c.level ≤ 0 → memory.peekWord c.sp = c.base

/-- The calls that a step leaves active. -/
def staying (m : Machine) (calls : List Call) : List Call :=
  if m.returning.isSome then calls.tail else calls

/-- What a program keeps to in a step: the step succeeds, base procedures and no others return as
such, and the saved base registers of the procedures that stay active are left alone. -/
structure Orderly (m : Machine) (calls : List Call) : Prop where
  succeeds : succeeded (step m) = true
  kind : ∀ base ∈ m.returning, ∀ c ∈ calls.head?, base = true ↔ c.level ≤ 0
  saved : ∀ c ∈ m.staying calls, c.level ≤ 0 →
    (endState (step m)).memory.peekWord c.sp = m.memory.peekWord c.sp

/-- An orderly step while the attribute tables of active procedures lie in code. -/
structure Disciplined (m : Machine) (calls : List Call) : Prop extends Orderly m calls where
  coded : m.Coded calls

instance (m : Machine) (calls : List Call) : Decidable (Orderly m calls) :=
  decidable_of_iff (succeeded (step m) = true ∧
      (∀ base ∈ m.returning, ∀ c ∈ calls.head?, base = true ↔ c.level ≤ 0) ∧
      ∀ c ∈ m.staying calls, c.level ≤ 0 →
        (endState (step m)).memory.peekWord c.sp = m.memory.peekWord c.sp)
    ⟨fun ⟨succeeds, kind, saved⟩ => ⟨succeeds, kind, saved⟩,
      fun ⟨succeeds, kind, saved⟩ => ⟨succeeds, kind, saved⟩⟩

instance (m : Machine) (calls : List Call) : Decidable (Disciplined m calls) :=
  decidable_of_iff (Orderly m calls ∧ m.Coded calls)
    ⟨fun ⟨orderly, coded⟩ => ⟨orderly, coded⟩, fun h => ⟨h.toOrderly, h.coded⟩⟩

theorem Saved.sameFrames {memory : Memory} (h : Saved memory calls)
    (same : List.Forall₂ Call.SameFrame calls calls') : Saved memory calls' := by
  intro c' hc'
  obtain ⟨c, hc, eq⟩ := Call.mem_sameFrame same hc'
  rw [eq]
  exact h c hc

/-- The picture is right after moves and at most one call. -/
theorem Registered.ends (h : Registered m calls) (tracked : Tracked m calls)
    (stacked : Stacked m calls) (coded : m.Coded calls) (saved : Saved m'.memory calls)
    (ends : Ends entered m calls m' calls') : Registered m' calls' ∧ Saved m'.memory calls' := by
  cases ends with
  | stays moves =>
    exact ⟨h.moves tracked stacked coded moves, saved.sameFrames moves.sameFrames⟩
  | @enters _ m₁ m₂ _ _ calls₁ segment c before made standing noted =>
    have there := tracked.moves before
    have inside := (h.moves tracked stacked coded before).made there made
    have entered := there.made made standing
    have same : m'.memory = m₂.memory := by
      rw [show m' = _ from noted]
      rfl
    refine ⟨?_, fun d hd outer => ?_⟩
    · rw [show m' = _ from noted]
      exact ⟨inside.base, inside.based, inside.entry, inside.resumes⟩
    · rcases List.mem_cons.1 hd with rfl | hd
      · rw [same, made.sp, made.base]
        exact (made.entered.savedBase outer).2.2
      · exact saved.sameFrames before.sameFrames d hd outer

/-- A step of a disciplined program keeps the picture right. -/
theorem Registered.after_step (h : Registered m calls) (tracked : Tracked m calls)
    (stacked : Stacked m calls) (pointed : Pointed m calls) (saved : Saved m.memory calls)
    (disciplined : Disciplined m calls)
    (course : Course m calls (step m) calls' m.returning) :
    Registered (endState (step m)) calls' ∧ Saved (endState (step m)).memory calls' := by
  have coded := disciplined.coded
  have kept : Saved (endState (step m)).memory (m.staying calls) := by
    intro c hc outer
    have member : c ∈ calls := by
      unfold staying at hc
      split at hc
      · exact List.mem_of_mem_tail hc
      · exact hc
    rw [disciplined.saved c hc outer]
    exact saved c member outer
  have kind := disciplined.kind
  unfold staying at kept
  generalize m.returning = returning at course kind kept
  cases course with
  | goesOn ok ends => exact h.ends tracked stacked coded kept ends
  | @goesBack m₁ m₂ m₃ _ base entered before memory back panics ok ends =>
    cases calls with
    | nil =>
      have active := (tracked.moves before).length
      exact absurd active (Nat.ne_of_lt back.active)
    | cons c rest =>
      have there := tracked.moves before
      have coded₁ := tracked.coded_moves before coded
      have stacked₁ := preserved_stacked.moves tracked stacked before
      have h₁ := h.moves tracked stacked coded before
      have back_ := h₁.back there (preserved_pointed.moves tracked pointed before) coded₁ back
        (kind base rfl c rfl)
        (fun outer => by rw [memory]; exact saved c List.mem_cons_self outer)
        (fun cause s base panic => by
          -- a step that succeeds does not stop the machine
          obtain ⟨s', eq⟩ := panics cause s base panic
          have succeeds := disciplined.succeeds
          rw [eq] at succeeds
          cases succeeds)
      have outside : Tracked m₃ rest := there.back back
      refine back_.ends outside (preserved_stacked.back there outside back stacked₁) ?_ kept ends
      intro d hd
      exact (there.inCode_back back hd).2 (coded₁ d (List.mem_cons_of_mem c hd))

/-! ## The chain in memory -/

/-- The chain that is read through the headers lists the calls. -/
theorem chainFrom_calls {memory : Memory} {n low : Nat} {a : Activation} (ipc : Word)
    (rooted : Activation.Rooted memory calls.length low a)
    (chained : calls.map Call.activation = Activation.chain memory calls.length a)
    (tables : ∀ c ∈ calls, memory.peekByte c.jtab = c.number ∧
      signedByte (memory.peekByte (c.jtab + 1)) = c.level)
    (resumes : ∀ c ∈ calls, memory.peekWord (c.frame + Frame.savedIpc) = c.resume) :
    chainFrom memory n a.frame a.jtab a.segment ipc = (Call.summaries ipc calls).take n := by
  -- the walk from frame to frame follows the calls from the innermost one outward
  induction calls generalizing n low ipc a with
  | nil =>
    cases n with
    | zero => rfl
    | succ n =>
      rw [show a = Activation.nothing from rooted]
      rfl
  | cons c older ih =>
    cases n with
    | zero => rfl
    | succ n =>
      obtain ⟨-, start, -, table, -, above⟩ := rooted
      have caller : Activation.chain memory (older.length + 1) a =
        a :: Activation.chain memory older.length (a.caller memory) := rfl
      obtain ⟨current, later⟩ := List.cons.inj (chained.trans caller)
      have some_ : ¬ (a.frame = 0 ∨ a.jtab = 0) := by
        rintro (zero | zero)
        · rw [zero] at start
          exact absurd start (by decide)
        · rw [zero] at table
          exact absurd table (by decide)
      obtain ⟨number, level⟩ := tables c List.mem_cons_self
      have resume := resumes c List.mem_cons_self
      have rest := ih (n := n) c.resume above later
        (fun d hd => tables d (List.mem_cons_of_mem c hd))
        (fun d hd => resumes d (List.mem_cons_of_mem c hd))
      unfold Call.frame Call.jtab at *
      rw [current] at number level resume
      rw [chainFrom, if_neg some_, number, level, resume]
      unfold Call.summaries
      rw [List.take_succ_cons, ← rest]
      unfold Call.frame
      rw [current]
      rfl

/-- What is read of attribute tables in code without checks. -/
theorem Tracked.table_peek (h : Tracked m calls) (coded : m.Coded calls) (hc : c ∈ calls) :
    m.memory.peekByte c.jtab = c.number ∧
      signedByte (m.memory.peekByte (c.jtab + 1)) = c.level := by
  have layout := h.standing.secure.layout
  obtain ⟨low, high⟩ := (coded c hc).bounds h.start layout
  change 0x108 ≤ c.jtab.toNat at low
  change c.jtab.toNat + 2 ≤ 0xF000 at high
  have told := h.told c hc (coded c hc)
  have read (x : Address) (above : 0x100 ≤ x.toNat) :
      m.memory.readByte x = .ok (m.memory.peekByte x) := by
    have plain : Heap.start ≤ x := UInt16.le_iff_toNat_le.2 above
    exact Memory.readByte_unmapped (ne_zero_of_start plain) (layout.unmapped x plain)
  have next : (c.jtab + 1).toNat = c.jtab.toNat + 1 := toNat_add_ofNat (i := 1) (by omega)
  constructor
  · have number : m.memory.readByte c.jtab = .ok c.number := told.number
    rw [read _ (by omega)] at number
    exact Except.ok.inj number
  · have level := told.attributes.level
    unfold AttributeTable.level at level
    rw [read _ (by omega)] at level
    exact Except.ok.inj level

/-! ## Runs -/

theorem Traced.registered {got given : UInt8 → Nat} (h : Traced Disciplined m calls got given) :
    Registered m calls ∧ Saved m.memory calls := by
  have nothing {memory : Memory} : Saved memory [] := by
    intro c hc
    cases hc
  induction h with
  | @boot storage console config host limit unit file loaded m fits loading booted =>
    have hfresh := fresh_create storage console config host limit
    obtain ⟨ready, tracked, entered, ends⟩ := ends_of_boot hfresh (hosted_create _ _ _ _ _) fits
      loading booted
    obtain ⟨-, base, -, -, -, entry, -⟩ := hfresh.outermost
    have registered : Registered loaded [] :=
      { base := by
          rw [ready.rest]
          exact base
        based := trivial
        entry := by
          rw [ready.rest]
          exact entry
        resumes := by
          intro c hc
          cases hc }
    -- before the first procedure is entered there are no calls
    refine registered.ends tracked (stacked_of_loaded ready) ?_ nothing ends
    intro c hc
    cases hc
  | step run kept owned disciplined ih =>
    obtain ⟨tracked, stacked⟩ :=
      run.preserved preserved_stacked fun _ ready => stacked_of_loaded ready
    obtain ⟨-, pointed⟩ := run.preserved preserved_pointed fun hfresh ready => pointed_of_loaded hfresh ready
    have balanced := balanced_of_counted run.counted
    exact ih.1.after_step tracked stacked pointed ih.2 disciplined
      (tracked.course_step kept (balanced.spare owned))
  | observe host _ ih =>
    obtain ⟨registered, saved⟩ := ih
    exact ⟨⟨registered.base, registered.based, registered.entry, registered.resumes⟩, saved⟩

/-- The registers and the frames in memory are a picture of the list of calls, as long as the program
is disciplined and the attribute tables of active procedures lie in code. -/
theorem call_chain {got given : UInt8 → Nat} (h : Traced Disciplined m calls got given)
    (coded : m.Coded calls) :
    calls.map Call.activation = m.activations ∧ m.depth = calls.length ∧
      m.base = Call.baseOf calls ∧ entryOf m.memory m.jtab = .ok m.ipcBase ∧
      m.callChain = (Call.summaries m.ipc calls).take (min m.depth maxChain) := by
  obtain ⟨registered, -⟩ := h.registered
  have tracked := h.tracked
  have length := tracked.length
  refine ⟨tracked.actives, length.symm, registered.base, ?_, ?_⟩
  · rw [registered.entry]
    exact tracked.entryOf_jtab fun c hc => tracked.told c hc (coded c hc)
  · have rooted := tracked.standing.rooted
    have chained : calls.map Call.activation = Activation.chain m.memory m.depth m.current :=
      tracked.actives
    rw [← length] at rooted chained
    have listed := fun n => chainFrom_calls (n := n) m.ipc rooted chained
      (fun c hc => tracked.table_peek coded hc) registered.resumes
    refine (listed _).trans ?_
    cases calls with
    | nil => rw [Call.summaries, List.take_nil, List.take_nil]
    | cons c rest =>
      rw [← length, List.length_cons, Nat.max_eq_left (Nat.succ_pos _)]

/-- A base procedure calls another one, which returns, and then an ordinary procedure. -/
def basing : List SegmentSpec :=
  [{ number := 0
     name := "KERNEL"
     procedures :=
       [{ level := 0
          body := some { code := [Opcode.cbp.code, 2, Opcode.clp.code, 3, Opcode.xit.code] } },
         { level := 0, body := some { code := [Opcode.rbp.code, 0] } },
         { level := 1, body := some { code := [Opcode.rnp.code, 0] } }] }]

/-- The ordinary procedure is active. -/
def basingTrace : Machine × List Call :=
  trace 3 (started basing) (callMade 0 1 (unstarted basing)).toList

theorem basingTrace_run :
    starts basing = true ∧
    obeysFor (fun m calls => decide (Disciplined m calls)) 3 (started basing)
      (callMade 0 1 (unstarted basing)).toList = true ∧
    basingTrace.2.map Call.level = [1, 0] ∧ basingTrace.1.Coded basingTrace.2 := by
  decide +kernel

theorem call_chain_basing :
    ∃ m calls got given, Traced Disciplined m calls got given ∧ m.Coded calls ∧
      calls.map Call.level = [1, 0] ∧ m.depth = 2 ∧ m.base = Call.baseOf calls ∧
      entryOf m.memory m.jtab = .ok m.ipcBase ∧
      m.callChain = (Call.summaries m.ipc calls).take 2 := by
  obtain ⟨starts, obeyed, levels, coded⟩ := basingTrace_run
  obtain ⟨got, given, run⟩ : ∃ got given,
      Traced Disciplined basingTrace.1 basingTrace.2 got given :=
    (traced_started Disciplined starts).steps (fun _ _ => of_decide_eq_true)
      (fun _ => Nat.le_refl 0) obeyed
  obtain ⟨-, depth, base, entry, chain⟩ := call_chain run coded
  have length : basingTrace.2.length = 2 := by
    rw [← List.length_map (f := Call.level), levels]
    rfl
  have depth : basingTrace.1.depth = 2 := depth.trans length
  rw [show min basingTrace.1.depth maxChain = 2 by rw [depth]; rfl] at chain
  exact ⟨basingTrace.1, basingTrace.2, got, given, run, coded, levels, depth, base, entry, chain⟩

/-- A procedure has changed the entry point that its attribute table states. -/
def movedTrace : Machine × List Call :=
  traceParts 10 (selfWritten 0x1FE 0)

theorem movedTrace_run :
    runsParts (fun m calls => decide (Orderly m calls)) 10 (selfWritten 0x1FE 0) = true ∧
      entryOf movedTrace.1.memory movedTrace.1.jtab ≠ .ok movedTrace.1.ipcBase := by
  decide +kernel

/-- Without tables in code the register of the entry point need not be what the table of the current
procedure states, in an orderly program too. -/
theorem entry_of_changed_table :
    ∃ m calls got given, Traced Orderly m calls got given ∧
      entryOf m.memory m.jtab ≠ .ok m.ipcBase := by
  obtain ⟨runs, moved⟩ := movedTrace_run
  obtain ⟨got, given, run⟩ := traced_runsParts (fun _ _ => of_decide_eq_true) runs
  exact ⟨movedTrace.1, movedTrace.2, got, given, run, moved⟩

end Machine
end PSystem
