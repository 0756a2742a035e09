import Mathlib.Data.List.Forall2
import PSystem.Proofs.CallStack

/-!
# Calls and frames

`Tracked` says that a list of calls names the frames in memory, innermost first, that their headers
keep what was written at the call, and that an attribute table in the code of its own segment still
says what it said then.  Every move and every way back to a caller keeps it.
-/

namespace PSystem

namespace Call

variable {c c' : Call} {calls calls' : List Call} {memory : Memory} {segment procedure : UInt8}

/-! ## EXIT -/

/-- A call that may have another place for its caller to go on. -/
def SameFrame (c c' : Call) : Prop :=
  c' = { c with resume := c'.resume }

theorem forall₂_refl (calls : List Call) : List.Forall₂ SameFrame calls calls :=
  List.forall₂_same.2 fun _ _ => rfl

theorem SameFrame.symm (h : SameFrame c c') : SameFrame c' c := by
  unfold SameFrame at h ⊢
  rw [h]

theorem forall₂_symm (h : List.Forall₂ SameFrame calls calls') :
    List.Forall₂ SameFrame calls' calls :=
  h.flip.imp fun _ _ same => SameFrame.symm same

theorem forall₂_trans {calls'' : List Call} (h : List.Forall₂ SameFrame calls calls')
    (h' : List.Forall₂ SameFrame calls' calls'') : List.Forall₂ SameFrame calls calls'' := by
  induction h generalizing calls'' with
  | nil => exact h'
  | cons same _ ih =>
    cases h' with
    | cons same' others =>
      refine .cons ?_ (ih others)
      unfold SameFrame at same same' ⊢
      rw [same', same]

theorem forall₂_redirected (memory : Memory) (segment procedure : UInt8) (calls : List Call) :
    List.Forall₂ SameFrame calls (redirected memory segment procedure calls) := by
  induction calls with
  | nil => exact .nil
  | cons c rest ih =>
    cases rest with
    | nil => exact forall₂_refl [c]
    | cons caller rest =>
      unfold redirected
      refine .cons rfl ?_
      split
      · exact forall₂_refl (caller :: rest)
      · exact ih

theorem forall₂_exited (memory : Memory) (segment procedure : UInt8) (calls : List Call) :
    List.Forall₂ SameFrame calls (exited memory segment procedure calls) := by
  cases calls with
  | nil => exact .nil
  | cons c rest =>
    rw [exited]
    split
    · exact forall₂_refl (c :: rest)
    · exact forall₂_redirected memory segment procedure (c :: rest)

theorem activations_sameFrame (h : List.Forall₂ SameFrame calls calls') :
    calls'.map activation = calls.map activation := by
  induction h with
  | nil => rfl
  | cons same _ ih =>
    rw [List.map_cons, List.map_cons, ih, same]

theorem mem_sameFrame (h : List.Forall₂ SameFrame calls calls') (member : c' ∈ calls') :
    ∃ c ∈ calls, SameFrame c c' := by
  induction h with
  | nil => cases member
  | @cons c d rest rest' same _ ih =>
    rcases List.mem_cons.1 member with rfl | member
    · exact ⟨c, List.mem_cons_self, same⟩
    · obtain ⟨b, hb, same⟩ := ih member
      exact ⟨b, List.mem_cons_of_mem c hb, same⟩

end Call

namespace Machine

variable {m m' m₁ : Machine} {calls calls' : List Call} {a : Activation} {c : Call}
  {n segment procedure : UInt8} {base : Bool}

/-! ## The way back -/

/-- What a machine is after it went back to the caller that the current header names. -/
structure WentBack (m m₁ : Machine) : Prop where
  entry : entryOf m.memory m.callerFrom.jtab = .ok m₁.ipcBase
  depth : m₁.depth = m.depth - 1
  current : m₁.current = m.current.caller m.memory
  ipc : m₁.ipc = m.callerFrom.ipc
  sp : m₁.store.sp = m.callerFrom.sp
  base : m₁.base = m.base
  psp : m₁.psp = min (if m₁.mp = 0 then programTop else m₁.mp) m₁.residentFloor
  bytes : ∀ x, m₁.memory.peekByte x = m.memory.peekByte x

theorem wentBack (h : resume m.callerFrom m = .ok () m₁) : WentBack m m₁ := by
  rcases resume_cases h with
    ⟨e, -, failed⟩ | ⟨entry, found, ⟨-, eq⟩ | ⟨-, ⟨⟨e, failed⟩, -⟩ | ⟨s, -, -, eq⟩⟩⟩
  · cases failed
  · cases eq
    exact ⟨found, rfl, rfl, rfl, rfl, rfl, rfl, fun _ => rfl⟩
  · cases failed
  · cases eq
    exact ⟨found, rfl, rfl, rfl, rfl, rfl, rfl, fun x => peekByte_memoryAfterRelease _ _ x⟩

/-- After the way back, only the stack pointer and the base register depend on how it was taken. -/
theorem GoesBack.rest (h : GoesBack base m m₁ m') :
    m' = { m₁ with store := { m₁.store with sp := m'.store.sp }, base := m'.base } := by
  rw [h.restored]
  cases base with
  | false => rfl
  | true => exact restoreBase_rest m₁

theorem GoesBack.bytes (h : GoesBack base m m₁ m') (x : Address) :
    m'.memory.peekByte x = m.memory.peekByte x := by
  rw [h.rest]
  exact (wentBack h.resumed).bytes x

theorem GoesBack.depth (h : GoesBack base m m₁ m') : m'.depth = m.depth - 1 := by
  rw [h.rest]
  exact (wentBack h.resumed).depth

/-- The first activation is gone. -/
theorem GoesBack.activations (standing : m.Standing) (h : GoesBack base m m₁ m') :
    m.activations = m.current :: m'.activations := by
  have active := h.active
  obtain ⟨k, depth⟩ : ∃ k, m.depth = k + 1 := ⟨m.depth - 1, by omega⟩
  have depth' : m'.depth = k := by
    rw [h.depth]
    omega
  have current : m'.current = m.current.caller m.memory := by
    rw [h.rest]
    exact (wentBack h.resumed).current
  exact (standing.upright.chain_back depth depth' current h.develops.order h.bytes).1

/-! ## Headers -/

theorem bytes_leaveSegment (h : leaveSegment n m = .ok () m') (x : Address) :
    m'.memory.peekByte x = m.memory.peekByte x := by
  have same := peekByte_leaveSegment n m x
  rwa [h] at same

/-- Of the headers of active frames, a move changes at most where callers go on. -/
theorem Move.headers (standing : m.Standing) (h : Move m calls m' calls') (ha : a ∈ m.activations)
    {i : Nat} (hi : i < 14) (other : i < 10 ∨ 11 < i) :
    m'.memory.peekByte (a.frame + UInt16.ofNat i) = m.memory.peekByte (a.frame + UInt16.ofNat i) := by
  cases h with
  | note noted =>
    have same : m'.memory = m.memory := by
      rw [show m' = _ from noted]
      rfl
    rw [same]
  | observe host => rfl
  | work works kept => exact kept a ha i hi
  | exit segment procedure active =>
    refine (agreesOff_exitProcedure standing.upright active).peekByte fun resumes => ?_
    have offset := (resumes.offset standing.upright ha hi).1
    omega
  | load loaded =>
    rcases standing.loadSegment_cases loaded with ⟨e, failed⟩ | ⟨_, eq, -, -, -, -, kept, -⟩
    · cases failed
    · cases eq
      exact kept a ha i hi
  | leave other left => exact bytes_leaveSegment left _

theorem Made.headers (standing : m.Standing) (made : Made segment c m m') : m.HeadersIn m'.memory :=
  standing.upright.headers_beside fun _ low _ high => made.entered.off.peekByte (not_callRegion low high)

/-- A word of a header, of which `i` is the offset. -/
theorem word_of_header {i : Nat} {frame : Address} (order : m'.memory.order = m.memory.order)
    (first : m'.memory.peekByte (frame + UInt16.ofNat i) = m.memory.peekByte (frame + UInt16.ofNat i))
    (second : m'.memory.peekByte (frame + UInt16.ofNat (i + 1)) =
      m.memory.peekByte (frame + UInt16.ofNat (i + 1))) :
    m'.memory.peekWord (frame + UInt16.ofNat i) = m.memory.peekWord (frame + UInt16.ofNat i) := by
  rw [UInt16.ofNat_add, ← UInt16.add_assoc] at second
  exact Memory.peekWord_congr order first second

/-! ## Activations -/

theorem Quiet.activations (h : Quiet m m')
    (links : Activation.chain m'.memory m.depth m.current = m.activations) :
    m'.activations = m.activations := by
  have current : m'.current = m.current := by
    unfold Machine.current
    rw [h.mp, h.seg, h.jtab]
  unfold Machine.activations
  rw [h.depth, current]
  exact links

theorem activations_leaveSegment (standing : m.Standing) (h : leaveSegment n m = .ok () m') :
    m'.activations = m.activations := by
  have bytes := bytes_leaveSegment h
  rcases leaveSegment_cases h with ⟨⟨e, failed⟩, -⟩ | ⟨s, -, -, eq⟩
  · cases failed
  · cases eq
    exact (standing.rooted.beside (order_memoryAfterRelease _ _) fun x _ _ _ => bytes x).2

/-- The calls name the active frames after a move if they did before. -/
theorem Move.activations (standing : m.Standing) (h : Move m calls m' calls')
    (actives : calls.map Call.activation = m.activations) :
    calls'.map Call.activation = m'.activations := by
  cases h with
  | note noted =>
    rw [actives, show m' = _ from noted]
    rfl
  | observe host =>
    have links : Activation.Rooted (m.observe host).memory m.depth m.psp.toNat m.current ∧
        Activation.chain (m.observe host).memory m.depth m.current = m.activations :=
      standing.rooted.beside rfl fun _ _ _ _ => rfl
    exact actives.trans links.2.symm
  | work works kept =>
    rw [actives]
    exact (works.quiet.activations (standing.upright.links works.quiet.memory.order kept).2).symm
  | exit segment procedure active =>
    have same : (endState (exitProcedure segment procedure m)).activations = m.activations :=
      ((quiet_of_works (exitProcedure segment procedure)).related m : Quiet m _).activations
        (standing.upright.links_exitProcedure active).2
    rw [same, ← actives]
    -- EXIT changes where the frames that it unwinds resume, and leaves their places
    split
    · exact Call.activations_sameFrame (Call.forall₂_exited m.memory segment procedure calls)
    · rfl
  | load loaded =>
    rcases standing.loadSegment_cases loaded with ⟨e, failed⟩ | ⟨_, eq, -, same, -⟩
    · cases failed
    · cases eq
      rw [actives, same]
  | leave other left =>
    rw [actives, activations_leaveSegment standing left]

theorem Made.activations (standing : m.Standing) (made : Made segment c m m')
    (actives : calls.map Call.activation = m.activations) :
    (c :: calls).map Call.activation = m'.activations := by
  have registers := made.entered.registers
  rw [(standing.upright.chain_entered made.entered).1, List.map_cons, actives, made.activation]
  congr 1
  unfold Machine.current
  rw [registers]

/-! ## Attribute tables in code -/

theorem exists_placement (standing : m.Standing) (ha : a ∈ m.activations) :
    ∃ p, m.segments.placement? (.segment a.segment) = some p := by
  obtain ⟨s, hs, resident⟩ := standing.resident ha
  exact ⟨s.placement, SegmentTable.placement?_segment.2 ⟨s, hs, resident, rfl⟩⟩

/-- A piece that is there before and after is where it was, and holds the same bytes. -/
theorem Develops.piece (develops : Develops m m') (secure : m.Secure) {part : Part}
    {p p' : Placement} (old : m.segments.placement? part = some p)
    (new : m'.segments.placement? part = some p') :
    p' = p ∧ ∀ x, p.Covers x → m'.memory.peekByte x = m.memory.peekByte x := by
  rcases (develops.grows secure).2 part p' new with ⟨same, bytes⟩ | ⟨absent, -⟩
  · cases old.symm.trans same
    exact ⟨rfl, bytes⟩
  · cases old.symm.trans absent

theorem Develops.start (develops : Develops m m') (secure : m.Secure)
    (start : ∀ part p, m.segments.placement? part = some p → Heap.start ≤ p.base) :
    ∀ part p, m'.segments.placement? part = some p → Heap.start ≤ p.base := by
  intro part p placed
  rcases (develops.grows secure).2 part p placed with ⟨old, -⟩ | ⟨-, above, -⟩
  · exact start part p old
  · exact above

/-- The code of the segment of an activation lies where it lay and holds what it held. -/
def SameCode (a : Activation) (m m' : Machine) : Prop :=
  ∀ part, part = .segment a.segment ∨ a.segment = 0 ∧ part = .extension → ∀ p,
    (m'.segments.placement? part = some p ↔ m.segments.placement? part = some p) ∧
      (m.segments.placement? part = some p →
        ∀ x, p.Covers x → m'.memory.peekByte x = m.memory.peekByte x)

/-- A segment stays where it is as long as it has an activation. -/
theorem Develops.sameCode (develops : Develops m m') (standing : m.Standing)
    (standing' : m'.Standing) (ha : a ∈ m.activations) (ha' : a ∈ m'.activations) :
    SameCode a m m' := by
  intro part own p
  have both : m'.segments.placement? part = some p ↔ m.segments.placement? part = some p := by
    rcases own with rfl | ⟨-, rfl⟩
    · obtain ⟨q, old⟩ := exists_placement standing ha
      obtain ⟨q', new⟩ := exists_placement standing' ha'
      obtain ⟨rfl, -⟩ := develops.piece standing.secure old new
      rw [old, new]
    · rw [develops.extension standing.secure]
  exact ⟨both, fun old => (develops.piece standing.secure old (both.2 old)).2⟩

/-- A call moves no code. -/
theorem Made.sameCode (made : Made segment c m m') (secure : m.Secure) : SameCode a m m' := by
  intro part _ p
  have table : m'.segments =
      if c.attributes.level ≤ 0 then m.segments.modify segment (Segment.withDataBase m'.mp)
      else m.segments := by
    rw [made.entered.registers]
  have same : m'.segments.placement? part = m.segments.placement? part := by
    rw [table]
    split
    · exact SegmentTable.placement?_modify (f := Segment.withDataBase m'.mp)
        (fun _ _ => ⟨rfl, rfl, rfl⟩) part
    · rfl
  rw [same]
  exact ⟨Iff.rfl, fun placed => (made.develops.piece secure placed (same.trans placed)).2⟩

theorem SameCode.inCode_iff (same : SameCode a m m') : m'.InCode a ↔ m.InCode a := by
  have piece {part : Part} (own : part = .segment a.segment ∨ a.segment = 0 ∧ part = .extension) :
      m'.InPart a part ↔ m.InPart a part :=
    exists_congr fun p => and_congr_left fun _ => (same part own p).1
  exact or_congr (piece (.inl rfl)) (and_congr_right fun kernel => piece (.inr ⟨kernel, rfl⟩))

theorem InCode.exists_part (code : m.InCode a) :
    ∃ part p, (part = .segment a.segment ∨ a.segment = 0 ∧ part = .extension) ∧
      m.segments.placement? part = some p ∧ p.base.toNat + 8 ≤ a.jtab.toNat ∧
      a.jtab.toNat + 2 ≤ p.base.toNat + p.footprint := by
  rcases code with ⟨p, placed, inside⟩ | ⟨kernel, p, placed, inside⟩
  · exact ⟨_, p, .inl rfl, placed, inside⟩
  · exact ⟨_, p, .inr ⟨kernel, rfl⟩, placed, inside⟩

/-- A table in code lies between the heap and the evaluation stack. -/
theorem InCode.bounds (code : m.InCode a)
    (start : ∀ part p, m.segments.placement? part = some p → Heap.start ≤ p.base)
    (layout : CodeLayout m.segments m.memory m.psp m.heap) :
    0x108 ≤ a.jtab.toNat ∧ a.jtab.toNat + 2 ≤ 0xF000 := by
  obtain ⟨part, p, -, placed, first, last⟩ := code.exists_part
  have above := UInt16.le_iff_toNat_le.1 (start part p placed)
  have below := layout.below part p placed
  change 0x100 ≤ _ at above
  omega

/-- A table in the code of its own segment reads the same as long as that code stays. -/
theorem SameCode.table (same : SameCode a m m') (code : m.InCode a)
    (order : m'.memory.order = m.memory.order)
    (start : ∀ part p, m.segments.placement? part = some p → Heap.start ≤ p.base)
    (layout : CodeLayout m.segments m.memory m.psp m.heap)
    (unmapped : ∀ x, Heap.start ≤ x → (m'.memory.cell x).mapped = false) :
    (∀ i, i = 2 ∨ i = 4 ∨ i = 6 ∨ i = 8 → m'.memory.readWord (a.jtab - UInt16.ofNat i) =
      m.memory.readWord (a.jtab - UInt16.ofNat i)) ∧
    m'.memory.readByte a.jtab = m.memory.readByte a.jtab ∧
    m'.memory.readByte (a.jtab + 1) = m.memory.readByte (a.jtab + 1) := by
  obtain ⟨low, high⟩ := code.bounds start layout
  obtain ⟨part, p, own, placed, first, last⟩ := code.exists_part
  -- the table lies in plain cells, whose bytes do not change
  have bytes (x : Address) (low : a.jtab.toNat ≤ x.toNat + 8) (high : x.toNat < a.jtab.toNat + 2) :
      m'.memory.readByte x = m.memory.readByte x := by
    have covered : p.Covers x := ⟨by omega, by omega⟩
    have plain : Heap.start ≤ x := UInt16.le_iff_toNat_le.2 (by
      show 0x100 ≤ x.toNat
      omega)
    rw [Memory.readByte_unmapped (ne_zero_of_start plain) (unmapped x plain),
      Memory.readByte_unmapped (ne_zero_of_start plain) (layout.unmapped x plain),
      (same part own p).2 placed x covered]
  exact Memory.table_congr order (by omega) (by omega) bytes

theorem Told.sameCode (told : Told m.memory c) (code : m.InCode c.activation)
    (same : SameCode c.activation m m') (order : m'.memory.order = m.memory.order)
    (start : ∀ part p, m.segments.placement? part = some p → Heap.start ≤ p.base)
    (layout : CodeLayout m.segments m.memory m.psp m.heap)
    (unmapped : ∀ x, Heap.start ≤ x → (m'.memory.cell x).mapped = false) :
    Told m'.memory c := by
  obtain ⟨words, zero, one⟩ := same.table code order start layout unmapped
  exact told.congr words zero one

/-! ## Active calls -/

/-- The calls are those of the active frames, innermost first. -/
structure Placed (m : Machine) (calls : List Call) : Prop where
  upright : m.Upright
  actives : calls.map Call.activation = m.activations

theorem Placed.length (h : Placed m calls) : calls.length = m.depth := by
  rw [← List.length_map (f := Call.activation), h.actives, length_activations]

theorem Placed.mem (h : Placed m calls) (hc : c ∈ calls) : c.activation ∈ m.activations :=
  h.actives ▸ List.mem_map_of_mem hc

theorem Placed.current {rest : List Call} (h : Placed m (c :: rest)) : c.activation = m.current := by
  have depth : m.depth = rest.length + 1 := h.length.symm
  have actives := h.actives
  unfold Machine.activations at actives
  rw [depth] at actives
  exact (List.cons.inj actives).1

/-! ## Tracked calls -/

/-- The calls are those of the frames in memory. -/
structure Tracked (m : Machine) (calls : List Call) : Prop where
  standing : m.Standing
  start : ∀ part p, m.segments.placement? part = some p → Heap.start ≤ p.base
  actives : calls.map Call.activation = m.activations
  headers : ∀ c ∈ calls, m.memory.peekWord (c.frame + Frame.staticLink) = c.link ∧
    m.memory.peekWord (c.frame + Frame.savedSp) = c.sp
  told : ∀ c ∈ calls, m.InCode c.activation → Told m.memory c
  hosted : ∀ b ∈ m.bound, Keeps Store.Works b.run

theorem Tracked.placed (h : Tracked m calls) : Placed m calls :=
  ⟨h.standing.upright, h.actives⟩

theorem Tracked.active (h : Tracked m calls) (hc : c ∈ calls) : c.activation ∈ m.activations :=
  h.placed.mem hc

theorem Tracked.length (h : Tracked m calls) : calls.length = m.depth :=
  h.placed.length

/-- What is known of a call passes on to a later machine in which its code and its header are. -/
theorem Tracked.keep (h : Tracked m calls) (develops : Develops m m') (secure' : m'.Secure)
    (hc : c ∈ calls) (same : SameCode c.activation m m')
    (bytes : ∀ i < 14, i < 10 ∨ 11 < i → m'.memory.peekByte (c.frame + UInt16.ofNat i) =
      m.memory.peekByte (c.frame + UInt16.ofNat i)) :
    (m'.memory.peekWord (c.frame + Frame.staticLink) = c.link ∧
      m'.memory.peekWord (c.frame + Frame.savedSp) = c.sp) ∧
    (m'.InCode c.activation → Told m'.memory c) := by
  obtain ⟨link, sp⟩ := h.headers c hc
  have link' := word_of_header (i := 2) develops.order (bytes 2 (by decide) (.inl (by decide)))
    (bytes 3 (by decide) (.inl (by decide)))
  have sp' := word_of_header (i := 12) develops.order (bytes 12 (by decide) (.inr (by decide)))
    (bytes 13 (by decide) (.inr (by decide)))
  refine ⟨⟨link'.trans link, sp'.trans sp⟩, fun code => ?_⟩
  have before := same.inCode_iff.1 code
  exact (h.told c hc before).sameCode before same develops.order h.start h.standing.secure.layout
    secure'.layout.unmapped

theorem Move.standing (standing : m.Standing) (h : Move m calls m' calls') : m'.Standing := by
  cases h with
  | note noted =>
    -- A note changes no field that standing reads: both frame relations hold by that alone.
    have noted : m' = _ := noted
    have beside : Beside m m' := by
      refine Beside.of_same ?_ ?_ ?_ ?_ ?_ ?_ ?_ ?_ ?_
      all_goals
        rw [noted]
    have settles : Settles m m' := by
      refine Settles.of_same ?_ ?_ ?_ ?_ ?_ ?_
      all_goals
        rw [noted]
        try rfl
    exact (Balances.of_beside beside settles standing).1
  | observe host =>
    exact (Balances.of_beside (Beside.observe m host) (Settles.observe m host) standing).1
  | work _ _ standing' => exact standing'
  | exit segment procedure active => exact (balances_exitProcedure active standing).1
  | load loaded =>
    rcases standing.loadSegment_cases loaded with ⟨e, failed⟩ | ⟨_, eq, standing', -⟩
    · cases failed
    · cases eq
      exact standing'
  | leave _ _ standing' => exact standing'

/-- The calls after a move are the calls before, at most with other places for callers to go on. -/
theorem Move.sameFrames (h : Move m calls m' calls') :
    List.Forall₂ Call.SameFrame calls calls' := by
  cases h with
  | exit segment procedure active =>
    split
    · exact Call.forall₂_exited m.memory segment procedure calls
    · exact Call.forall₂_refl calls
  | _ => exact Call.forall₂_refl calls

theorem Moves.sameFrames (h : Moves m calls m' calls') : List.Forall₂ Call.SameFrame calls calls' := by
  induction h with
  | refl => exact Call.forall₂_refl _
  | step _ move ih => exact Call.forall₂_trans ih move.sameFrames

theorem Tracked.move (h : Tracked m calls) (move : Move m calls m' calls') : Tracked m' calls' := by
  have standing' := move.standing h.standing
  have develops := move.develops
  have actives := move.activations h.standing h.actives
  -- what a header says and what its attribute table says is kept call by call
  have each : ∀ c ∈ calls', (m'.memory.peekWord (c.frame + Frame.staticLink) = c.link ∧
      m'.memory.peekWord (c.frame + Frame.savedSp) = c.sp) ∧
      (m'.InCode c.activation → Told m'.memory c) := by
    intro c' hc'
    have there : c'.activation ∈ m'.activations := actives ▸ List.mem_map_of_mem hc'
    obtain ⟨c, hc, same⟩ := Call.mem_sameFrame move.sameFrames hc'
    have here := h.active hc
    have activation : c'.activation = c.activation := by rw [same]
    rw [activation] at there
    have kept := h.keep develops standing'.secure hc
      (develops.sameCode h.standing standing' here there)
      (fun i hi other => move.headers h.standing here hi other)
    rw [same]
    exact ⟨kept.1, fun code => ⟨(kept.2 code).attributes, (kept.2 code).number⟩⟩
  exact
    { standing := standing'
      start := develops.start h.standing.secure h.start
      actives := actives
      headers := fun c hc => (each c hc).1
      told := fun c hc => (each c hc).2
      hosted := by
        rw [develops.bound]
        exact h.hosted }

theorem Tracked.made (h : Tracked m calls) (made : Made segment c m m') (standing' : m'.Standing) :
    Tracked m' (c :: calls) := by
  have develops := made.develops
  have same {a : Activation} : SameCode a m m' := made.sameCode h.standing.secure
  have each : ∀ d ∈ c :: calls, (m'.memory.peekWord (d.frame + Frame.staticLink) = d.link ∧
      m'.memory.peekWord (d.frame + Frame.savedSp) = d.sp) ∧
      (m'.InCode d.activation → Told m'.memory d) := by
    intro d hd
    rcases List.mem_cons.1 hd with rfl | hd
    · -- the header of a new frame has just been written
      obtain ⟨link, hl, header⟩ := made.entered.header
      have linked : link = d.link := by
        cases hl.symm.trans made.link
        rfl
      have frame : d.frame = m'.mp := congrArg Activation.frame made.activation
      have told : Told m.memory d := ⟨made.entered.attributes, made.number⟩
      refine ⟨?_, fun code => told.sameCode (same.inCode_iff.1 code) same develops.order h.start
        h.standing.secure.layout standing'.secure.layout.unmapped⟩
      rw [frame, made.sp, ← linked]
      exact ⟨header.staticLink, header.savedSp⟩
    · exact h.keep develops standing'.secure hd same
        fun i hi _ => made.headers h.standing _ (h.active hd) i hi
  exact
    { standing := standing'
      start := develops.start h.standing.secure h.start
      actives := made.activations h.standing h.actives
      headers := fun d hd => (each d hd).1
      told := fun d hd => (each d hd).2
      hosted := by
        rw [develops.bound]
        exact h.hosted }

theorem Tracked.moves (h : Tracked m calls) (moves : Moves m calls m' calls') :
    Tracked m' calls' := by
  induction moves with
  | refl => exact h
  | step _ move ih => exact (ih h).move move

theorem Tracked.back (h : Tracked m calls) (back : GoesBack base m m₁ m') : Tracked m' calls.tail := by
  have develops := back.develops
  have split_ := back.activations h.standing
  have actives : calls.tail.map Call.activation = m'.activations := by
    rw [List.map_tail, h.actives, split_, List.tail_cons]
  have kept (c : Call) (hc : c ∈ calls.tail) :=
    h.keep develops back.standing.secure (List.mem_of_mem_tail hc)
      (develops.sameCode h.standing back.standing (h.active (List.mem_of_mem_tail hc))
        (actives ▸ List.mem_map_of_mem hc))
      (fun i _ _ => back.bytes _)
  exact
    { standing := back.standing
      start := develops.start h.standing.secure h.start
      actives := actives
      headers := fun c hc => (kept c hc).1
      told := fun c hc => (kept c hc).2
      hosted := by
        rw [develops.bound]
        exact h.hosted }

/-! ## Calls whose tables lie in code -/

/-- The attribute tables of all calls lie in code. -/
def Coded (m : Machine) (calls : List Call) : Prop :=
  ∀ c ∈ calls, m.InCode c.activation

instance (m : Machine) (calls : List Call) : Decidable (m.Coded calls) :=
  inferInstanceAs (Decidable (∀ c ∈ calls, m.InCode c.activation))

theorem Coded.sameFrames (h : m.Coded calls) (same : List.Forall₂ Call.SameFrame calls calls') :
    m.Coded calls' := by
  intro c' hc'
  obtain ⟨c, hc, eq⟩ := Call.mem_sameFrame same hc'
  rw [eq]
  exact h c hc

theorem Tracked.inCode_move (h : Tracked m calls) (move : Move m calls m' calls') (hc : c ∈ calls) :
    m'.InCode c.activation ↔ m.InCode c.activation := by
  have h' := h.move move
  have same := Call.activations_sameFrame move.sameFrames
  have there : c.activation ∈ m'.activations := by
    rw [← h'.actives, same]
    exact List.mem_map_of_mem hc
  exact (move.develops.sameCode h.standing h'.standing (h.active hc) there).inCode_iff

theorem Tracked.inCode_back (h : Tracked m calls) (back : GoesBack base m m₁ m')
    (hc : c ∈ calls.tail) : m'.InCode c.activation ↔ m.InCode c.activation :=
  (back.develops.sameCode h.standing back.standing (h.active (List.mem_of_mem_tail hc))
    ((h.back back).active hc)).inCode_iff

theorem Tracked.inCode_made (h : Tracked m calls) {d : Call} (made : Made segment d m m') :
    m'.InCode c.activation ↔ m.InCode c.activation :=
  (made.sameCode h.standing.secure).inCode_iff

/-! ## What is kept -/

/-- A property of machines and their calls that moves, calls and ways back keep. -/
structure Preserved (I : Machine → List Call → Prop) : Prop where
  move {m m' : Machine} {calls calls' : List Call} : Tracked m calls → Tracked m' calls' →
    Move m calls m' calls' → I m calls → I m' calls'
  made {m m' : Machine} {calls : List Call} {segment : UInt8} {c : Call} : Tracked m calls →
    Tracked m' (c :: calls) → Made segment c m m' → I m calls → I m' (c :: calls)
  back {m m₁ m' : Machine} {calls : List Call} {base : Bool} : Tracked m calls →
    Tracked m' calls.tail → GoesBack base m m₁ m' → I m calls → I m' calls.tail

namespace Preserved

variable {I : Machine → List Call → Prop}

theorem moves (h : Preserved I) (tracked : Tracked m calls) (holds : I m calls)
    (moves : Moves m calls m' calls') : I m' calls' := by
  induction moves with
  | refl => exact holds
  | step before move ih =>
    have here := tracked.moves before
    exact h.move here (here.move move) move (ih tracked holds)

theorem ends {entered : Bool} (h : Preserved I) (tracked : Tracked m calls) (holds : I m calls)
    (ends : Ends entered m calls m' calls') : Tracked m' calls' ∧ I m' calls' := by
  cases ends with
  | stays moves => exact ⟨tracked.moves moves, h.moves tracked holds moves⟩
  | enters before made standing noted =>
    have here := tracked.moves before
    have inside := here.made made standing
    have after := inside.move (.note noted)
    exact ⟨after, h.move inside after (.note noted)
      (h.made here inside made (h.moves tracked holds before))⟩

theorem course {r : EStateM.Result Stop Machine Unit} {returning : Option Bool} (h : Preserved I)
    (tracked : Tracked m calls) (holds : I m calls) (course : Course m calls r calls' returning) :
    Tracked (endState r) calls' ∧ I (endState r) calls' := by
  cases course with
  | goesOn _ ends => exact h.ends tracked holds ends
  | goesBack before _ back _ _ ends =>
    have here := tracked.moves before
    have outside := here.back back
    exact h.ends outside (h.back here outside back (h.moves tracked holds before)) ends

end Preserved

end Machine
end PSystem
