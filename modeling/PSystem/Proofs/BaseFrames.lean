import PSystem.Proofs.Visits

/-!
# External addressing

Words of another segment are addressed from its data base, the frame of its latest base procedure.
A call sets it, and nothing sets it back: it is the frame of the call that was made last, whether that
is still active or not (`Based`).  So it is the innermost active one exactly as long as the latest one
is active (`external_addressing_iff`).
-/

namespace PSystem

namespace Call

/-- The call is of a base procedure of a segment. -/
def IsBaseOf (segment : UInt8) (c : Call) : Prop :=
  c.activation.segment = segment ∧ c.level ≤ 0

instance (segment : UInt8) (c : Call) : Decidable (c.IsBaseOf segment) :=
  inferInstanceAs (Decidable (_ ∧ _))

/-- The first call of a base procedure of a segment. -/
def baseIn (segment : UInt8) (calls : List Call) : Option Call :=
  calls.find? fun c => c.IsBaseOf segment

variable {c d : Call} {calls calls' : List Call} {segment : UInt8}

theorem baseIn_cons_of_pos (rest : List Call) (h : c.IsBaseOf segment) :
    baseIn segment (c :: rest) = some c :=
  List.find?_cons_of_pos (decide_eq_true h)

theorem baseIn_cons_of_neg (rest : List Call) (h : ¬ c.IsBaseOf segment) :
    baseIn segment (c :: rest) = baseIn segment rest :=
  List.find?_cons_of_neg (by simpa using h)

theorem mem_of_baseIn (h : baseIn segment calls = some c) : c ∈ calls ∧ c.IsBaseOf segment := by
  have base := List.find?_some (p := fun c : Call => decide (c.IsBaseOf segment)) h
  exact ⟨List.mem_of_find?_eq_some h, of_decide_eq_true base⟩

end Call

namespace Machine

variable {above : Prop} {m m' : Machine} {active made : List Call} {c latest : Call} {s : UInt8}
  {entry : Segment}

/-! ## Data bases -/

/-- Every data base is the frame of the latest call of a base procedure.  That call is the innermost
active one of its segment, or lies below all of them. -/
structure Based (m : Machine) (active made : List Call) : Prop where
  data : ∀ s entry, m.segments.get? s = some entry →
    entry.dataBase = ((Call.baseIn s made).map Call.frame).getD 0
  start : ∀ c ∈ made, Heap.start ≤ c.frame
  sub : active.Sublist made
  behind : ∀ s, Call.baseIn s active = Call.baseIn s made ∨
    ∀ latest, Call.baseIn s made = some latest → ∀ c ∈ active, c.IsBaseOf s → latest.frame < c.frame

/-- Frames lie the higher the earlier they were made. -/
theorem Placed.rising (placed : Placed m active) :
    active.Pairwise fun c d => c.frame < d.frame := by
  have chains {memory : Memory} {n low : Nat} {a : Activation}
      (rooted : Activation.Rooted memory n low a) :
      (Activation.chain memory n a).Pairwise fun b c => b.frame < c.frame := by
    induction n generalizing low a with
    | zero => exact .nil
    | succ n ih =>
      obtain ⟨-, -, -, -, -, rest⟩ := rooted
      refine .cons (fun b hb => ?_) (ih rest)
      have := (rest.of_mem hb).1
      rw [UInt16.lt_iff_toNat_lt]
      omega
  have pairs := chains placed.upright.rooted
  rw [show Activation.chain m.memory m.depth m.current = m.activations from rfl, ← placed.actives,
    List.pairwise_map] at pairs
  exact pairs

/-- Nothing but a call touches data bases. -/
theorem Based.retabled (h : Based m active made)
    (same : ∀ s entry', m'.segments.get? s = some entry' →
      ∃ entry, m.segments.get? s = some entry ∧ entry'.dataBase = entry.dataBase) :
    Based m' active made where
  data := by
    intro s entry' found'
    obtain ⟨entry, found, eq⟩ := same s entry' found'
    rw [eq]
    exact h.data s entry found
  start := h.start
  sub := h.sub
  behind := h.behind

theorem Based.modified {k : UInt8} {f : Segment → Segment} (h : Based m active made)
    (keeps : ∀ s, (f s).dataBase = s.dataBase) (table : m'.segments = m.segments.modify k f) :
    Based m' active made := by
  refine h.retabled fun s entry' found' => ?_
  rw [table] at found'
  rcases SegmentTable.get?_modify_cases found' with ⟨-, found⟩ | ⟨entry, -, found, rfl⟩
  · exact ⟨entry', found, rfl⟩
  · exact ⟨entry, found, keeps entry⟩

/-- The frames of the callers of a latest base procedure lie above it. -/
theorem Based.back (h : Based m active made) (placed : Placed m active)
    (same : m'.segments = m.segments) : Based m' active.tail made where
  data := same ▸ h.data
  start := h.start
  sub := (List.tail_sublist active).trans h.sub
  behind := by
    intro s
    have rising := placed.rising
    cases active with
    | nil => exact h.behind s
    | cons c rest =>
      rw [List.tail_cons]
      -- the frame that is given up may be the innermost base frame of its segment
      rcases h.behind s with innermost | below
      · by_cases base : c.IsBaseOf s
        · rw [Call.baseIn_cons_of_pos rest base] at innermost
          right
          intro latest found d hd _
          cases innermost.trans found
          exact (List.pairwise_cons.1 rising).1 d hd
        · rw [Call.baseIn_cons_of_neg rest base] at innermost
          exact .inl innermost
      · exact .inr fun latest found d hd => below latest found d (List.mem_cons_of_mem c hd)

theorem Based.called {segment : UInt8} (h : Based m active made) (placed : Placed m active)
    (called : Made segment c m m') : Based m' (c :: active) (c :: made) := by
  have registers := called.entered.registers
  have frame : c.frame = m'.mp := congrArg Activation.frame called.activation
  have own : c.activation.segment = segment := by
    rw [called.activation, registers]
    rfl
  have table : m'.segments = if c.attributes.level ≤ 0 then
      m.segments.modify segment (Segment.withDataBase m'.mp) else m.segments := by
    rw [registers]
  refine ⟨?_, ?_, h.sub.cons_cons c, ?_⟩
  · intro s entry' found
    by_cases base : c.IsBaseOf s
    · -- the call sets the data base of its own segment
      rw [Call.baseIn_cons_of_pos made base]
      obtain ⟨here, level⟩ : c.activation.segment = s ∧ c.attributes.level ≤ 0 := base
      cases own.symm.trans here
      rw [table, if_pos level] at found
      rcases SegmentTable.get?_modify_cases found with ⟨other, -⟩ | ⟨entry, -, -, rfl⟩
      · exact absurd rfl other
      · exact frame.symm
    · rw [Call.baseIn_cons_of_neg made base]
      rw [table] at found
      split at found
      · rename_i level
        rcases SegmentTable.get?_modify_cases found with ⟨-, old⟩ | ⟨entry, rfl, -, -⟩
        · exact h.data s entry' old
        · exact absurd ⟨own, level⟩ base
      · exact h.data s entry' found
  · intro d hd
    rcases List.mem_cons.1 hd with rfl | hd
    · rw [frame]
      exact UInt16.le_trans placed.upright.secure.layout.heap called.entered.room
    · exact h.start d hd
  · intro s
    by_cases base : c.IsBaseOf s
    · exact .inl (by rw [Call.baseIn_cons_of_pos _ base, Call.baseIn_cons_of_pos _ base])
    · rw [Call.baseIn_cons_of_neg active base, Call.baseIn_cons_of_neg made base]
      refine (h.behind s).imp_right fun below latest found d hd other => ?_
      rcases List.mem_cons.1 hd with rfl | hd
      · exact absurd other base
      · exact below latest found d hd other

theorem kept_based : Kept above Based where
  stays _ stays h := h.retabled fun s entry found => ⟨entry, stays.segments ▸ found, rfl⟩
  load := by
    intro m m' n _ _ placed loaded h
    rcases loadSegment_outcome placed.upright.secure.layout loaded with
      ⟨e, failed⟩ | ⟨s, hs, ⟨resident, eq⟩ | ⟨absent, base, bytes, memory, brought, eq⟩⟩
    · cases failed
    · cases eq
      exact h.modified (f := Segment.countUp) (k := n) (fun _ => rfl) rfl
    · cases eq
      exact h.modified (f := Segment.putAt base) (k := s.number) (fun _ => rfl) rfl
  release := by
    intro m n s _ _ _ _ _ _ h
    exact h.modified (f := Segment.countDown) (k := n) (fun _ => rfl) rfl
  reclaim _ h := h.retabled fun s entry found => ⟨entry, found, rfl⟩
  back placed _ _ h := h.back placed rfl
  made placed called h := h.called placed called

/-- No base procedure was called yet. -/
theorem based_of_loadSystem {unit : Word} {file : String} {fresh loaded : Machine}
    (hfresh : fresh.Fresh) (fits : SystemFits fresh unit file)
    (loading : loadSystem unit file fresh = .ok () loaded) : Based loaded [] [] := by
  obtain ⟨block, dictionary, kernel, base, -, -, -, pieces⟩ :=
    pieces_of_loadSystem hfresh fits loading
  have unset := SegmentTable.forall_ofDictionary unit block (d := dictionary)
    (P := fun n s => s.number = n ∧ s.dataBase = 0) (fun _ _ => ⟨rfl, rfl⟩)
    (fun _ _ _ h => h) (fun _ _ h => h.1)
  have placed (n : UInt8) (s : Segment) (found : ((SegmentTable.ofDictionary dictionary unit
      block).modify 0 (Segment.putAt base)).get? n = some s) : s.dataBase = 0 := by
    rcases SegmentTable.get?_modify_cases found with ⟨-, old⟩ | ⟨s₀, -, old, rfl⟩
    · exact (unset n s old).2
    · exact (unset n s₀ old).2
  refine ⟨fun s entry found => ?_, List.forall_mem_nil _, .slnil, fun _ => .inl rfl⟩
  rcases pieces with ⟨-, table⟩ | ⟨x, extension, -, -, -, table⟩
  · exact placed s entry (table ▸ found)
  · rw [table] at found
    rcases SegmentTable.get?_modify_cases found with ⟨-, old⟩ | ⟨s₀, -, old, rfl⟩
    · exact placed s entry old
    · exact placed s s₀ old

/-! ## Addressing -/

/-- What naming a word of a segment gives if its data base is the frame of a call. -/
def reaching (segment : UInt8) (n : Word) : Option Call → Run Machine Address
  | some c => pure (Frame.word c.frame n)
  | none => throw (.system (.noBaseFrame segment))

theorem resolve_external (found : m.segments.get? s = some entry) (n : Word) :
    resolve (.external s n) m =
      if entry.dataBase = 0 then .error (.system (.noBaseFrame s)) m
      else .ok (Frame.word entry.dataBase n) m := by
  have known : m.segments.require s = .ok entry := SegmentTable.require_eq_ok.2 found
  unfold resolve
  dsimp only
  rw [get_bind_apply, known]
  show (if _ then _ else _ : Run Machine Address) m = _
  split
  · rfl
  · rfl

theorem Based.resolve_external (h : Based m active made) (found : m.segments.get? s = some entry)
    (n : Word) : resolve (.external s n) m = reaching s n (Call.baseIn s made) m := by
  have data := h.data s entry found
  rw [Machine.resolve_external found, data]
  cases latest : Call.baseIn s made with
  | none => rfl
  | some c =>
    have high := h.start c (Call.mem_of_baseIn latest).1
    have nonzero : c.frame ≠ 0 := by
      intro zero
      rw [zero] at high
      exact absurd high (by decide)
    exact if_neg nonzero

/-- What naming a word gives tells the frame. -/
theorem frame_of_reaching {n : Word} {base base' : Option Call}
    (h : reaching s n base m = reaching s n base' m) :
    base.map Call.frame = base'.map Call.frame := by
  cases base with
  | none =>
    cases base' with
    | none => rfl
    | some d => cases h
  | some c =>
    cases base' with
    | none => cases h
    | some d =>
      have same : Frame.word c.frame n = Frame.word d.frame n := by
        injection h
      unfold Frame.word at same
      rw [UInt16.add_left_inj, UInt16.add_left_inj] at same
      exact congrArg some same

/-- The innermost active base procedure has the frame of the latest one only if it is the latest. -/
theorem Based.baseIn_eq (h : Based m active made)
    (same : (Call.baseIn s active).map Call.frame = (Call.baseIn s made).map Call.frame) :
    Call.baseIn s active = Call.baseIn s made := by
  rcases h.behind s with eq | below
  · exact eq
  cases latest : Call.baseIn s made with
  | none =>
    rw [latest] at same
    exact Option.map_eq_none_iff.1 same
  | some d =>
    rw [latest] at same
    obtain ⟨c, innermost, frames⟩ := Option.map_eq_some_iff.1 same
    obtain ⟨member, base⟩ := Call.mem_of_baseIn innermost
    have lower := below d latest c member base
    rw [frames] at lower
    exact absurd lower (UInt16.lt_irrefl _)

/-! ## Instructions -/

instance silent_fetchBig : Keeps Silent fetchBig := by
  unfold fetchBig
  infer_instance

instance silent_fetchExternal : Keeps Silent fetchExternal := by
  unfold fetchExternal
  infer_instance

/-- The instructions that name a word of another segment. -/
def externals : List Opcode :=
  [.lde, .lae, .ste]

/-- Without a word to name, such an instruction leaves memory alone. -/
theorem execute_external {opcode : UInt8} {op : Opcode} {fault : Fault} {mode : Mode}
    (encoded : Encoding.ofCode opcode = .table op) (external : op ∈ externals)
    (fetched : fetchExternal m = .ok mode m₁)
    (unresolved : ∀ m₂, m₂.segments = m₁.segments → resolve mode m₂ = .error fault m₂) :
    ∃ e m', execute opcode m = .error (.trap e) m' ∧ m'.memory = m.memory ∧
      (e = fault ∨ op = .ste ∧ pop m₁ = .error e m') := by
  have silent : Silent m m₁ := Keeps.of_ok fetched
  have fetched : (liftM fetchExternal : Exec Mode) m = .ok mode m₁ := raising_of_ok fetched
  have unfolds : execute opcode = executeTable op := by
    unfold execute
    rw [encoded]
  rw [unfolds]
  simp only [externals, List.mem_cons, List.not_mem_nil, or_false] at external
  -- a store first pops its word, and the other two resolve the address at once
  rcases external with rfl | rfl | rfl
  · have run : executeTable .lde m = (liftM (load mode) : Exec Unit) m₁ := bind_of_ok fetched
    refine ⟨fault, m₁, ?_, silent.memory, .inl rfl⟩
    rw [run]
    exact raising_of_error (bind_of_error (unresolved m₁ rfl))
  · have run : executeTable .lae m = (liftM (loadAddress mode) : Exec Unit) m₁ := bind_of_ok fetched
    refine ⟨fault, m₁, ?_, silent.memory, .inl rfl⟩
    rw [run]
    exact raising_of_error (bind_of_error (unresolved m₁ rfl))
  · have run : executeTable .ste m = (liftM (storeAt mode) : Exec Unit) m₁ := bind_of_ok fetched
    rw [run]
    cases popped : pop m₁ with
    | error e m₂ =>
      have same : Silent m₁ m₂ := Keeps.of_error popped
      exact ⟨e, m₂, raising_of_error (bind_of_error popped), same.memory.trans silent.memory,
        .inr ⟨rfl, rfl⟩⟩
    | ok w m₂ =>
      have same : Silent m₁ m₂ := Keeps.of_ok popped
      have segments : m₂.segments = m₁.segments := by rw [same.rest]
      exact ⟨fault, m₂, raising_of_error ((bind_of_ok popped).trans
        (bind_of_error (unresolved m₂ segments))), same.memory.trans silent.memory, .inl rfl⟩

/-- Naming a word of a segment reaches the frame of the latest call of a base procedure of that
segment.  That is the innermost active one exactly if the latest has not returned.  If no base
procedure of the segment was called at all, the instructions that name its words fail and leave
memory alone. -/
theorem external_addressing_iff {rule : Machine → Prop} (run : Visits rule m active made)
    (s : UInt8) :
    (m.segments.get? s = none →
      ∀ n, resolve (.external s n) m = .error (.noSuchSegment s) m) ∧
    (m.segments.get? s ≠ none →
      (∀ n, resolve (.external s n) m = reaching s n (Call.baseIn s made) m) ∧
      ((∀ n, resolve (.external s n) m = reaching s n (Call.baseIn s active) m) ↔
        Call.baseIn s active = Call.baseIn s made) ∧
      (Call.baseIn s made = none → ∀ {opcode op n m₁ m₂}, fetchByte m.prepare = .ok opcode m₁ →
        Encoding.ofCode opcode = .table op → op ∈ externals →
        fetchExternal m₁ = .ok (.external s n) m₂ →
        ∃ e m', executeNext m.prepare = .error (.trap e) m' ∧ m'.memory = m.memory ∧
          (e = .system (.noBaseFrame s) ∨ op = .ste ∧ pop m₂ = .error e m'))) := by
  have kept : Kept True Based := kept_based
  obtain ⟨-, based⟩ := run.kept kept based_of_loadSystem fun _ _ _ => trivial
  refine ⟨fun missing n => ?_, fun known => ?_⟩
  · have unknown : m.segments.require s = .error (.noSuchSegment s) := by
      unfold SegmentTable.require
      rw [missing]
    unfold resolve
    dsimp only
    rw [get_bind_apply, unknown]
    rfl
  -- the entry gives the base frame made last, active or not
  obtain ⟨entry, found⟩ := Option.ne_none_iff_exists'.1 known
  have latest := based.resolve_external found
  refine ⟨latest, ⟨fun innermost => ?_, fun same n => same ▸ latest n⟩, fun none => ?_⟩
  · exact based.baseIn_eq (frame_of_reaching ((innermost 1).symm.trans (latest 1)))
  · intro opcode op n m₁ m₂ fetched encoded external operands
    have silent : Silent m.prepare m₁ := Keeps.of_ok fetched
    have silent' : Silent m₁ m₂ := Keeps.of_ok operands
    have table : m₂.segments = m.segments := by
      rw [silent'.rest, silent.rest]
      rfl
    have unset : entry.dataBase = 0 := by
      rw [based.data s entry found, none]
      rfl
    have unresolved (m₃ : Machine) (same : m₃.segments = m₂.segments) :
        resolve (.external s n) m₃ = .error (.system (.noBaseFrame s)) m₃ := by
      have found' : m₃.segments.get? s = some entry := by rw [same, table, found]
      rw [Machine.resolve_external found', if_pos unset]
    obtain ⟨e, m', failed, memory, cause⟩ :=
      execute_external encoded external operands unresolved
    have next : executeNext m.prepare = execute opcode m₁ := liftM_bind_of_ok fetched
    exact ⟨e, m', next.trans failed, memory.trans silent.memory, cause⟩

/-- A main program that names a word of segment 1 before and after it calls its base procedure. -/
def overtaking : List SegmentSpec :=
  [{ number := 0
     name := "KERNEL"
     procedures :=
       [{ level := 0
          body := some
            { code := [Opcode.lde.code, 1, 1, Opcode.cxp.code, 1, 1, Opcode.lae.code, 1, 1,
                Opcode.xit.code] } }] },
   { number := 1
     name := "GLOBALS"
     procedures := [{ level := 0, body := some { code := [Opcode.rbp.code, 0] } }] }]

/-- The main program after some steps. -/
def overtakingVisit (n : Nat) : Machine × List Call × List Call :=
  let calls := (callMade 0 1 (unstarted overtaking)).toList
  visit n (started overtaking) calls calls

/-- The opcode that is fetched next and the word that the instruction names. -/
def nextExternal (m : Machine) : Option (UInt8 × Mode) :=
  match fetchByte m.prepare with
  | .ok opcode m₁ =>
    match fetchExternal m₁ with
    | .ok mode _ => some (opcode, mode)
    | .error _ _ => none
  | .error _ _ => none

theorem nextExternal_eq_some {opcode : UInt8} {mode : Mode}
    (h : m.nextExternal = some (opcode, mode)) :
    ∃ m₁ m₂, fetchByte m.prepare = .ok opcode m₁ ∧ fetchExternal m₁ = .ok mode m₂ := by
  unfold nextExternal at h
  cases fetched : fetchByte m.prepare with
  | error e m₁ =>
    rw [fetched] at h
    cases h
  | ok opcode m₁ =>
    rw [fetched] at h
    dsimp only at h
    cases operands : fetchExternal m₁ with
    | error e m₂ =>
      rw [operands] at h
      cases h
    | ok mode m₂ =>
      rw [operands] at h
      cases h
      exact ⟨m₁, m₂, rfl, operands⟩

theorem overtakingVisit_run :
    starts overtaking = true ∧ (∀ n ∈ [0, 2, 3], keepsTo (fun _ => true) n (started overtaking)) ∧
    (let before := overtakingVisit 0
     before.1.segments.get? 1 ≠ none ∧ Call.baseIn 1 before.2.2 = none ∧
       before.1.nextExternal = some (Opcode.lde.code, .external 1 1)) ∧
    (let within := overtakingVisit 2
     within.1.segments.get? 1 ≠ none ∧ within.2.1.length = 2 ∧
       Call.baseIn 1 within.2.1 = Call.baseIn 1 within.2.2 ∧
       (Call.baseIn 1 within.2.1).map Call.frame = some within.1.mp) ∧
    (let after := overtakingVisit 3
     after.1.nextExternal = some (Opcode.lae.code, .external 1 1) ∧
       Call.baseIn 1 after.2.1 = none ∧ succeeded (resolve (.external 1 1) after.1) = true ∧
       succeeded (executeNext after.1.prepare) = true) := by
  decide +kernel

theorem visits_overtaking {n : Nat} (h : n ∈ [0, 2, 3]) :
    Visits (fun _ => True) (overtakingVisit n).1 (overtakingVisit n).2.1 (overtakingVisit n).2.2 :=
  (visits_started _ overtakingVisit_run.1).steps (fun _ _ => trivial)
    (overtakingVisit_run.2.1 n h)

/-- Before the call the word of segment 1 cannot be named, and within the call it is one of the current
frame. -/
theorem external_addressing_overtaking :
    (∃ m active made m', Visits (fun _ => True) m active made ∧ Call.baseIn 1 made = none ∧
      executeNext m.prepare = .error (.trap (.system (.noBaseFrame 1))) m' ∧
      m'.memory = m.memory) ∧
    ∃ m active made, Visits (fun _ => True) m active made ∧ active.length = 2 ∧
      ∀ n, resolve (.external 1 n) m = .ok (Frame.word m.mp n) m := by
  obtain ⟨-, -, ⟨known, unset, next⟩, ⟨known', two, same, frame⟩, -⟩ := overtakingVisit_run
  have before := visits_overtaking (n := 0) (by decide)
  have within := visits_overtaking (n := 2) (by decide)
  constructor
  · obtain ⟨m₁, m₂, fetched, operands⟩ := nextExternal_eq_some next
    obtain ⟨-, named⟩ := external_addressing_iff before 1
    have encoded : Encoding.ofCode Opcode.lde.code = .table .lde := rfl
    obtain ⟨e, m', failed, memory, cause⟩ :=
      (named known).2.2 unset fetched encoded (by decide) operands
    obtain rfl : e = _ := cause.resolve_right nofun
    exact ⟨_, _, _, m', before, unset, failed, memory⟩
  · obtain ⟨-, named⟩ := external_addressing_iff within 1
    refine ⟨_, _, _, within, two, fun n => ?_⟩
    obtain ⟨c, innermost, at_⟩ := Option.map_eq_some_iff.1 frame
    rw [(named known').2.1.2 same n, innermost, ← at_]
    rfl

/-- The word can still be named when the base procedure has returned and its frame is gone. -/
theorem external_frame_outlives_call :
    ∃ m active made opcode n m₁ m₂, Visits (fun _ => True) m active made ∧
      fetchByte m.prepare = .ok opcode m₁ ∧ Encoding.ofCode opcode = .table .lae ∧
      fetchExternal m₁ = .ok (.external 1 n) m₂ ∧ Call.baseIn 1 active = none ∧
      succeeded (resolve (.external 1 n) m) = true ∧ succeeded (executeNext m.prepare) = true := by
  obtain ⟨-, -, -, -, next, returned, resolved, executed⟩ := overtakingVisit_run
  obtain ⟨m₁, m₂, fetched, operands⟩ := nextExternal_eq_some next
  exact ⟨_, _, _, _, _, m₁, m₂, visits_overtaking (n := 3) (by decide), fetched, rfl, operands,
    returned, resolved, executed⟩

end Machine
end PSystem
