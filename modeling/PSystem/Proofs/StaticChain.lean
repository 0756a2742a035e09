import PSystem.Proofs.StackLayout

/-!
# The static chain

The static link of a frame names the frame of the lexically enclosing procedure.  It is found at the
call, by following links of older frames, from the levels that attribute tables state then.  `Linked`
says that it leads exactly one level outward, as long as the tables of older calls lie in the code
of their segments, where no program can change them.  Then every walk along static links leads to a
frame of the right level (`Tracked.outward`), and a call that would skip a level makes no frame
(`Tracked.rejectsGaps`).
-/

namespace PSystem
namespace Machine

variable {m m' m₁ loaded : Machine} {calls calls' rest : List Call} {c d : Call}
  {n segment procedure : UInt8} {jtab link : Address} {level : Int} {base : Bool}

/-! ## Levels -/

/-- The lexical level of the current procedure, and 0 if there is none. -/
def innermostLevel : List Call → Int
  | [] => 0
  | c :: _ => c.level

theorem Tracked.idle (h : Tracked m []) : m.current = Activation.nothing := by
  have rooted := h.standing.rooted
  rw [show m.depth = 0 from h.length.symm] at rooted
  exact rooted

theorem Tracked.jtab_ne_zero (h : Tracked m (c :: rest)) : m.jtab ≠ 0 := by
  have rooted := h.standing.rooted
  rw [show m.depth = rest.length + 1 from h.length.symm] at rooted
  have large : 2 < m.jtab.toNat := rooted.2.2.2.1
  intro zero
  rw [zero] at large
  exact absurd large (by decide)

/-- The attribute table of the current procedure states its level, if it lies in code. -/
theorem Tracked.level_of_jtab (h : Tracked m calls) (coded : m.Coded calls) :
    (if m.jtab = 0 then pure 0 else AttributeTable.level m.memory m.jtab) =
      .ok (innermostLevel calls) := by
  cases calls with
  | nil =>
    have none : m.jtab = 0 := congrArg Activation.jtab h.idle
    rw [if_pos none]
    rfl
  | cons c rest =>
    have active : c.activation ∈ m.activations := h.active List.mem_cons_self
    have jtab : c.jtab = m.jtab := congrArg Activation.jtab h.current
    have told := (h.told c List.mem_cons_self (coded c List.mem_cons_self)).attributes.level
    rw [if_neg h.jtab_ne_zero, ← jtab]
    exact told

/-- The static link of a frame for an inner procedure is found from the level of the current one. -/
theorem Tracked.staticLinkFor_inner (h : Tracked m calls) (coded : m.Coded calls)
    (inner : 2 ≤ level) :
    m.staticLinkFor level =
      let hops := innermostLevel calls - level + 1
      if hops < 0 then .error (.system (.levelGap (innermostLevel calls) level))
      else Frame.outward m.memory m.mp hops.toNat := by
  have found := h.level_of_jtab coded
  have after : m.staticLinkFor level =
      ((if m.jtab = 0 then pure 0 else AttributeTable.level m.memory m.jtab) >>= fun caller =>
        if caller - level + 1 < 0 then .error (.system (.levelGap caller level))
        else Frame.outward m.memory m.mp (caller - level + 1).toNat) := by
    unfold Machine.staticLinkFor
    rw [if_neg (show ¬ level ≤ 1 by omega)]
    split <;> rfl
  rw [after, found]
  rfl

/-! ## Links -/

/-- The static link of a call leads to an older call, one level further out.  At level 1 or below it
is the base register that the caller had. -/
def LinkedTo (older : List Call) (c : Call) : Prop :=
  if 2 ≤ c.level then ∃ d ∈ older, d.frame = c.link ∧ d.level = c.level - 1 else c.link = c.base

/-- No call skips a level, and the static links of calls lead one level outward, if the tables of
older calls lie in code. -/
def Linked (m : Machine) : List Call → Prop
  | [] => True
  | c :: older =>
    (m.Coded older → c.level ≤ max 1 (innermostLevel older + 1) ∧ LinkedTo older c) ∧
      Linked m older

theorem LinkedTo.mono (h : LinkedTo rest c) (more : ∀ d ∈ rest, d ∈ calls) : LinkedTo calls c := by
  unfold LinkedTo at h ⊢
  split
  · rename_i inner
    rw [if_pos inner] at h
    obtain ⟨d, hd, outward⟩ := h
    exact ⟨d, more d hd, outward⟩
  · rename_i outer
    rwa [if_neg outer] at h

theorem Linked.of_mem (h : Linked m calls) (coded : m.Coded calls) (hc : c ∈ calls) :
    LinkedTo calls c := by
  induction calls with
  | nil => cases hc
  | cons d older ih =>
    have inside : m.Coded older := fun b hb => coded b (List.mem_cons_of_mem d hb)
    have widen {b : Call} (linked : LinkedTo older b) : LinkedTo (d :: older) b :=
      linked.mono fun b hb => List.mem_cons_of_mem d hb
    rcases List.mem_cons.1 hc with rfl | hc
    · exact widen (h.1 inside).2
    · exact widen (ih h.2 inside hc)

theorem Linked.suffix (inner : List Call) (h : Linked m (inner ++ calls)) : Linked m calls := by
  induction inner with
  | nil => exact h
  | cons c inner ih => exact ih h.2

theorem LinkedTo.sameFrames (h : LinkedTo rest c) {older : List Call}
    (same : List.Forall₂ Call.SameFrame rest older) : LinkedTo older c := by
  unfold LinkedTo at h ⊢
  split
  · rename_i inner
    rw [if_pos inner] at h
    obtain ⟨d, hd, frame, level⟩ := h
    obtain ⟨d', hd', eq⟩ := Call.mem_sameFrame (Call.forall₂_symm same) hd
    rw [eq] at frame level
    exact ⟨d', hd', frame, level⟩
  · rename_i outer
    rwa [if_neg outer] at h

theorem innermostLevel_sameFrames (same : List.Forall₂ Call.SameFrame calls calls') :
    innermostLevel calls' = innermostLevel calls := by
  cases same with
  | nil => rfl
  | cons first _ =>
    rw [first]
    rfl

/-- Levels and links of calls do not change. -/
theorem Linked.sameFrames (h : Linked m calls) (same : List.Forall₂ Call.SameFrame calls calls')
    (code : ∀ c ∈ calls, m'.InCode c.activation → m.InCode c.activation) : Linked m' calls' := by
  induction same with
  | nil => trivial
  | @cons c c' older older' first others ih =>
    obtain ⟨linked, rest⟩ := h
    have later (d : Call) (hd : d ∈ older) := code d (List.mem_cons_of_mem c hd)
    refine ⟨fun coded => ?_, ih rest later⟩
    have coded' : m'.Coded older := coded.sameFrames (Call.forall₂_symm others)
    obtain ⟨level, outward⟩ := linked fun d hd => later d hd (coded' d hd)
    rw [innermostLevel_sameFrames others, first]
    exact ⟨level, outward.sameFrames others⟩

/-! ## Walks along static links -/

/-- The headers of active frames can be read. -/
theorem Tracked.readWord (h : Tracked m calls) (hc : c ∈ calls) {i : Nat} (hi : i + 1 < 14) :
    m.memory.readWord (c.frame + UInt16.ofNat i) =
      .ok (m.memory.peekWord (c.frame + UInt16.ofNat i)) := by
  obtain ⟨-, start, top⟩ := h.standing.rooted.of_mem (h.active hc)
  refine readWord_above h.standing.secure.layout.unmapped (UInt16.le_iff_toNat_le.2 start) ?_
  change c.frame.toNat + 14 ≤ _ at top
  omega

/-- A walk along static links leads as many levels outward as it has steps. -/
theorem Tracked.outward (h : Tracked m calls) (linked : Linked m calls) (coded : m.Coded calls)
    (hc : c ∈ calls) {k : Nat} (inner : 1 ≤ c.level - k) :
    ∃ d ∈ calls, d.level = c.level - k ∧ Frame.outward m.memory c.frame k = .ok d.frame := by
  induction k generalizing c with
  | zero => exact ⟨c, hc, by simp, rfl⟩
  | succ k ih =>
    have outward := linked.of_mem coded hc
    unfold LinkedTo at outward
    rw [if_pos (by omega)] at outward
    obtain ⟨d, hd, frame, level⟩ := outward
    obtain ⟨e, he, reached, walk⟩ := ih hd (by omega)
    refine ⟨e, he, by omega, ?_⟩
    have read := h.readWord hc (i := 2) (by decide)
    rw [show m.memory.peekWord (c.frame + UInt16.ofNat 2) = c.link from (h.headers c hc).1] at read
    show (do
      let next ← m.memory.readWord (c.frame + UInt16.ofNat 2)
      Frame.outward m.memory next k : Except Fault Address) = _
    rw [read, ← frame]
    exact walk

/-- A static link that a call finds. -/
theorem Tracked.staticLinkFor (h : Tracked m calls) (linked : Linked m calls)
    (coded : m.Coded calls) (found : m.staticLinkFor level = .ok link) :
    level ≤ max 1 (innermostLevel calls + 1) ∧
      if 2 ≤ level then ∃ d ∈ calls, d.frame = link ∧ d.level = level - 1 else link = m.base := by
  by_cases outer : level ≤ 1
  · rw [if_neg (by omega)]
    unfold Machine.staticLinkFor at found
    rw [if_pos outer] at found
    cases found
    exact ⟨by omega, rfl⟩
  · rw [if_pos (by omega)]
    rw [h.staticLinkFor_inner coded (by omega)] at found
    dsimp only at found
    split at found
    · cases found
    · rename_i reachable
      refine ⟨by omega, ?_⟩
      cases calls with
      | nil =>
        change ¬ (0 - level + 1 < 0) at reachable
        omega
      | cons c older =>
        change ¬ (c.level - level + 1 < 0) at reachable
        -- the walk ends one level outside the new procedure
        have steps : ((c.level - level + 1).toNat : Int) = c.level - level + 1 :=
          Int.toNat_of_nonneg (by omega)
        obtain ⟨d, hd, reached, walk⟩ := h.outward linked coded (c := c) List.mem_cons_self
          (k := (c.level - level + 1).toNat) (by omega)
        have frame : c.frame = m.mp := congrArg Activation.frame h.current
        rw [frame] at walk
        cases walk.symm.trans found
        exact ⟨d, hd, rfl, by omega⟩

theorem preserved_linked : Preserved Linked where
  move tracked _ move linked :=
    linked.sameFrames move.sameFrames fun _ hc => (tracked.inCode_move move hc).1
  made := by
    intro m m' calls segment c tracked _ made linked
    have same : Linked m' calls := linked.sameFrames (Call.forall₂_refl calls)
      fun _ _ => (tracked.inCode_made made).1
    refine ⟨fun coded => ?_, same⟩
    have before : m.Coded calls := fun d hd => (tracked.inCode_made made).1 (coded d hd)
    obtain ⟨level, outward⟩ := tracked.staticLinkFor linked before made.link
    rw [← made.base] at outward
    exact ⟨level, outward⟩
  back := by
    intro m m₁ m' calls base tracked _ back linked
    have older : Linked m calls.tail := by
      cases calls with
      | nil => trivial
      | cons c rest => exact linked.2
    exact older.sameFrames (Call.forall₂_refl _) fun _ hc => (tracked.inCode_back back hc).1

/-! ## Calls that skip a level -/

/-- A resident segment has a procedure with code, of a lexical level. -/
def HasProcedure (m : Machine) (segment procedure : UInt8) (level : Int) : Prop :=
  ∃ jtab number, m.segments.jtab m.memory segment procedure = .ok jtab ∧
    AttributeTable.number m.memory jtab = .ok number ∧ number ≠ 0 ∧
    AttributeTable.level m.memory jtab = .ok level

/-- Calls of procedures that lie more than one level inside the current one fail, and make no
frame. -/
def RejectsGaps (m : Machine) (calls : List Call) : Prop :=
  ∀ segment procedure level, 2 ≤ level → innermostLevel calls < level - 1 →
    (m.HasProcedure segment procedure level → ∃ e, call segment procedure m = .error e m) ∧
    ∀ loaded : Machine, (m.BringsIn segment ∧ loadSegment segment m = .ok () loaded) ∨
        (¬ m.BringsIn segment ∧ loaded = m) →
      loaded.HasProcedure segment procedure level →
      ∃ e m', callExternal segment procedure m = .error e m' ∧ m'.depth = m.depth ∧
        m'.activations = m.activations

theorem Tracked.call_of_gap (h : Tracked m calls) (coded : m.Coded calls) (inner : 2 ≤ level)
    (gap : innermostLevel calls < level - 1) (has : m.HasProcedure segment procedure level) :
    ∃ e, call segment procedure m = .error e m := by
  obtain ⟨jtab, number, found, hn, code, hl⟩ := has
  -- the static link cannot be found
  have missing : m.staticLinkFor level =
      .error (.system (.levelGap (innermostLevel calls) level)) := by
    rw [h.staticLinkFor_inner coded inner]
    exact if_pos (by omega)
  have entering : ∃ e, enter segment procedure jtab m = .error e m := by
    rw [enter_eq]
    rcases readAttributes_cases (rfl : readAttributes jtab m = _) with
      ⟨e, unread⟩ | ⟨p, read, attributes⟩
    · exact ⟨e, bind_of_error unread⟩
    cases attributes.level.symm.trans hl
    rw [bind_of_ok read]
    rcases makeFrame_stages (rfl : makeFrame segment procedure p m = _) with
      ⟨e, unmade⟩ | ⟨link, frame, linked, -⟩
    · exact ⟨e, bind_of_error unmade⟩
    · cases missing.symm.trans linked
  obtain ⟨e, failed⟩ := entering
  refine ⟨e, ?_⟩
  unfold call
  rw [get_bind_apply, found]
  show (reading (AttributeTable.number · jtab) >>= _) m = _
  rw [bind_of_ok (reading_of_ok (f := (AttributeTable.number · jtab)) hn), if_neg code]
  exact bind_of_error failed

theorem Tracked.rejectsGaps (h : Tracked m calls) (coded : m.Coded calls) : m.RejectsGaps calls := by
  intro segment procedure level inner gap
  refine ⟨h.call_of_gap coded inner gap, ?_⟩
  rintro loaded (⟨away, load⟩ | ⟨here, rfl⟩) has
  · have loading : Move m calls loaded calls := .load load
    have coded' : loaded.Coded calls := fun c hc =>
      (h.inCode_move loading hc).2 (coded c hc)
    have there := h.move loading
    obtain ⟨e, failed⟩ := there.call_of_gap coded' inner gap has
    -- the segment that was brought in for the call is given up again
    rcases h.standing.loadSegment_cases load with
      ⟨e', eq⟩ | ⟨_, eq, -, activations, -, depth, -⟩
    · cases eq
    cases eq
    rw [callExternal_of_bringsIn away, load]
    dsimp only
    rw [failed]
    dsimp only
    cases left : leaveSegment segment loaded with
    | error e' m' =>
      rcases leaveSegment_cases left with ⟨⟨e'', eq⟩, -⟩ | ⟨s, -, -, eq⟩
      · cases eq
        exact ⟨e', _, rfl, depth, activations⟩
      · cases eq
    | ok u m' =>
      have same := activations_leaveSegment there.standing left
      refine ⟨e, m', rfl, ?_, same.trans activations⟩
      rcases leaveSegment_cases left with ⟨⟨e'', eq⟩, -⟩ | ⟨s, -, -, eq⟩
      · cases eq
      · cases eq
        exact depth
  · obtain ⟨e, failed⟩ := h.call_of_gap coded inner gap has
    refine ⟨e, loaded, ?_, rfl, rfl⟩
    rw [callExternal_of_here here, failed]

/-! ## Runs -/

/-- Fetching and popping does not change the calls. -/
theorem Tracked.silent (h : Tracked m (c :: rest)) (silent : Silent m m₁) :
    Tracked m₁ (c :: rest) where
  standing := silent.standing (h.length ▸ Nat.succ_pos _) h.standing
  start := by
    rw [silent.rest]
    exact h.start
  actives := h.actives.trans silent.activations.symm
  headers := by
    rw [silent.memory]
    exact h.headers
  told := by
    intro d hd code
    rw [silent.memory]
    refine h.told d hd ?_
    rw [silent.rest] at code
    exact code
  hosted := by
    rw [silent.rest]
    exact h.hosted

theorem Tracked.coded_moves (h : Tracked m calls) (moves : Moves m calls m' calls')
    (coded : m.Coded calls) : m'.Coded calls' := by
  induction moves with
  | refl => exact coded
  | step before move ih =>
    have here := h.moves before
    refine Coded.sameFrames (fun c hc => ?_) move.sameFrames
    exact (here.inCode_move move hc).2 (ih h coded c hc)

/-- An instruction that fails enters no procedure, so the tables of all calls stay in code. -/
theorem Tracked.coded_of_failed {r : EStateM.Result Stop Machine Unit} {returning : Option Bool}
    (h : Tracked m calls) (course : Course m calls r calls' returning)
    (failed : succeeded r = false) (coded : m.Coded calls) : (endState r).Coded calls' := by
  have unentered {entered : Bool} (ok : entered = true → succeeded r = true) : entered = false := by
    cases entered with
    | false => rfl
    | true => cases failed.symm.trans (ok rfl)
  cases course with
  | goesOn ok ends =>
    cases unentered ok
    cases ends with
    | stays moves => exact h.coded_moves moves coded
  | goesBack before memory back panics ok ends =>
    cases unentered ok
    have here := h.moves before
    cases ends with
    | stays moves =>
      refine (here.back back).coded_moves moves fun c hc => ?_
      exact (here.inCode_back back hc).2 (h.coded_moves before coded c (List.mem_of_mem_tail hc))

/-- The call of the handler of a fault fails if it skips a level. -/
theorem Tracked.rejectsGaps_handler (h : Tracked m calls) (coded : m.Coded calls)
    (kept : m.LeavesHeaders)
    (spare : ∀ s, s ≠ 0 →
      Activation.entries s m.activations + tally .relseg m.performedIn s ≤ m.useCount s)
    (running : m.halted = false) {fault : Fault}
    (failed : executeNext m.prepare = .error (.trap fault) m') :
    RejectsGaps (announced fault { m' with instructions := m'.instructions + 1 })
      (m.prepare.callsNext calls) := by
  have preparing : Move m calls m.prepare calls := .note rfl
  have prepared := h.move preparing
  have headers := kept running
  unfold performedIn at spare
  rw [running] at spare
  have executed := prepared.course_executeNext headers
    (tallies_executeNext prepared.standing headers spare).1
  rw [failed] at executed
  have tracked' : Tracked m' (m.prepare.callsNext calls) := (Preserved.course
    ⟨fun _ _ _ _ => trivial, fun _ _ _ _ => trivial, fun _ _ _ _ => trivial⟩ prepared
      (I := fun _ _ => True) trivial executed).1
  have coded' : m'.Coded (m.prepare.callsNext calls) :=
    prepared.coded_of_failed executed rfl (h.coded_moves (.one preparing) coded)
  have counting : Move m' (m.prepare.callsNext calls)
      { m' with instructions := m'.instructions + 1 } (m.prepare.callsNext calls) := .note rfl
  have counted := tracked'.move counting
  have announcing := counted.moves_announced fault
  exact (counted.moves announcing).rejectsGaps
    (counted.coded_moves announcing (tracked'.coded_moves (.one counting) coded'))

/-- Static links lead from the frame of each procedure to the frame of a procedure one level further
out, so that variables of outer procedures are found in frames of the right level, as long as the
attribute tables of active procedures lie in the code of their segments.  Calls that would skip a
level fail. -/
theorem static_chain {rule : Machine → List Call → Prop} {got given : UInt8 → Nat}
    (h : Traced rule m calls got given) (coded : m.Coded calls) :
    calls.map Call.activation = m.activations ∧
    (∀ c ∈ calls, AttributeTable.level m.memory c.jtab = .ok c.level ∧
      m.memory.peekWord (c.frame + Frame.staticLink) = c.link ∧
      if 2 ≤ c.level then ∃ d ∈ calls, d.frame = c.link ∧ d.level = c.level - 1
      else c.link = c.base) ∧
    (∀ c inner outer, calls = inner ++ c :: outer → 2 ≤ c.level →
      c.level - 1 ≤ innermostLevel outer) ∧
    (∀ c rest, calls = c :: rest → ∀ m₁, Silent m.prepare m₁ →
      (∀ (k : UInt8) (n : Word), 1 ≤ c.level - k.toNat → ∃ d ∈ calls,
        d.level = c.level - k.toNat ∧
          resolve (.intermediate k n) m₁ = .ok (Frame.word d.frame n) m₁) ∧
      m₁.RejectsGaps calls) ∧
    (m.halted = false → m.LeavesHeaders → (∀ s, s ≠ 0 →
        given s + tally .relseg m.performedIn s ≤ got s + tally .getseg m.performedIn s) →
      ∀ fault m', executeNext m.prepare = .error (.trap fault) m' →
        RejectsGaps (announced fault { m' with instructions := m'.instructions + 1 })
          (m.prepare.callsNext calls)) := by
  obtain ⟨tracked, linked⟩ := h.preserved preserved_linked fun _ _ => trivial
  refine ⟨tracked.actives, ?_, ?_, ?_, ?_⟩
  · intro c hc
    refine ⟨(tracked.told c hc (coded c hc)).attributes.level, (tracked.headers c hc).1, ?_⟩
    exact linked.of_mem coded hc
  · rintro c inner outer rfl deep
    have level := (linked.suffix inner).1 fun d hd =>
      coded d (List.mem_append_right inner (List.mem_cons_of_mem c hd))
    omega
  · rintro c rest rfl m₁ silent
    -- The operand is resolved after the instruction has been fetched, which changes no frame.
    have prepared := tracked.move (.note (rfl : Noted m m.prepare))
    have there := prepared.silent silent
    have linked₁ : Linked m₁ (c :: rest) := linked.sameFrames (Call.forall₂_refl _) fun _ _ code => by
      rw [silent.rest] at code
      exact code
    have coded₁ : m₁.Coded (c :: rest) := fun d hd => by
      rw [silent.rest]
      exact coded d hd
    refine ⟨fun k n inner => ?_, there.rejectsGaps coded₁⟩
    obtain ⟨d, hd, level, walk⟩ := there.outward linked₁ coded₁ List.mem_cons_self inner
    refine ⟨d, hd, level, ?_⟩
    have frame : c.frame = m₁.mp := congrArg Activation.frame there.current
    rw [frame] at walk
    show (orFault (Frame.outward m₁.memory m₁.mp k.toNat) >>= fun frame =>
      pure (Frame.word frame n) : Run Machine Address) m₁ = _
    rw [walk]
    rfl
  · intro running kept owned fault m' failed
    exact tracked.rejectsGaps_handler coded kept ((balanced_of_counted h.counted).spare owned)
      running failed

/-- Procedures of levels 1 to 3, each of which calls the next. -/
def nesting : List SegmentSpec :=
  [{ number := 0
     name := "KERNEL"
     procedures :=
       [{ level := 1, body := some { code := [Opcode.clp.code, 2, Opcode.xit.code] } },
         { level := 2, body := some { code := [Opcode.clp.code, 3, Opcode.rnp.code, 0] } },
         { level := 3, body := some { code := [Opcode.lod.code, 2, 5, Opcode.rnp.code, 0] } }] }]

/-- All three procedures are active. -/
def nestingTrace : Machine × List Call :=
  trace 2 (started nesting) (callMade 0 1 (unstarted nesting)).toList

theorem nestingTrace_run :
    starts nesting = true ∧
    obeysFor (fun _ _ => true) 2 (started nesting) (callMade 0 1 (unstarted nesting)).toList =
      true ∧
    nestingTrace.2.map Call.level = [3, 2, 1] ∧ nestingTrace.1.Coded nestingTrace.2 := by
  decide +kernel

theorem static_chain_nesting :
    ∃ m calls got given, Traced (fun _ _ => True) m calls got given ∧ m.Coded calls ∧
      calls.map Call.level = [3, 2, 1] ∧
      ∃ d ∈ calls, d.level = 1 ∧
        resolve (.intermediate 2 5) m.prepare = .ok (Frame.word d.frame 5) m.prepare := by
  obtain ⟨starts, obeyed, levels, coded⟩ := nestingTrace_run
  obtain ⟨got, given, run⟩ := (traced_started (fun _ _ => True) starts).steps
    (fun _ _ _ => trivial) (fun _ => Nat.le_refl 0) obeyed
  obtain ⟨-, -, -, walks, -⟩ := static_chain run coded
  refine ⟨_, _, got, given, run, coded, levels, ?_⟩
  change nestingTrace.2.map Call.level = _ at levels
  change ∃ d ∈ nestingTrace.2, _
  cases split : nestingTrace.2 with
  | nil =>
    rw [split] at levels
    cases levels
  | cons c rest =>
    rw [split, List.map_cons, List.cons.injEq] at levels
    obtain ⟨d, hd, level, resolved⟩ :=
      (walks c rest split _ (Std.Refl.refl _)).1 2 5 (by rw [levels.1]; decide)
    rw [levels.1] at level
    exact ⟨d, split ▸ hd, level, resolved⟩

/-! ## Attribute tables outside code -/

/-- A machine with a volume on unit 4 whose only file has the given parts. -/
def holdingParts (parts : List CodePart) : Machine :=
  let volume := (CodeFile.image? .little parts).bind fun file =>
    Volume.image? "VOLUME" [("SYSTEM", file)]
  create (Storage.empty.setDisk 4 (some (Disk.ofBytes (volume.getD []) true false)))
    default default default none

/-- A machine and its calls after it was started from the given parts and took some steps. -/
def traceParts (n : Nat) (parts : List CodePart) : Machine × List Call :=
  trace n (endState (boot 4 "SYSTEM" (holdingParts parts)))
    (callMade 0 1 (endState (loadSystem 4 "SYSTEM" (holdingParts parts)))).toList

/-- Whether a machine can be started from the given parts, and its first steps keep to the rules by
themselves, and to another rule. -/
def runsParts (rule : Machine → List Call → Bool) (n : Nat) (parts : List CodePart) : Bool :=
  boots (holdingParts parts) &&
    obeysFor rule n (endState (boot 4 "SYSTEM" (holdingParts parts)))
      (callMade 0 1 (endState (loadSystem 4 "SYSTEM" (holdingParts parts)))).toList

theorem traced_runsParts {rule : Machine → List Call → Prop} {check : Machine → List Call → Bool}
    (sound : ∀ m calls, check m calls = true → rule m calls) {n : Nat} {parts : List CodePart}
    (h : runsParts check n parts = true) :
    ∃ got given, Traced rule (traceParts n parts).1 (traceParts n parts).2 got given := by
  unfold runsParts at h
  rw [Bool.and_eq_true] at h
  exact (traced_boots rule rfl h.1).steps sound (fun _ => Nat.le_refl 0) h.2

/-- The main program writes an attribute table at address 0x200, which the segment dictionary of an
overlay gives for its procedure 1, of level 1.  This procedure stores a word and then calls procedure
2, of level 3. -/
def selfWritten (slot value : Word) : List CodePart :=
  let bytes := ByteOrder.little.bytes
  let main : SegmentSpec :=
    { number := 0
      name := "KERNEL"
      procedures :=
        [{ level := 1
           body := some
            { code :=
                -- the number and the level
                [Opcode.ldci.code, 0] ++ bytes 0x200 ++ [Opcode.ldci.code, 0] ++ bytes 0x101 ++
                [Opcode.sto.code] ++
                -- the distance back to the code
                [Opcode.ldci.code] ++ bytes 0x1FE ++ [Opcode.ldci.code, 0] ++ bytes 0x125A ++
                [Opcode.sto.code, Opcode.cxp.code, 1, 1, Opcode.xit.code] } }] }
  let overlay : SegmentSpec :=
    { number := 1
      name := "OVERLAY"
      procedures :=
        [{ level := 1
           body := some
            { code :=
                [Opcode.ldci.code, 0] ++ bytes slot ++ [Opcode.ldci.code, 0] ++ bytes value ++
                [Opcode.sto.code, Opcode.clp.code, 2, Opcode.rnp.code, 0] } },
          { level := 3, body := some { code := [Opcode.rnp.code, 0] } }] }
  [.ofSpec .little main,
    { number := 1
      name := "OVERLAY"
      bytes := ((overlay.image .little).set 38 0xCA).set 39 0xED }]

/-- A main program that calls a procedure of level 3 that is bound to the host. -/
def hostedDeeper : List CodePart :=
  [.ofSpec .little
    { number := 0
      name := "KERNEL"
      procedures :=
        [{ level := 1
           body := some { code := [5, 16, Opcode.cxp.code, 1, 1, Opcode.xit.code] } }] },
    .ofSpec .little { number := 1, name := "DECOPS", procedures := [{ level := 3 }] }]

/-- A procedure of level 1 that made its level 3 has called a procedure of level 3. -/
def raisedTrace : Machine × List Call :=
  traceParts 11 (selfWritten 0x200 0x301)

theorem raisedTrace_run :
    runsParts (fun _ _ => true) 11 (selfWritten 0x200 0x301) = true ∧
      ∃ c ∈ raisedTrace.2, 2 ≤ c.level ∧ ∀ d ∈ raisedTrace.2, d.frame ≠ c.link := by
  decide +kernel

/-- The main program is about to call a procedure that is bound to the host. -/
def hostedTrace : Machine × List Call :=
  traceParts 2 hostedDeeper

/-- The procedure that is bound to the host is in memory. -/
def hostedLoaded : Machine :=
  endState (loadSegment 1 hostedTrace.1.prepare)

theorem hostedTrace_run :
    runsParts (fun _ _ => true) 2 hostedDeeper = true ∧ hostedTrace.1.Coded hostedTrace.2 ∧
      innermostLevel hostedTrace.2 = 1 ∧
      hostedTrace.1.memory.readBytes hostedTrace.1.nextAddress 3 = .ok [Opcode.cxp.code, 1, 1] ∧
      hostedLoaded.segments.jtab hostedLoaded.memory 1 1 >>=
        AttributeTable.level hostedLoaded.memory = .ok 3 ∧
      succeeded (executeNext hostedTrace.1.prepare) = true := by
  decide +kernel

/-- Without tables in code a static link need not lead to a frame: a procedure that raises its own
level in the table can call a procedure for which there is no enclosing one.  And procedures that are
bound to the host can be called from any level. -/
theorem static_link_to_no_frame :
    (∃ m calls got given, Traced (fun _ _ => True) m calls got given ∧
      ∃ c ∈ calls, 2 ≤ c.level ∧ ∀ d ∈ calls, d.frame ≠ c.link) ∧
    ∃ m calls got given loaded, Traced (fun _ _ => True) m calls got given ∧ m.Coded calls ∧
      innermostLevel calls = 1 ∧
      m.memory.readBytes m.nextAddress 3 = .ok [Opcode.cxp.code, 1, 1] ∧
      loaded = endState (loadSegment 1 m.prepare) ∧
      loaded.segments.jtab loaded.memory 1 1 >>= AttributeTable.level loaded.memory = .ok 3 ∧
      succeeded (executeNext m.prepare) = true := by
  obtain ⟨runs, unlinked⟩ := raisedTrace_run
  obtain ⟨runs', coded, level, code, deeper, done⟩ := hostedTrace_run
  obtain ⟨got, given, run⟩ := traced_runsParts (fun _ _ _ => trivial) runs
  obtain ⟨got', given', run'⟩ := traced_runsParts (fun _ _ _ => trivial)
    runs'
  exact ⟨⟨raisedTrace.1, raisedTrace.2, got, given, run, unlinked⟩, hostedTrace.1, hostedTrace.2,
    got', given', hostedLoaded, run', coded, level, code, rfl, deeper, done⟩

end Machine
end PSystem
