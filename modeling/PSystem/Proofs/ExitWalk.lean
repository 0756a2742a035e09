import PSystem.Proofs.CallTracking

/-!
# The walk of EXIT

EXIT walks along the frames from the current one outward, up to a frame whose caller it names.  It
then sends the current procedure to its exit code, and notes in each frame that it has passed that
the caller goes on at its own (`Unwound`).  It does so on frames that are linked as calls link them
(`Framed`), if it can read the attribute tables on the way (`Readable`), which it can if they lie in
code (`Framed.readable_of_inCode`).
-/

namespace PSystem

variable {memory memory' : Memory} {segment procedure : UInt8} {jtab : Address}

/-! ## Reading attribute tables -/

namespace Memory

/-- Only address 0 cannot be read. -/
theorem exists_readByte (memory : Memory) {a : Address} (valid : a ≠ 0) :
    ∃ v, memory.readByte a = .ok v := by
  rw [readByte, if_neg valid]
  cases memory.device? a <;> exact ⟨_, rfl⟩

theorem readByte_congr {a : Address} (cell : memory'.cell a = memory.cell a)
    (order : memory'.order = memory.order) (devices : memory'.devices = memory.devices) :
    memory'.readByte a = memory.readByte a := by
  simp only [readByte, device?, cell, order, devices]

/-- The same memory but for the cells in `S`. -/
structure SameOff (S : Address → Prop) (m m' : Memory) : Prop where
  off : AgreesOff S m m'
  rest : m' = { m with cells := m'.cells }

instance (S : Address → Prop) : IsPreorder Memory (SameOff S) where
  refl _ := ⟨fun _ _ => rfl, rfl⟩
  trans m m' m'' h h' := by
    refine ⟨IsTrans.trans (r := AgreesOff S) _ _ _ h.off h'.off, ?_⟩
    have rest := h'.rest
    rw [h.rest] at rest
    exact rest

theorem SameOff.mono {S T : Address → Prop} (h : SameOff S memory memory')
    (imp : ∀ x, S x → T x) : SameOff T memory memory' :=
  ⟨h.off.mono imp, h.rest⟩

theorem SameOff.order {S : Address → Prop} (h : SameOff S memory memory') :
    memory'.order = memory.order := by
  rw [h.rest]

theorem SameOff.devices {S : Address → Prop} (h : SameOff S memory memory') :
    memory'.devices = memory.devices := by
  rw [h.rest]

end Memory

/-! ## Cells that EXIT reads and writes -/

/-- The cells of the words in an attribute table that lead to the exit and to the entry point. -/
def PointCells (jtab x : Address) : Prop :=
  ∃ i, 1 ≤ i ∧ i ≤ 4 ∧ x = jtab - UInt16.ofNat i

/-- The cells in a frame that say where the caller goes on. -/
def ResumeSlot (frame x : Address) : Prop :=
  x = frame + Frame.savedIpc ∨ x = frame + Frame.savedIpc + 1

theorem ResumeSlot.offset {frame x : Address} (h : ResumeSlot frame x) :
    ∃ i, 10 ≤ i ∧ i ≤ 11 ∧ x = frame + UInt16.ofNat i := by
  rcases h with rfl | rfl
  · exact ⟨10, by decide, by decide, rfl⟩
  · exact ⟨11, by decide, by decide, UInt16.add_assoc _ _ _⟩

/-- The slots of frames that do not overlap are different cells. -/
theorem ResumeSlot.apart {frame frame' x : Address} (h : ResumeSlot frame x)
    (above : frame.toNat + 14 ≤ frame'.toNat) (top : frame'.toNat + 14 ≤ 0xF000) :
    ¬ ResumeSlot frame' x := by
  intro h'
  obtain ⟨i, -, hi, rfl⟩ := h.offset
  obtain ⟨j, -, hj, same⟩ := h'.offset
  have here := Machine.toNat_add_ofNat (a := frame) (i := i) (by omega)
  have there := Machine.toNat_add_ofNat (a := frame') (i := j) (by omega)
  rw [same] at here
  omega

namespace AttributeTable

variable {back : Nat}

theorem pointCells_word (jtab : Address) (small : 2 ≤ back ∧ back ≤ 4) :
    PointCells jtab (jtab - UInt16.ofNat back) ∧ PointCells jtab (jtab - UInt16.ofNat back + 1) := by
  refine ⟨⟨back, by omega, small.2, rfl⟩, back - 1, by omega, by omega, ?_⟩
  obtain ⟨n, rfl⟩ : ∃ n, back = n + 1 := ⟨back - 1, by omega⟩
  have place : UInt16.ofNat (n + 1) = UInt16.ofNat n + 1 := UInt16.ofNat_add n 1
  rw [Nat.add_sub_cancel, place]
  grind

/-- Words of a table above the lowest addresses can be read. -/
theorem exists_follow (back : Nat) (low : 4 < jtab.toNat) (small : 2 ≤ back ∧ back ≤ 4) :
    ∃ point, follow memory (jtab - UInt16.ofNat back) = .ok point := by
  have place (i : Nat) (hi : i ≤ 4) : jtab - UInt16.ofNat i ≠ 0 := by
    intro zero
    have := Memory.toNat_sub_of_le (a := jtab) (i := i) (by omega)
    rw [zero] at this
    simp at this
    omega
  obtain ⟨⟨i, -, hi, first⟩, j, -, hj, second⟩ := pointCells_word jtab small
  obtain ⟨v, hv⟩ := Memory.exists_readByte memory (first ▸ place i hi)
  obtain ⟨w, hw⟩ := Memory.exists_readByte memory (second ▸ place j hj)
  exact ⟨_, by rw [follow, Memory.readWord, hv, except_ok_bind, hw]; rfl⟩

theorem follow_congr (back : Nat) {S : Address → Prop} (same : Memory.SameOff S memory memory')
    (apart : ∀ x, PointCells jtab x → ¬ S x) (small : 2 ≤ back ∧ back ≤ 4) :
    follow memory' (jtab - UInt16.ofNat back) = follow memory (jtab - UInt16.ofNat back) := by
  obtain ⟨first, second⟩ := pointCells_word jtab small
  have one := Memory.readByte_congr (same.off _ (apart _ first)) same.order same.devices
  have two := Memory.readByte_congr (same.off _ (apart _ second)) same.order same.devices
  rw [follow, follow, Memory.readWord, Memory.readWord, one, two, same.order]

end AttributeTable

namespace Activation

variable {n k low : Nat} {a b : Activation}

/-- EXIT names the procedure of the activation. -/
def IsNamed (memory : Memory) (segment procedure : UInt8) (a : Activation) : Prop :=
  a.segment = segment ∧ memory.readByte a.jtab = .ok procedure

instance (memory : Memory) (segment procedure : UInt8) (a : Activation) :
    Decidable (a.IsNamed memory segment procedure) :=
  inferInstanceAs (Decidable (_ ∧ _))

/-- Number `k` is the first of some activations whose procedure EXIT names. -/
def Innermost (memory : Memory) (segment procedure : UInt8) (as : List Activation) (k : Nat) :
    Prop :=
  (∃ a, as[k]? = some a ∧ a.IsNamed memory segment procedure) ∧
    ∀ i < k, ∀ a, as[i]? = some a → ¬ a.IsNamed memory segment procedure

theorem innermost_iff {as : List Activation} :
    Innermost memory segment procedure as k ↔
      as.findIdx? (fun a => decide (a.IsNamed memory segment procedure)) = some k := by
  rw [List.findIdx?_eq_some_iff_getElem]
  simp only [Innermost, List.getElem?_eq_some_iff]
  grind

instance (memory : Memory) (segment procedure : UInt8) (as : List Activation) (k : Nat) :
    Decidable (Innermost memory segment procedure as k) :=
  decidable_of_iff' _ innermost_iff

/-- One of them is the first, unless there is none. -/
theorem innermost_or_none (memory : Memory) (segment procedure : UInt8) (as : List Activation) :
    (∃ k, Innermost memory segment procedure as k) ∨
      ∀ a ∈ as, ¬ a.IsNamed memory segment procedure := by
  cases first : as.findIdx? (fun a => decide (a.IsNamed memory segment procedure)) with
  | some k => exact .inl ⟨k, innermost_iff.2 first⟩
  | none => exact .inr (by simpa using first)

theorem Innermost.tail {as : List Activation}
    (h : Innermost memory segment procedure (a :: as) (k + 1)) :
    ¬ a.IsNamed memory segment procedure ∧ Innermost memory segment procedure as k :=
  ⟨h.2 0 (Nat.succ_pos k) a rfl, h.1, fun i hi => h.2 (i + 1) (Nat.succ_lt_succ hi)⟩

/-- The frames of the first `k` activations, each with the attribute table of the next activation
outward. -/
def passed (k : Nat) (as : List Activation) : List (Address × Address) :=
  List.zipWith (fun a b => (a.frame, b.jtab)) (as.take k) as.tail

theorem getElem?_passed {as : List Activation} {i : Nat} {f : Address × Address} :
    (passed k as)[i]? = some f ↔
      i < k ∧ ∃ a b, as[i]? = some a ∧ as[i + 1]? = some b ∧ f = (a.frame, b.jtab) := by
  simp only [passed, List.getElem?_zipWith_eq_some, List.getElem?_take, List.getElem?_tail]
  constructor
  · rintro ⟨a, b, ha, hb, rfl⟩
    split at ha
    · exact ⟨‹_›, a, b, ha, hb, rfl⟩
    · cases ha
  · rintro ⟨inside, a, b, ha, hb, rfl⟩
    exact ⟨a, b, by rwa [if_pos inside], hb, rfl⟩

theorem mem_passed {as : List Activation} {f : Address × Address} :
    f ∈ passed k as ↔ ∃ i < k, ∃ a b, as[i]? = some a ∧ as[i + 1]? = some b ∧
      f = (a.frame, b.jtab) := by
  simp only [List.mem_iff_getElem?, getElem?_passed]

/-- Frames that are linked lie above one another. -/
theorem Rooted.pairwise (h : Rooted memory n low a) :
    (chain memory n a).Pairwise fun b c => b.frame.toNat + 14 ≤ c.frame.toNat := by
  induction n generalizing low a with
  | zero => exact .nil
  | succ n ih =>
    obtain ⟨-, -, -, -, -, rest⟩ := h
    exact .cons (fun c hc => (rest.of_mem hc).1) (ih rest)

end Activation

namespace Machine

variable {m m' : Machine} {n low fuel k : Nat} {a b : Activation}
  {found : List (Address × Address)}

theorem isTarget_eq (valid : a.jtab ≠ 0) :
    isTarget memory segment procedure a.segment a.jtab =
      .ok (decide (a.IsNamed memory segment procedure)) := by
  obtain ⟨number, read⟩ := Memory.exists_readByte memory valid
  unfold isTarget
  by_cases same : a.segment = segment
  · rw [if_pos same, read]
    refine congrArg Except.ok (Bool.eq_iff_iff.2 ?_)
    simp [Activation.IsNamed, same, read]
  · rw [if_neg same]
    simp [Activation.IsNamed, same]
    rfl

/-! ## The walk -/

/-- All cells of the headers of frames can be read and written. -/
def HeadersFree (memory : Memory) (frames : List Activation) : Prop :=
  ∀ a ∈ frames, ∀ i < 14, memory.Free (a.frame + UInt16.ofNat i)

theorem HeadersFree.readWord {frames : List Activation} (free : HeadersFree memory frames)
    (ha : a ∈ frames) {i : Nat} (hi : i + 1 < 14) :
    memory.readWord (a.frame + UInt16.ofNat i) =
      .ok (memory.peekWord (a.frame + UInt16.ofNat i)) := by
  have first := free a ha i (by omega)
  have second := free a ha (i + 1) hi
  rw [UInt16.ofNat_add, ← UInt16.add_assoc] at second
  exact Memory.readWord_unmapped first.valid second.valid first.unmapped second.unmapped

/-- The outermost frame has no caller. -/
theorem exitLook_outermost (rooted : Activation.Rooted memory 1 low a)
    (free : HeadersFree memory (Activation.chain memory 1 a)) :
    exitLook memory segment procedure a.frame = .error (.exitFromUncalled segment procedure) := by
  obtain ⟨-, -, -, -, -, rest⟩ := rooted
  have word {i : Nat} (hi : i + 1 < 14) := free.readWord List.mem_cons_self hi
  have nothing : a.caller memory = Activation.nothing := rest
  have savedJtab : memory.readWord (a.frame + Frame.savedJtab) = .ok (a.caller memory).jtab :=
    word (i := 6) (by decide)
  have savedSeg : memory.readWord (a.frame + Frame.savedSeg) = .ok _ := word (i := 8) (by decide)
  rw [exitLook, savedJtab, savedSeg, nothing]
  rfl

/-- At any other frame EXIT looks whether it names the caller. -/
theorem exitLook_inner (rooted : Activation.Rooted memory (n + 2) low a)
    (free : HeadersFree memory (Activation.chain memory (n + 2) a)) :
    exitLook memory segment procedure a.frame =
      .ok ((a.caller memory).jtab, if (a.caller memory).IsNamed memory segment procedure then none
        else some (a.caller memory).frame) := by
  obtain ⟨-, -, -, -, -, -, start, -, table, -⟩ := rooted
  have word {i : Nat} (hi : i + 1 < 14) := free.readWord List.mem_cons_self hi
  have savedJtab : memory.readWord (a.frame + Frame.savedJtab) = .ok (a.caller memory).jtab :=
    word (i := 6) (by decide)
  have savedSeg : memory.readWord (a.frame + Frame.savedSeg) =
      .ok (memory.peekWord (a.frame + Frame.savedSeg)) := word (i := 8) (by decide)
  have link : memory.readWord (a.frame + Frame.dynamicLink) = .ok (a.caller memory).frame :=
    word (i := 4) (by decide)
  -- Neither the procedure nor the frame of a caller is at zero, so the walk does not take this
  -- frame for the last.
  have valid : (a.caller memory).jtab ≠ 0 := by
    intro zero
    rw [zero] at table
    exact absurd table (by decide)
  have linked : (a.caller memory).frame ≠ 0 := by
    intro zero
    rw [zero] at start
    exact absurd start (by decide)
  have target : isTarget memory segment procedure
      (memory.peekWord (a.frame + Frame.savedSeg)).toUInt8 (a.caller memory).jtab = _ :=
    isTarget_eq valid
  rw [exitLook, savedJtab, savedSeg, link]
  simp only [except_ok_bind]
  rw [if_neg valid, target, except_ok_bind]
  by_cases named : (a.caller memory).IsNamed memory segment procedure
  · simp [named, pure, Except.pure]
  · simp [named, linked, pure, Except.pure]

/-- The walk stops at the first caller that EXIT names. -/
theorem exitFrames_found (rooted : Activation.Rooted memory (n + 1) low a)
    (free : HeadersFree memory (Activation.chain memory (n + 1) a)) (fits : n < fuel)
    (first : Activation.Innermost memory segment procedure
      (Activation.chain memory n (a.caller memory)) k) :
    exitFrames memory segment procedure fuel a.frame found =
      .ok ((Activation.passed (k + 1) (Activation.chain memory (n + 1) a)).reverse ++ found) := by
  -- the caller is the one that EXIT names, or the rest of the walk starts at its frame
  induction k generalizing n low a fuel found with
  | zero =>
    obtain ⟨⟨b, here, named⟩, -⟩ := first
    obtain ⟨fuel, rfl⟩ : ∃ f, fuel = f + 1 := ⟨fuel - 1, by omega⟩
    cases n with
    | zero => cases here
    | succ n =>
      cases here
      rw [exitFrames, exitLook_inner rooted free, if_pos named]
      rfl
  | succ k ih =>
    obtain ⟨fuel, rfl⟩ : ∃ f, fuel = f + 1 := ⟨fuel - 1, by omega⟩
    cases n with
    | zero =>
      obtain ⟨⟨b, here, -⟩, -⟩ := first
      cases here
    | succ n =>
      obtain ⟨other, first⟩ := Activation.Innermost.tail first
      have rest : exitFrames memory segment procedure fuel (a.caller memory).frame
          ((a.frame, (a.caller memory).jtab) :: found) = _ :=
        ih rooted.2.2.2.2.2 (fun b hb => free b (List.mem_cons_of_mem a hb))
          (Nat.lt_of_succ_lt_succ fits) first
      rw [exitFrames, exitLook_inner rooted free, if_neg other]
      refine rest.trans (congrArg Except.ok ?_)
      show _ = ((a.frame, (a.caller memory).jtab) :: Activation.passed (k + 1)
        (Activation.chain memory (n + 1) (a.caller memory))).reverse ++ found
      rw [List.reverse_cons, List.append_assoc]
      rfl

/-- If there is none, the walk ends at the outermost frame. -/
theorem exitFrames_none (rooted : Activation.Rooted memory (n + 1) low a)
    (free : HeadersFree memory (Activation.chain memory (n + 1) a)) (fits : n < fuel)
    (none : ∀ b ∈ Activation.chain memory n (a.caller memory),
      ¬ b.IsNamed memory segment procedure) :
    exitFrames memory segment procedure fuel a.frame found =
      .error (.trap (.exitFromUncalled segment procedure)) := by
  induction n generalizing low a fuel found with
  | zero =>
    obtain ⟨fuel, rfl⟩ : ∃ f, fuel = f + 1 := ⟨fuel - 1, by omega⟩
    rw [exitFrames, exitLook_outermost rooted free]
  | succ n ih =>
    obtain ⟨fuel, rfl⟩ : ∃ f, fuel = f + 1 := ⟨fuel - 1, by omega⟩
    rw [exitFrames, exitLook_inner rooted free, if_neg (none _ List.mem_cons_self)]
    exact ih rooted.2.2.2.2.2 (fun b hb => free b (List.mem_cons_of_mem a hb))
      (Nat.lt_of_succ_lt_succ fits) fun b hb => none b (List.mem_cons_of_mem _ hb)

/-! ## Redirecting callers -/

theorem exitOffset_congr {S : Address → Prop} (same : Memory.SameOff S memory memory')
    (apart : ∀ x, PointCells jtab x → ¬ S x) :
    Call.exitOffset memory' jtab = Call.exitOffset memory jtab := by
  have exit : AttributeTable.exit memory' jtab = AttributeTable.exit memory jtab :=
    AttributeTable.follow_congr 4 same apart (by decide)
  have entry : AttributeTable.entry memory' jtab = AttributeTable.entry memory jtab :=
    AttributeTable.follow_congr 2 same apart (by decide)
  rw [Call.exitOffset, Call.exitOffset, exit, entry]

/-- One caller is redirected. -/
theorem redirect_cons {frame : Address} (free : memory.Free (frame + Frame.savedIpc))
    (free' : memory.Free (frame + Frame.savedIpc + 1)) (low : 4 < jtab.toNat)
    (hm : m.memory = memory) (later : List (Address × Address)) :
    ∃ memory', redirect ((frame, jtab) :: later) m = redirect later (m.withMemory memory') ∧
      Memory.SameOff (ResumeSlot frame) memory memory' ∧ (∀ x, memory.Free x → memory'.Free x) ∧
      Call.exitOffset memory jtab = .ok (memory'.peekWord (frame + Frame.savedIpc)) := by
  subst hm
  obtain ⟨exit, hexit⟩ : ∃ exit, AttributeTable.exit m.memory jtab = .ok exit :=
    AttributeTable.exists_follow 4 low (by decide)
  obtain ⟨entry, hentry⟩ : ∃ entry, AttributeTable.entry m.memory jtab = .ok entry :=
    AttributeTable.exists_follow 2 low (by decide)
  have writes := Memory.writeWord_free (w := exit - entry) free free'
  have off : Keeps (Memory.AgreesOff (ResumeSlot frame))
      (Memory.writeWord (frame + Frame.savedIpc) (exit - entry)) :=
    Memory.keeps_writeWord_off (.inl rfl) (.inr rfl)
  refine ⟨_, ?_, ⟨off.of_ok writes, rfl⟩, fun x hx => Memory.free_store (Memory.free_store hx), ?_⟩
  · rw [redirect, bind_of_ok (reading_of_ok (f := (AttributeTable.exit · jtab)) hexit),
      bind_of_ok (reading_of_ok (f := (AttributeTable.entry · jtab)) hentry),
      bind_of_ok (onMemory_of_ok writes)]
  · rw [Memory.peekWord_of_writeWord free.unmapped free'.unmapped writes, Call.exitOffset, hexit,
      hentry]
    rfl

/-- All callers are redirected, as long as no table is read after it was written over. -/
theorem redirect_ok {frames : List (Address × Address)}
    (free : ∀ f ∈ frames, ∀ x, ResumeSlot f.1 x → m.memory.Free x)
    (low : ∀ f ∈ frames, 4 < f.2.toNat)
    (apart : frames.Pairwise fun f g =>
      ∀ x, ResumeSlot f.1 x → ¬ PointCells g.2 x ∧ ¬ ResumeSlot g.1 x) :
    ∃ memory', redirect frames m = .ok () (m.withMemory memory') ∧
      Memory.SameOff (fun x => ∃ f ∈ frames, ResumeSlot f.1 x) m.memory memory' ∧
      ∀ f ∈ frames, Call.exitOffset m.memory f.2 =
        .ok (memory'.peekWord (f.1 + Frame.savedIpc)) := by
  induction frames generalizing m with
  | nil => exact ⟨m.memory, rfl, Std.Refl.refl _, List.forall_mem_nil _⟩
  | cons f rest ih =>
    -- tables that are read later are not written over here, so they say what they said before
    obtain ⟨frame, jtab⟩ := f
    obtain ⟨here, later⟩ := List.pairwise_cons.1 apart
    obtain ⟨free₁, freeRest⟩ := List.forall_mem_cons.1 free
    obtain ⟨low₁, lowRest⟩ := List.forall_mem_cons.1 low
    obtain ⟨memory₁, eq, same₁, stays, offset⟩ :=
      redirect_cons (free₁ _ (.inl rfl)) (free₁ _ (.inr rfl)) low₁ rfl rest
    obtain ⟨memory', done, same', offsets⟩ := ih (m := m.withMemory memory₁)
      (fun g hg x hx => stays x (freeRest g hg x hx)) lowRest later
    have same : Memory.SameOff (fun x => ∃ g ∈ (frame, jtab) :: rest, ResumeSlot g.1 x) m.memory
        memory' :=
      IsTrans.trans _ memory₁ _ (same₁.mono fun x hx => ⟨_, List.mem_cons_self, hx⟩)
        (same'.mono fun x ⟨g, hg, hx⟩ => ⟨g, List.mem_cons_of_mem _ hg, hx⟩)
    -- the slots of the other frames are elsewhere, so the word stays
    have kept (x : Address) (hx : ResumeSlot frame x) : memory'.peekByte x = memory₁.peekByte x :=
      same'.off.peekByte fun ⟨g, hg, other⟩ => (here g hg x hx).2 other
    have word : memory'.peekWord (frame + Frame.savedIpc) =
        memory₁.peekWord (frame + Frame.savedIpc) :=
      Memory.peekWord_congr same'.order (kept _ (.inl rfl)) (kept _ (.inr rfl))
    refine ⟨memory', eq.trans done, same, List.forall_mem_cons.2 ⟨word ▸ offset, fun g hg => ?_⟩⟩
    have unread : Call.exitOffset memory₁ g.2 = Call.exitOffset m.memory g.2 :=
      exitOffset_congr same₁ fun x points slot => (here g hg x slot).1 points
    exact unread ▸ offsets g hg

/-! ## EXIT -/

/-- The frames of the active procedures are linked as calls link them, and their headers can be read
and written. -/
structure Framed (m : Machine) : Prop where
  active : 0 < m.depth
  rooted : Activation.Rooted m.memory m.depth 0 m.current
  free : HeadersFree m.memory m.activations

/-- EXIT finds the exit and entry words of the attribute tables of the activations up to number `k`:
none lies at the lowest addresses, and none where EXIT has written in the frame of an earlier
activation. -/
structure Readable (m : Machine) (k : Nat) : Prop where
  above : ∀ i ≤ k, ∀ a, m.activations[i]? = some a → 4 < a.jtab.toNat
  apart : ∀ i ≤ k, ∀ j, j + 1 < i → ∀ a b, m.activations[i]? = some a →
    m.activations[j]? = some b → ∀ x, PointCells a.jtab x → ¬ ResumeSlot b.frame x

/-- The current procedure goes on at its exit code, and the callers up to activation `k` at theirs
when they are returned to.  Nothing else has changed. -/
structure Unwound (m : Machine) (k : Nat) (m' : Machine) : Prop where
  current : AttributeTable.exit m.memory m.jtab = .ok (m.ipcBase + m'.ipc)
  callers : ∀ i < k, ∀ a b, m.activations[i]? = some a → m.activations[i + 1]? = some b →
    Call.exitOffset m.memory b.jtab = .ok (m'.memory.peekWord (a.frame + Frame.savedIpc))
  memory : Memory.SameOff
    (fun x => ∃ i < k, ∃ a, m.activations[i]? = some a ∧ ResumeSlot a.frame x) m.memory m'.memory
  rest : m' = ({ m with ipc := m'.ipc } : Machine).withMemory m'.memory

/-- The frames that EXIT redirects, the outermost first: none if it names the current procedure. -/
def exitWalk (m : Machine) (segment procedure : UInt8) (here : Bool) :
    Except Stop (List (Address × Address)) :=
  if here then .ok [] else exitFrames m.memory segment procedure longestChain m.mp []

theorem exitProcedure_eq {here : Bool}
    (target : isTarget m.memory segment procedure m.seg m.jtab = .ok here) :
    exitProcedure segment procedure m =
      match exitWalk m segment procedure here with
      | .error stop => .error stop m
      | .ok frames => (do
          let exit ← reading (AttributeTable.exit · m.jtab)
          modify fun m => { m with ipc := exit - m.ipcBase }
          redirect frames.reverse : Exec Unit) m := by
  have started : exitProcedure segment procedure m = _ :=
    (get_bind_apply _ m).trans (bind_of_ok (raising_of_ok
      (reading_of_ok (f := (isTarget · segment procedure m.seg m.jtab)) target)))
  rw [started, exitWalk]
  cases here with
  | true => rfl
  | false =>
    simp only [Bool.false_eq_true, if_false]
    cases exitFrames m.memory segment procedure longestChain m.mp [] <;> rfl

theorem exitProcedure_ok {here : Bool} {frames : List (Address × Address)} {exit : Address}
    (target : isTarget m.memory segment procedure m.seg m.jtab = .ok here)
    (walk : exitWalk m segment procedure here = .ok frames.reverse)
    (found : AttributeTable.exit m.memory m.jtab = .ok exit) :
    exitProcedure segment procedure m =
      (liftM (redirect frames) : Exec Unit) { m with ipc := exit - m.ipcBase } := by
  rw [exitProcedure_eq target, walk]
  dsimp only
  rw [List.reverse_reverse]
  exact liftM_bind_of_ok (reading_of_ok (f := (AttributeTable.exit · m.jtab)) found)

namespace Framed

variable (framed : m.Framed)
include framed

theorem chained : ∃ n, m.depth = n + 1 ∧
    m.activations = m.current :: Activation.chain m.memory n (m.current.caller m.memory) := by
  have active := framed.active
  obtain ⟨n, depth⟩ : ∃ n, m.depth = n + 1 := ⟨m.depth - 1, by omega⟩
  refine ⟨n, depth, ?_⟩
  rw [activations, depth]
  rfl

/-- EXIT can see whether it names the current procedure. -/
theorem isTarget : isTarget m.memory segment procedure m.seg m.jtab =
    .ok (decide (m.current.IsNamed m.memory segment procedure)) := by
  obtain ⟨n, depth, -⟩ := framed.chained
  have rooted := framed.rooted
  rw [depth] at rooted
  have table : 2 < m.jtab.toNat := rooted.2.2.2.1
  refine isTarget_eq (a := m.current) fun zero => ?_
  rw [show m.jtab = 0 from zero] at table
  exact absurd table (by decide)

/-- The walk passes the frames of all activations before the one that EXIT names. -/
theorem exitWalk_found
    (first : Activation.Innermost m.memory segment procedure m.activations k) :
    exitWalk m segment procedure (decide (m.current.IsNamed m.memory segment procedure)) =
      .ok (Activation.passed k m.activations).reverse := by
  obtain ⟨n, depth, chained⟩ := framed.chained
  rw [exitWalk]
  -- If the running procedure is the one that is named, no frame is passed; otherwise the walk
  -- starts at the caller's.
  cases k with
  | zero =>
    obtain ⟨⟨a, here, named⟩, -⟩ := first
    rw [chained] at here
    cases here
    rw [if_pos (decide_eq_true named)]
    rfl
  | succ k =>
    have rooted := framed.rooted
    have free := framed.free
    have room := (depth ▸ rooted).room
    rw [chained] at first
    obtain ⟨other, first⟩ := first.tail
    rw [if_neg (by simpa using other)]
    rw [activations, depth] at free ⊢
    rw [depth] at rooted
    have found : exitFrames m.memory segment procedure longestChain m.mp [] = _ :=
      exitFrames_found rooted free (by rw [longestChain]; omega) first
    rwa [List.append_nil] at found

theorem exitWalk_none
    (none : ∀ a ∈ m.activations, ¬ a.IsNamed m.memory segment procedure) :
    exitWalk m segment procedure (decide (m.current.IsNamed m.memory segment procedure)) =
      .error (.trap (.exitFromUncalled segment procedure)) := by
  obtain ⟨n, depth, chained⟩ := framed.chained
  have rooted := framed.rooted
  have free := framed.free
  have room := (depth ▸ rooted).room
  rw [chained] at none
  obtain ⟨other, none⟩ := List.forall_mem_cons.1 none
  rw [exitWalk, if_neg (by simpa using other)]
  rw [activations, depth] at free
  rw [depth] at rooted
  exact exitFrames_none rooted free (by rw [longestChain]; omega) none

/-- The slots that EXIT writes to are free and apart from one another and, if EXIT can read the
tables, also from the tables that are read later. -/
theorem passed_writable :
    (∀ f ∈ Activation.passed k m.activations, ∀ x, ResumeSlot f.1 x → m.memory.Free x) ∧
    (m.Readable k → (Activation.passed k m.activations).Pairwise fun f g =>
      ∀ x, ResumeSlot f.1 x → ¬ PointCells g.2 x ∧ ¬ ResumeSlot g.1 x) := by
  constructor
  · intro f hf x hx
    obtain ⟨i, -, a, b, ha, -, rfl⟩ := Activation.mem_passed.1 hf
    obtain ⟨j, -, hj, rfl⟩ := hx.offset
    exact framed.free a (List.mem_of_getElem? ha) j (by omega)
  · intro readable
    rw [List.pairwise_iff_getElem]
    intro i j hi hj less x slot
    obtain ⟨-, a, b, ha, -, f⟩ := Activation.getElem?_passed.1 (List.getElem?_eq_getElem hi)
    obtain ⟨inside, c, d, hc, hd, g⟩ := Activation.getElem?_passed.1 (List.getElem?_eq_getElem hj)
    rw [f] at slot
    rw [g]
    obtain ⟨place, rfl⟩ := List.getElem?_eq_some_iff.1 ha
    obtain ⟨place', rfl⟩ := List.getElem?_eq_some_iff.1 hc
    have above := List.pairwise_iff_getElem.1 framed.rooted.pairwise i j place place' less
    obtain ⟨-, -, top⟩ := framed.rooted.of_mem (List.mem_of_getElem? hc)
    exact ⟨fun points => readable.apart (j + 1) inside i (by omega) d _ hd ha x points slot,
      slot.apart above top⟩

/-- If EXIT names an activation, the callers up to it are redirected. -/
theorem exitProcedure_found (readable : m.Readable k)
    (first : Activation.Innermost m.memory segment procedure m.activations k) :
    ∃ m', exitProcedure segment procedure m = .ok () m' ∧ m.Unwound k m' := by
  obtain ⟨n, -, chained⟩ := framed.chained
  obtain ⟨exit, found⟩ : ∃ exit, AttributeTable.exit m.memory m.jtab = .ok exit :=
    AttributeTable.exists_follow 4
      (readable.above 0 (Nat.zero_le k) m.current (by rw [chained]; rfl)) (by decide)
  obtain ⟨free, apart⟩ := framed.passed_writable (k := k)
  -- Every frame that is passed can be written, and no write reaches a header that is still to be
  -- redirected.
  have low : ∀ f ∈ Activation.passed k m.activations, 4 < f.2.toNat := by
    intro f hf
    obtain ⟨i, inside, a, b, -, hb, rfl⟩ := Activation.mem_passed.1 hf
    exact readable.above (i + 1) inside b hb
  obtain ⟨memory', redirected, same, offsets⟩ :=
    redirect_ok (m := { m with ipc := exit - m.ipcBase }) free low (apart readable)
  refine ⟨_, (exitProcedure_ok framed.isTarget (framed.exitWalk_found first) found).trans
    (raising_of_ok redirected), ?_, ?_, same.mono ?_, rfl⟩
  · show _ = Except.ok (m.ipcBase + (exit - m.ipcBase))
    rw [found, UInt16.add_comm, UInt16.sub_add_cancel]
  · intro i inside a b ha hb
    exact offsets (a.frame, b.jtab) (Activation.mem_passed.2 ⟨i, inside, a, b, ha, hb, rfl⟩)
  · rintro x ⟨f, hf, slot⟩
    obtain ⟨i, inside, a, b, ha, -, rfl⟩ := Activation.mem_passed.1 hf
    exact ⟨i, inside, a, ha, slot⟩

/-- If it names none, nothing happens. -/
theorem exitProcedure_none
    (none : ∀ a ∈ m.activations, ¬ a.IsNamed m.memory segment procedure) :
    exitProcedure segment procedure m =
      .error (.trap (.exitFromUncalled segment procedure)) m := by
  rw [exitProcedure_eq framed.isTarget, framed.exitWalk_none none]

/-- Frames that EXIT has not passed keep where their callers go on. -/
theorem unwound_outer (unwound : m.Unwound k m') {i : Nat} (outer : k ≤ i)
    (ha : m.activations[i]? = some a) :
    m'.memory.peekWord (a.frame + Frame.savedIpc) =
      m.memory.peekWord (a.frame + Frame.savedIpc) := by
  obtain ⟨place, rfl⟩ := List.getElem?_eq_some_iff.1 ha
  have kept (x : Address) (slot : ResumeSlot m.activations[i].frame x) :
      m'.memory.peekByte x = m.memory.peekByte x := by
    refine unwound.memory.off.peekByte ?_
    rintro ⟨j, inside, b, hb, other⟩
    obtain ⟨place', rfl⟩ := List.getElem?_eq_some_iff.1 hb
    have above := List.pairwise_iff_getElem.1 framed.rooted.pairwise j i place' place (by omega)
    obtain ⟨-, -, top⟩ := framed.rooted.of_mem (List.mem_of_getElem? ha)
    exact other.apart above top slot
  exact Memory.peekWord_congr unwound.memory.order (kept _ (.inl rfl)) (kept _ (.inr rfl))

end Framed

/-- Fetching and popping the operands of EXIT leaves the frames as they are. -/
theorem Framed.of_silent (framed : m.Framed) (silent : Silent m m') : m'.Framed := by
  have memory := silent.memory
  have current : m'.current = m.current := by
    rw [silent.rest]
    rfl
  refine ⟨silent.depth ▸ framed.active, ?_, ?_⟩
  · rw [memory, silent.depth, current]
    exact framed.rooted
  · rw [memory, silent.activations]
    exact framed.free

/-- Attribute tables in code are readable: code is apart from frames, and cannot lie at the lowest
addresses. -/
theorem Framed.readable_of_inCode (framed : m.Framed) (secure : m.Secure)
    (coded : ∀ a ∈ m.activations, m.InCode a) (k : Nat) : m.Readable k := by
  constructor
  · intro i _ a ha
    obtain ⟨part, p, -, -, first, -⟩ := (coded a (List.mem_of_getElem? ha)).exists_part
    omega
  · intro i _ j _ a b ha hb x ⟨d, one, four, points⟩ slot
    obtain ⟨part, p, -, placed, first, last⟩ := (coded a (List.mem_of_getElem? ha)).exists_part
    have place : x.toNat = a.jtab.toNat - d := by
      rw [points]
      exact Memory.toNat_sub_of_le (by omega)
    -- the word is protected and the slot is not
    have locked : (m.memory.cell x).readOnly = true :=
      (secure.layout.marked x).2 ⟨part, p, placed, by rw [Placement.Covers]; omega⟩
    obtain ⟨o, -, ho, rfl⟩ := slot.offset
    have free := framed.free b (List.mem_of_getElem? hb) o (by omega)
    rw [free.unlocked] at locked
    cases locked

end Machine
end PSystem
