import PSystem.Proofs.Secure

/-!
# Active frames

The active frames of a machine are found in its memory: the header of each frame names the frame,
the segment and the attribute table of its caller.  `Rooted` says that the links are in order: they
lead upward through frames that do not overlap, to the outermost frame, whose caller is nothing.
`Standing` is `Secure` with such links and with every segment counted as used that a frame entered.
`Balances` is the step relation behind it: whatever is entered is counted, and whatever is left is
not counted any more.
-/

namespace PSystem

/-- A frame with the segment and the attribute table of its procedure. -/
structure Activation where
  frame : Address
  segment : UInt8
  jtab : Address
  deriving DecidableEq, Repr

namespace Activation

/-- What stands for the caller of the outermost frame. -/
def nothing : Activation := ⟨0, 0, 0⟩

/-- The caller that the header of a frame names. -/
def caller (m : Memory) (a : Activation) : Activation where
  frame := m.peekWord (a.frame + Frame.dynamicLink)
  segment := (m.peekWord (a.frame + Frame.savedSeg)).toUInt8
  jtab := m.peekWord (a.frame + Frame.savedJtab)

/-- An activation and its callers, `n` in all. -/
def chain (m : Memory) : Nat → Activation → List Activation
  | 0, _ => []
  | n + 1, a => a :: chain m n (a.caller m)

/-- The segment that a list of activations starts in. -/
def segmentOf : List Activation → UInt8
  | [] => 0
  | a :: _ => a.segment

/-- How many activations are of a segment and have a caller in another one. -/
def entries (s : UInt8) : List Activation → Nat
  | [] => 0
  | a :: rest => (if a.segment = s ∧ segmentOf rest ≠ s then 1 else 0) + entries s rest

/-- The links from an activation lead through `n` frames from `low` on upward, and then to nothing.
The outermost frame has nothing to go on with. -/
def Rooted (m : Memory) : (n low : Nat) → Activation → Prop
  | 0, _, a => a = nothing
  | n + 1, low, a => low ≤ a.frame.toNat ∧ 0x100 ≤ a.frame.toNat ∧ a.frame.toNat + 14 ≤ 0xF000 ∧
      2 < a.jtab.toNat ∧ (n = 0 → m.peekWord (a.frame + Frame.savedIpc) = 0) ∧
      Rooted m n (a.frame.toNat + 14) (a.caller m)

variable {m m' : Memory} {n low low' : Nat} {a b c : Activation} {s : UInt8}

/-! ## Links -/

theorem length_chain (m : Memory) (n : Nat) (a : Activation) : (chain m n a).length = n := by
  induction n generalizing a with
  | zero => rfl
  | succ n ih => exact congrArg (· + 1) (ih _)

theorem Rooted.weaken (h : Rooted m n low a) (bound : 0 < n → low' ≤ a.frame.toNat) :
    Rooted m n low' a := by
  cases n with
  | zero => exact h
  | succ n => exact ⟨bound (Nat.succ_pos n), h.2⟩

theorem Rooted.of_mem (h : Rooted m n low a) (member : b ∈ chain m n a) :
    low ≤ b.frame.toNat ∧ 0x100 ≤ b.frame.toNat ∧ b.frame.toNat + 14 ≤ 0xF000 := by
  -- frames lie ever higher, so the lower bound only grows along the links
  induction n generalizing low a with
  | zero => cases member
  | succ n ih =>
    obtain ⟨first, start, top, -, -, rest⟩ := h
    rcases List.mem_cons.1 member with rfl | later
    · exact ⟨first, start, top⟩
    · obtain ⟨above, bounds⟩ := ih rest later
      exact ⟨by omega, bounds⟩

/-- There is room for a few thousand frames only. -/
theorem Rooted.room (h : Rooted m (n + 1) low a) : low + 14 * (n + 1) ≤ 0xF000 := by
  induction n generalizing low a with
  | zero =>
    obtain ⟨first, -, top, -⟩ := h
    omega
  | succ n ih =>
    obtain ⟨first, -, -, -, -, rest⟩ := h
    have := ih rest
    omega

theorem Rooted.length_le (h : Rooted m n low a) : n ≤ 4370 := by
  cases n with
  | zero => omega
  | succ n =>
    have start : 0x100 ≤ a.frame.toNat := h.2.1
    have room := (h.weaken fun _ => start).room
    omega

/-- Two frames of a chain are the same or do not overlap. -/
theorem Rooted.apart (h : Rooted m n low a) (hb : b ∈ chain m n a) (hc : c ∈ chain m n a) :
    b.frame = c.frame ∨ b.frame.toNat + 14 ≤ c.frame.toNat ∨
      c.frame.toNat + 14 ≤ b.frame.toNat := by
  induction n generalizing low a with
  | zero => cases hb
  | succ n ih =>
    obtain ⟨-, -, -, -, -, rest⟩ := h
    rcases List.mem_cons.1 hb with rfl | hb
    · rcases List.mem_cons.1 hc with rfl | hc
      · exact .inl rfl
      · exact .inr (.inl (rest.of_mem hc).1)
    · rcases List.mem_cons.1 hc with rfl | hc
      · exact .inr (.inr (rest.of_mem hb).1)
      · exact ih rest hb hc

/-- The segment of the first activation, also if there is none. -/
theorem Rooted.segmentOf_chain (h : Rooted m n low a) : segmentOf (chain m n a) = a.segment := by
  cases n with
  | zero =>
    cases h
    rfl
  | succ n => rfl

/-- The links stay in order as long as the headers say the same about callers, and the outermost
frame still has nothing to go on with. -/
theorem Rooted.congr (h : Rooted m n low a)
    (same : ∀ b ∈ chain m n a, b.caller m' = b.caller m ∧ ((b.caller m).jtab = 0 →
      m'.peekWord (b.frame + Frame.savedIpc) = m.peekWord (b.frame + Frame.savedIpc))) :
    Rooted m' n low a ∧ chain m' n a = chain m n a := by
  induction n generalizing low a with
  | zero => exact ⟨h, rfl⟩
  | succ n ih =>
    obtain ⟨first, start, top, table, outermost, rest⟩ := h
    obtain ⟨caller, resumes⟩ := same a List.mem_cons_self
    obtain ⟨rest', chained⟩ := ih rest fun b hb => same b (List.mem_cons_of_mem a hb)
    refine ⟨⟨first, start, top, table, ?_, ?_⟩, ?_⟩
    · -- the caller of the outermost frame is nothing, which has no table
      rintro rfl
      have nothing : (a.caller m).jtab = 0 := by
        rw [show a.caller m = Activation.nothing from rest]
        rfl
      rw [resumes nothing]
      exact outermost rfl
    · rw [caller]
      exact rest'
    · show a :: chain m' n (a.caller m') = _
      rw [caller, chained]
      rfl

/-- The words of a header follow from its bytes, of which those from 10 on say where the caller goes
on and what it had on the evaluation stack. -/
theorem same_of_bytes (order : m'.order = m.order)
    (bytes : ∀ i < 14, i < 10 ∨ (a.caller m).jtab = 0 →
      m'.peekByte (a.frame + UInt16.ofNat i) = m.peekByte (a.frame + UInt16.ofNat i)) :
    a.caller m' = a.caller m ∧ ((a.caller m).jtab = 0 →
      m'.peekWord (a.frame + Frame.savedIpc) = m.peekWord (a.frame + Frame.savedIpc)) := by
  have word {i : Nat} (hi : i + 1 < 14) (needed : i + 1 < 10 ∨ (a.caller m).jtab = 0) :
      m'.peekWord (a.frame + UInt16.ofNat i) = m.peekWord (a.frame + UInt16.ofNat i) := by
    have first := bytes i (by omega) (needed.imp_left (by omega))
    have second := bytes (i + 1) hi needed
    rw [UInt16.ofNat_add, ← UInt16.add_assoc] at second
    exact Memory.peekWord_congr order first second
  have frame : m'.peekWord (a.frame + Frame.dynamicLink) =
      m.peekWord (a.frame + Frame.dynamicLink) :=
    word (i := 4) (by decide) (.inl (by decide))
  have jtab : m'.peekWord (a.frame + Frame.savedJtab) = m.peekWord (a.frame + Frame.savedJtab) :=
    word (i := 6) (by decide) (.inl (by decide))
  have seg : m'.peekWord (a.frame + Frame.savedSeg) = m.peekWord (a.frame + Frame.savedSeg) :=
    word (i := 8) (by decide) (.inl (by decide))
  refine ⟨?_, fun outermost => word (i := 10) (by decide) (.inr outermost)⟩
  unfold caller
  rw [frame, jtab, seg]

/-- Writes below the frames and above the program stack leave the links alone. -/
theorem Rooted.beside (h : Rooted m n low a) (order : m'.order = m.order)
    (bytes : ∀ x : Address, low ≤ x.toNat → 0x100 ≤ x.toNat → x.toNat < 0xF000 →
      m'.peekByte x = m.peekByte x) : Rooted m' n low a ∧ chain m' n a = chain m n a := by
  apply h.congr
  intro b hb
  obtain ⟨above, start, top⟩ := h.of_mem hb
  apply same_of_bytes order
  intro i hi _
  -- frames end below the evaluation stack, so their addresses do not wrap around
  have place : (b.frame + UInt16.ofNat i).toNat = b.frame.toNat + i := by
    rw [UInt16.toNat_add, UInt16.toNat_ofNat']
    omega
  exact bytes _ (by omega) (by omega) (by omega)

/-! ## Entries -/

theorem entries_cons (s : UInt8) (a : Activation) (rest : List Activation) :
    entries s (a :: rest) =
      (if a.segment = s ∧ segmentOf rest ≠ s then 1 else 0) + entries s rest := rfl

theorem entries_le_length (s : UInt8) (as : List Activation) : entries s as ≤ as.length := by
  induction as with
  | nil => exact Nat.le_refl 0
  | cons a rest ih =>
    rw [entries_cons, List.length_cons]
    split <;> omega

/-- A segment that has an activation was entered, for the outermost caller is in segment 0. -/
theorem entries_pos (other : s ≠ 0) {as : List Activation} (member : ∃ b ∈ as, b.segment = s) :
    0 < entries s as := by
  induction as with
  | nil =>
    obtain ⟨b, hb, -⟩ := member
    cases hb
  | cons a rest ih =>
    unfold entries
    by_cases entered : a.segment = s ∧ segmentOf rest ≠ s
    · rw [if_pos entered]
      omega
    · -- the first activation of the segment is further out, where it was entered
      have below : ∃ b ∈ rest, b.segment = s := by
        obtain ⟨b, hb, same⟩ := member
        rcases List.mem_cons.1 hb with rfl | hb
        · have next : segmentOf rest = s := by
            by_contra different
            exact entered ⟨same, different⟩
          cases rest with
          | nil => exact absurd next (Ne.symm other)
          | cons c rest => exact ⟨c, List.mem_cons_self, next⟩
        · exact ⟨b, hb, same⟩
      have := ih below
      omega

end Activation
namespace Machine

open Activation (entries)

variable {α ε : Type} {m m' : Machine} {segment procedure : UInt8} {jtab : Address} {p : Attributes}

/-! ## Standing machines -/

/-- The current activation. -/
def current (m : Machine) : Activation := ⟨m.mp, m.seg, m.jtab⟩

/-- The active frames, innermost first. -/
def activations (m : Machine) : List Activation :=
  Activation.chain m.memory m.depth m.current

theorem length_activations (m : Machine) : m.activations.length = m.depth :=
  Activation.length_chain m.memory m.depth m.current

/-- The use count of a segment; 0 for a number that the table does not have. -/
def useCount (m : Machine) (s : UInt8) : Nat :=
  ((m.segments.get? s).map Segment.useCount).getD 0

/-- What holds of a started machine whose program leaves the headers of its frames alone, whatever it
does to use counts. -/
structure Upright (m : Machine) : Prop where
  secure : m.Secure
  rooted : Activation.Rooted m.memory m.depth m.psp.toNat m.current
  idle : m.depth = 0 → m.ipc = 0 ∧ m.ipcBase = 0

/-- What holds of such a machine if its program also gives up no more uses of segments than it has. -/
structure Standing (m : Machine) : Prop where
  secure : m.Secure
  rooted : Activation.Rooted m.memory m.depth m.psp.toNat m.current
  idle : m.depth = 0 → m.ipc = 0 ∧ m.ipcBase = 0
  covered : ∀ s, s ≠ 0 → entries s m.activations ≤ m.useCount s

theorem Standing.upright (h : m.Standing) : m.Upright :=
  ⟨h.secure, h.rooted, h.idle⟩

/-- A standing machine stays one, and use counts move with the entries of activations. -/
def Balances (m m' : Machine) : Prop :=
  m.Standing → m'.Standing ∧
    ∀ s, s ≠ 0 → m'.useCount s + entries s m.activations = m.useCount s + entries s m'.activations

instance : IsPreorder Machine Balances where
  refl _ h := ⟨h, fun _ _ => rfl⟩
  trans m m' m'' h h' standing := by
    obtain ⟨standing', moved⟩ := h standing
    obtain ⟨standing'', moved'⟩ := h' standing'
    refine ⟨standing'', ?_⟩
    intro s other
    have first := moved s other
    have second := moved' s other
    omega

/-- A machine with the same activations, for which its memory and its registers give no reason to
change. -/
theorem Upright.carried (h : m.Upright) (secure : m'.Secure) (depth : m'.depth = m.depth)
    (current : m'.current = m.current) (psp : 0 < m.depth → m'.psp.toNat ≤ m.mp.toNat)
    (idle : m.depth = 0 → m'.ipc = m.ipc ∧ m'.ipcBase = m.ipcBase)
    (links : Activation.Rooted m'.memory m.depth m.psp.toNat m.current ∧
      Activation.chain m'.memory m.depth m.current = m.activations) :
    m'.Upright ∧ m'.activations = m.activations := by
  have same : m'.activations = m.activations := by
    unfold activations
    rw [depth, current]
    exact links.2
  refine ⟨⟨secure, ?_, ?_⟩, same⟩
  · rw [depth, current]
    exact links.1.weaken psp
  · intro outermost
    rw [depth] at outermost
    rw [(idle outermost).1, (idle outermost).2]
    exact h.idle outermost

theorem Standing.carried (h : m.Standing) (secure : m'.Secure) (depth : m'.depth = m.depth)
    (current : m'.current = m.current) (psp : 0 < m.depth → m'.psp.toNat ≤ m.mp.toNat)
    (idle : m.depth = 0 → m'.ipc = m.ipc ∧ m'.ipcBase = m.ipcBase)
    (links : Activation.Rooted m'.memory m.depth m.psp.toNat m.current ∧
      Activation.chain m'.memory m.depth m.current = m.activations)
    (uses : ∀ s, s ≠ 0 → entries s m.activations ≤ m'.useCount s) :
    m'.Standing ∧ m'.activations = m.activations := by
  obtain ⟨upright, same⟩ := h.upright.carried secure depth current psp idle links
  refine ⟨⟨secure, upright.rooted, upright.idle, ?_⟩, same⟩
  rw [same]
  exact uses

theorem Upright.psp_le (h : m.Upright) (active : 0 < m.depth) : m.psp.toNat ≤ m.mp.toNat := by
  have rooted := h.rooted
  cases hd : m.depth with
  | zero => omega
  | succ n =>
    rw [hd] at rooted
    exact rooted.1

theorem useCount_congr (same : m'.segments = m.segments) (s : UInt8) :
    m'.useCount s = m.useCount s := by
  unfold useCount
  rw [same]

/-! ## Work beside the activations -/

/-- Nothing changed that activations and use counts depend on. -/
structure Beside (m m' : Machine) : Prop where
  order : m'.memory.order = m.memory.order
  bytes : ∀ x : Address, m.psp.toNat ≤ x.toNat → 0x100 ≤ x.toNat → x.toNat < 0xF000 →
    m'.memory.peekByte x = m.memory.peekByte x
  segments : m'.segments = m.segments
  psp : m'.psp = m.psp
  mp : m'.mp = m.mp
  seg : m'.seg = m.seg
  jtab : m'.jtab = m.jtab
  depth : m'.depth = m.depth
  ipc : m'.ipc = m.ipc
  ipcBase : m'.ipcBase = m.ipcBase

instance : IsPreorder Machine Beside where
  refl _ := ⟨rfl, fun _ _ _ _ => rfl, rfl, rfl, rfl, rfl, rfl, rfl, rfl, rfl⟩
  trans _ _ _ h h' :=
    { order := h'.order.trans h.order
      bytes := fun x low start top => (h'.bytes x (h.psp ▸ low) start top).trans
        (h.bytes x low start top)
      segments := h'.segments.trans h.segments
      psp := h'.psp.trans h.psp
      mp := h'.mp.trans h.mp
      seg := h'.seg.trans h.seg
      jtab := h'.jtab.trans h.jtab
      depth := h'.depth.trans h.depth
      ipc := h'.ipc.trans h.ipc
      ipcBase := h'.ipcBase.trans h.ipcBase }

/-- What the host shows lies beside all activations. -/
theorem Beside.observe (m : Machine) (host : HostView) : Beside m (m.observe host) :=
  ⟨rfl, fun _ _ _ _ => rfl, rfl, rfl, rfl, rfl, rfl, rfl, rfl, rfl⟩

theorem Beside.current (h : Beside m m') : m'.current = m.current := by
  unfold Machine.current
  rw [h.mp, h.seg, h.jtab]

/-- Work beside the activations, of whatever kind, balances. -/
theorem Balances.of_beside (h : Beside m m') (settles : Settles m m') : Balances m m' := by
  intro standing
  have uses (s : UInt8) := useCount_congr h.segments s
  obtain ⟨standing', same⟩ := standing.carried (settles standing.secure).1 h.depth h.current
    (fun active => h.psp ▸ standing.upright.psp_le active) (fun _ => ⟨h.ipc, h.ipcBase⟩)
    (standing.rooted.beside h.order h.bytes)
    (fun s other => uses s ▸ standing.covered s other)
  refine ⟨standing', ?_⟩
  intro s other
  rw [uses, same]

instance balances_of_beside (x : EStateM ε Machine α) [beside : Keeps Beside x]
    [settles : Keeps Settles x] : Keeps Balances x :=
  ⟨fun m => Balances.of_beside (beside.related m) (settles.related m)⟩

/-- Operands and popped words cost nothing, as long as there is a procedure that asks for them. -/
theorem Balances.of_silent (active : 0 < m.depth) (h : Silent m m') : Balances m m' := by
  intro standing
  have segments : m'.segments = m.segments := by rw [h.rest]
  have depth : m'.depth = m.depth := by rw [h.rest]
  have current : m'.current = m.current := by rw [h.rest]; rfl
  have psp : m'.psp = m.psp := by rw [h.rest]
  have uses (s : UInt8) := useCount_congr segments s
  obtain ⟨standing', same⟩ := standing.carried ((Settles.of_quiet h.quiet) standing.secure).1 depth
    current (fun _ => psp ▸ standing.upright.psp_le active) (fun outermost => absurd outermost (by omega))
    (by rw [h.memory]; exact ⟨standing.rooted, rfl⟩)
    (fun s other => uses s ▸ standing.covered s other)
  refine ⟨standing', ?_⟩
  intro s other
  rw [uses, same]

theorem Silent.depth (h : Silent m m') : m'.depth = m.depth := by rw [h.rest]

theorem Silent.activations (h : Silent m m') : m'.activations = m.activations := by
  unfold Machine.activations
  rw [h.memory, h.rest]
  rfl

theorem Silent.useCount (h : Silent m m') (s : UInt8) : m'.useCount s = m.useCount s :=
  useCount_congr (by rw [h.rest]) s

theorem Silent.standing (h : Silent m m') (active : 0 < m.depth) (standing : m.Standing) :
    m'.Standing :=
  (Balances.of_silent active h standing).1

/-- Operands that are fetched or popped before something else. -/
theorem balances_bind_of_silent {β : Type} {x : EStateM ε Machine α}
    {f : α → EStateM ε Machine β} [hx : Keeps Silent x] (active : 0 < m.depth)
    (h : ∀ a m', x m = .ok a m' → Silent m m' → Balances m' (endState (f a m'))) :
    Balances m (endState ((x >>= f) m)) := by
  have kept := hx.related m
  rcases bind_cases (rfl : (x >>= f) m = _) with ⟨e, m', hx, hr⟩ | ⟨a, m', hx, hr⟩
  · rw [hx] at kept
    rw [hr]
    exact Balances.of_silent active kept
  · rw [hx] at kept
    rw [← hr]
    exact IsTrans.trans _ _ _ (Balances.of_silent active kept) (h a m' hx kept)

/-- An instruction that leaves the headers of active frames alone. -/
theorem Balances.of_kept (active : 0 < m.depth) (h : Quiet m m')
    (links : Activation.Rooted m'.memory m.depth m.psp.toNat m.current ∧
      Activation.chain m'.memory m.depth m.current = m.activations) : Balances m m' := by
  intro standing
  have current : m'.current = m.current := by
    unfold Machine.current
    rw [h.mp, h.seg, h.jtab]
  have uses (s : UInt8) := useCount_congr h.segments s
  obtain ⟨standing', same⟩ := standing.carried ((Settles.of_quiet h) standing.secure).1 h.depth
    current (fun _ => h.psp ▸ standing.upright.psp_le active)
    (fun outermost => absurd outermost (by omega)) links
    (fun s other => uses s ▸ standing.covered s other)
  refine ⟨standing', ?_⟩
  intro s other
  rw [uses, same]

/-- The headers of the active frames are the same in another memory. -/
def HeadersIn (m : Machine) (memory : Memory) : Prop :=
  ∀ a ∈ m.activations, ∀ i < 14,
    memory.peekByte (a.frame + UInt16.ofNat i) = m.memory.peekByte (a.frame + UInt16.ofNat i)

theorem Upright.links (h : m.Upright) {memory : Memory} (order : memory.order = m.memory.order)
    (kept : m.HeadersIn memory) : Activation.Rooted memory m.depth m.psp.toNat m.current ∧
      Activation.chain memory m.depth m.current = m.activations :=
  h.rooted.congr fun a ha => Activation.same_of_bytes order fun i hi _ => kept a ha i hi

theorem Silent.headersIn {memory : Memory} (h : Silent m m') (kept : m.HeadersIn memory) :
    m'.HeadersIn memory := by
  intro a ha i hi
  rw [h.activations] at ha
  rw [h.memory]
  exact kept a ha i hi

theorem balances_of_quiet {x : Exec α} (quiet : Keeps Quiet x) (active : 0 < m.depth)
    (kept : m.HeadersIn (endState (x m)).memory) : Balances m (endState (x m)) := by
  intro standing
  have ended : Quiet m (endState (x m)) := quiet.related m
  exact Balances.of_kept active ended (standing.upright.links ended.memory.order kept) standing

end Machine

end PSystem
