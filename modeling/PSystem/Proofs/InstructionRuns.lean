import PSystem.Proofs.SetInstructions

/-!
# Instructions one after another

A `MachineEvent` is a word that is pushed, or an instruction that is executed.
`Machine.Performs m events post` says that `m` carries out the events one after another, executing each
instruction wherever its bytes lie by then, and that `post` holds of the result and of the machine it
leaves; the first event that fails is the last one.  `Performs.run` is the case in which each
instruction lies where the machine goes on.

`Memory.Within S` is what a write keeps that reaches only cells in `S`, and `Store.WorksBelow p` says
that a computation on the stack changes no cell but those of the stack below `p`.
-/

namespace PSystem

/-! ## Writes to some cells -/

namespace Memory

variable {S T : Address → Prop} {m m' : Memory} {a : Address}

theorem add_ofNat_zero (a : Address) : a + UInt16.ofNat 0 = a :=
  UInt16.add_zero a

/-- What writes to cells in `S` keep. -/
structure Within (S : Address → Prop) (m m' : Memory) : Prop extends Guarded m m' where
  off : AgreesOff S m m'

instance (S : Address → Prop) : IsPreorder Memory (Within S) where
  refl m := ⟨Std.Refl.refl m, Std.Refl.refl (r := AgreesOff S) m⟩
  trans _ _ _ h h' :=
    ⟨IsTrans.trans _ _ _ h.toGuarded h'.toGuarded, IsTrans.trans (r := AgreesOff S) _ _ _ h.off h'.off⟩

theorem Within.mono (h : Within S m m') (imp : ∀ b, S b → T b) : Within T m m' :=
  ⟨h.toGuarded, h.off.mono imp⟩

theorem Within.peekWord (h : Within S m m') (first : ¬ S a) (second : ¬ S (a + 1)) :
    m'.peekWord a = m.peekWord a :=
  h.off.peekWord h.toGuarded first second

theorem within_of_writeWord {w : Word} (h : writeWord a w m = .ok () m') :
    Within (fun b => b = a ∨ b = a + 1) m m' :=
  have off : Keeps (AgreesOff fun b => b = a ∨ b = a + 1) (writeWord a w) :=
    keeps_writeWord_off (.inl rfl) (.inr rfl)
  ⟨Keeps.of_ok h, off.of_ok h⟩

end Memory

/-! ## The cells of the stack -/

namespace Store

variable {p : Address} {s s' : Store} {w : Word} {us ws : List Word}

/-- The cells of the evaluation stack below `p`. -/
def Below (p a : Address) : Prop :=
  limit ≤ a ∧ a < p

instance (p a : Address) : Decidable (Below p a) :=
  inferInstanceAs (Decidable (_ ∧ _))

theorem Below.mono {a q : Address} (h : Below p a) (le : p ≤ q) : Below q a :=
  ⟨h.1, UInt16.lt_of_lt_of_le h.2 le⟩

/-- The pointer is on a word and not past `p`. -/
def AtMost (p : Address) (s : Store) : Prop :=
  s.sp.toNat % 2 = 0 ∧ s.sp ≤ p

theorem Usable.atMost (h : s.Usable) : s.AtMost s.sp :=
  ⟨h.even, UInt16.le_refl _⟩

theorem Usable.atMost_top (h : s.Usable) : s.AtMost top :=
  ⟨h.even, h.high⟩

/-- Work on the part of the stack below `p` changes no other cell. -/
def WorksBelow (p : Address) (s s' : Store) : Prop :=
  s.AtMost p → s'.AtMost p ∧ Memory.Within (Below p) s.memory s'.memory

instance (p : Address) : IsPreorder Store (WorksBelow p) where
  refl s h := ⟨h, Std.Refl.refl s.memory⟩
  trans _ _ _ h h' here := by
    obtain ⟨between, first⟩ := h here
    obtain ⟨after, second⟩ := h' between
    exact ⟨after, IsTrans.trans _ _ _ first second⟩

theorem sp_onMemory {α : Type} (x : Run Memory α) (s : Store) :
    (endState (onMemory x s)).sp = s.sp := by
  unfold onMemory
  cases x s.memory <;> rfl

theorem Holds.pop (h : s.Holds (w :: ws)) : pop s = .ok w { s with sp := s.sp + 2 } := by
  obtain ⟨t, -, popped⟩ := Turns.pop w ws s h
  rcases pop_cases s with ⟨e, failed, -⟩ | ⟨v, -, -, eq⟩
  · cases failed.symm.trans popped
  · cases eq.symm.trans popped
    exact eq

/-- As many words as there are in a block are popped as that block. -/
theorem Holds.popBlock (h : s.Holds (us ++ ws)) :
    popBlock us.length s = .ok us { s with sp := s.sp + UInt16.ofNat (2 * us.length) } ∧
      { s with sp := s.sp + UInt16.ofNat (2 * us.length) }.Holds ws := by
  -- the numbers of the words play no role
  have each (is : List Nat) (size : is.length = us.length) :
      is.mapM (fun _ => Store.pop) s = .ok us { s with sp := s.sp + UInt16.ofNat (2 * us.length) } ∧
        { s with sp := s.sp + UInt16.ofNat (2 * us.length) }.Holds ws := by
    induction us generalizing s is with
    | nil =>
      obtain rfl := List.length_eq_zero_iff.1 size
      rw [List.length_nil, Nat.mul_zero, Memory.add_ofNat_zero]
      exact ⟨rfl, h⟩
    | cons u us ih =>
      obtain _ | ⟨i, is⟩ := is
      · cases size
      obtain ⟨popped, left⟩ := ih h.cons.2 is (by simpa using size)
      rw [Memory.add_two_add, ← Nat.mul_succ] at popped left
      rw [List.mapM_cons, bind_of_ok h.pop, bind_of_ok popped]
      exact ⟨rfl, left⟩
  exact each _ List.length_range

/-- The pointer tells how many words there are, and the other way round. -/
theorem Holds.sp_eq (h : s.Holds ws) (h' : s'.Holds ws) : s'.sp = s.sp := by
  have place := h.pointer
  have place' := h'.pointer
  exact UInt16.toNat_inj.1 (by omega)

/-- Both cells of a word that is pushed lie right below the pointer. -/
theorem below_of_room (room : ¬ s.sp < limit + 2) (le : s.sp ≤ p) :
    Below p (s.sp - 2) ∧ Below p (s.sp - 2 + 1) := by
  have down := sub_two_of_room room
  have low := limit_le_sub_two room
  have high := limit_le_sub_one room
  have last := s.sp.toNat_lt
  rw [UInt16.lt_iff_toNat_lt, limit_add_two] at room
  rw [UInt16.le_iff_toNat_le] at le
  have next : (s.sp - 2 + 1).toNat = s.sp.toNat - 1 := by
    rw [Memory.toNat_next (by omega), down]
    omega
  exact ⟨⟨low, by rw [UInt16.lt_iff_toNat_lt]; omega⟩, high, by rw [UInt16.lt_iff_toNat_lt]; omega⟩

instance worksBelow_push (w : Word) : Keeps (WorksBelow p) (push w) := by
  constructor
  rintro s ⟨even, le⟩
  by_cases full : s.sp < limit + 2
  · rw [push, if_pos full]
    exact ⟨⟨even, le⟩, Std.Refl.refl s.memory⟩
  · obtain ⟨first, second⟩ := below_of_room full le
    have down := sub_two_of_room full
    have write : Keeps (Memory.AgreesOff (Below p)) (Memory.writeWord (s.sp - 2) w) :=
      Memory.keeps_writeWord_off first second
    have lifted : Keeps (fun s s' => Memory.AgreesOff (Below p) s.memory s'.memory)
        (onMemory (Memory.writeWord (s.sp - 2) w)) :=
      keeps_onMemory (R := Memory.AgreesOff (Below p)) _ fun _ _ h => h
    have works := (works_onMemory (Memory.writeWord (s.sp - 2) w)).related { s with sp := s.sp - 2 }
    rw [push, if_neg full]
    refine ⟨?_, works.quiet.memory, lifted.related { s with sp := s.sp - 2 }⟩
    rw [UInt16.le_iff_toNat_le] at le
    rw [AtMost, sp_onMemory, UInt16.le_iff_toNat_le, down]
    omega

instance worksBelow_pushBlock (ws : List Word) : Keeps (WorksBelow p) (pushBlock ws) :=
  keeps_pushAll ws.reverse

end Store

namespace Machine

open Store (Turns capacity)

variable {m : Machine} {b : UInt8} {c : Address} {w : Word} {ws : List Word}
  {S : Address → Prop}

/-! ## Pops and pushes -/

/-- The machine with the given number of bytes less on the stack. -/
def dropped (m : Machine) (bytes : Word) : Machine :=
  m.withStore { m.store with sp := m.store.sp + bytes }

@[simp]
theorem memory_dropped (bytes : Word) : (m.dropped bytes).memory = m.memory := rfl

@[simp]
theorem dropped_dropped (bytes bytes' : Word) :
    (m.dropped bytes).dropped bytes' = m.dropped (bytes + bytes') :=
  congrArg (fun sp => m.withStore { m.store with sp := sp }) (UInt16.add_assoc ..)

theorem holds_dropped (h : m.store.Holds (w :: ws)) : (m.dropped 2).store.Holds ws :=
  h.cons.2

theorem pop_of_holds (h : m.store.Holds (w :: ws)) : pop m = .ok w (m.dropped 2) :=
  onStore_of_ok h.pop

theorem pop_bind {α : Type} {f : Word → Run Machine α} (h : m.store.Holds (w :: ws)) :
    (pop >>= f) m = f w (m.dropped 2) :=
  bind_of_ok (pop_of_holds h)

theorem popInt_bind {α : Type} {f : Int → Run Machine α} (h : m.store.Holds (w :: ws)) :
    (popInt >>= f) m = f (Word.signed w) (m.dropped 2) :=
  bind_of_ok (popInt_of_pop h.pop)

/-- The computation succeeds and changes nothing but the store, of which `Q` holds then. -/
def EndsIn (x : Run Machine Unit) (m : Machine) (Q : Store → Prop) : Prop :=
  ∃ s, x m = .ok () (m.withStore s) ∧ Q s

/-- The computation leaves the words `after` on the stack and changes only cells in `S`. -/
def Produces (S : Address → Prop) (x : Run Machine Unit) (m : Machine) (after : List Word) : Prop :=
  EndsIn x m fun s => s.Holds after ∧ Memory.Within S m.memory s.memory

theorem EndsIn.of_dropped {x y : Run Machine Unit} {bytes : Word} {Q : Store → Prop}
    (h : EndsIn y (m.dropped bytes) Q) (same : x m = y (m.dropped bytes)) : EndsIn x m Q := by
  obtain ⟨s, ran, holds⟩ := h
  exact ⟨s, same.trans ran, holds⟩

theorem Produces.of_dropped {x y : Run Machine Unit} {bytes : Word} {after : List Word}
    (h : Produces S y (m.dropped bytes) after) (same : x m = y (m.dropped bytes)) :
    Produces S x m after :=
  EndsIn.of_dropped h same

theorem Produces.bind {x : Run Machine Unit} {f : Unit → Run Machine Unit} {between after : List Word}
    (first : Produces S x m between)
    (next : ∀ s : Store, s.Holds between → Produces S (f ()) (m.withStore s) after) :
    Produces S (x >>= f) m after := by
  obtain ⟨s, ran, holds, within⟩ := first
  obtain ⟨t, ran', holds', within'⟩ := next s holds
  exact ⟨t, (bind_of_ok ran).trans ran', holds', IsTrans.trans _ _ _ within within'⟩

theorem produces_push (h : m.store.Holds ws) (room : ws.length < capacity) (w : Word) :
    Produces (Store.Below Store.top) (push w) m (w :: ws) := by
  obtain ⟨s, holds, pushed⟩ := Turns.push w room m.store h
  have works : Store.WorksBelow Store.top m.store s := Keeps.of_ok pushed
  exact ⟨s, onStore_of_ok pushed, holds, (works h.atMost_top).2⟩

/-- A word written off the stack leaves the words on it. -/
theorem endsIn_writeWord {a : Address} (h : m.store.Holds ws) (storable : Storable m.memory a 1)
    (w : Word) :
    EndsIn (onMemory (Memory.writeWord a w)) m fun s =>
      s.Holds ws ∧ Memory.Within (fun b => b = a ∨ b = a + 1) m.memory s.memory ∧
        s.memory.peekWord a = w := by
  obtain ⟨free, off⟩ : m.memory.Free a ∧ ¬ (Store.limit ≤ a ∧ a < Store.top) := by
    simpa using storable 0 (by decide)
  obtain ⟨free', off'⟩ := storable 1 (by decide)
  obtain ⟨memory, written⟩ : ∃ memory, Memory.writeWord a w m.memory = .ok () memory :=
    ⟨_, Memory.writeWord_free free free'⟩
  have within := Memory.within_of_writeWord written
  -- the cells of the words on the stack are others
  have live : Memory.AgreesOff (fun b => ¬ m.store.Live b) m.memory memory := by
    refine within.off.mono ?_
    rintro b (rfl | rfl) ⟨low, high⟩
    · exact off ⟨UInt16.le_trans h.low low, high⟩
    · exact off' ⟨UInt16.le_trans h.low low, high⟩
  refine ⟨{ m.store with memory }, onStore_of_ok ?_, h.elsewhere within.toGuarded live, within,
    Memory.peekWord_of_writeWord free.unmapped free'.unmapped written⟩
  show Store.onMemory _ m.store = _
  rw [Store.onMemory, show Memory.writeWord a w m.store.memory = _ from written]

/-! ## Operands in the code -/

/-- Once opcode and operand are fetched, what follows is carried out. -/
theorem executeNext_of_fetched (op : Opcode) {α : Type} {x : Run Machine α} {f : α → Run Machine Unit} {v : α}
    (encoded : Encoding.ofCode op.code = .table op) (program : executeTable op = liftM (x >>= f))
    (read : m.memory.readByte m.nextAddress = .ok op.code)
    (fetched : x (m.movedTo (m.nextAddress + 1)) = .ok v (m.movedTo c)) :
    executeNext m = (liftM (f v) : Exec Unit) (m.movedTo c) := by
  rw [executeNext_of_read encoded read, program, liftM_bind_apply, liftM_bind_of_ok fetched]

theorem fetchByte_of_reads {b : UInt8} {bytes : Bytes} {i : Nat}
    (reads : m.memory.Reads c.toNat bytes) (hb : bytes[i]? = some b) :
    fetchByte (m.movedTo (c + UInt16.ofNat i)) =
      .ok b (m.movedTo (c + UInt16.ofNat (i + 1))) := by
  have read : (m.movedTo (c + UInt16.ofNat i)).memory.readByte
      (m.movedTo (c + UInt16.ofNat i)).nextAddress = .ok b := by
    rw [nextAddress_movedTo]
    exact readByte_of_reads reads hb
  have fetched := fetchByte_of_read read
  rw [nextAddress_movedTo, movedTo_movedTo, UInt16.add_assoc] at fetched
  rw [UInt16.ofNat_add]
  exact fetched

/-- An instruction without an operand, at an address. -/
theorem executeNext_movedTo_of_plain (op : Opcode) {x : Run Machine Unit}
    (encoded : Encoding.ofCode op.code = .table op) (program : executeTable op = liftM x) (reads : m.memory.Reads c.toNat [op.code]) :
    executeNext (m.movedTo c) = (liftM x : Exec Unit) (m.movedTo (c + 1)) := by
  rw [← nextAddress_movedTo (m := m) (a := c)] at reads
  rw [executeNext_of_plain encoded program reads, nextAddress_movedTo, movedTo_movedTo]

/-- An instruction whose operand is a byte, at an address. -/
theorem executeNext_movedTo_of_fetching (op : Opcode) {f : UInt8 → Run Machine Unit}
    (encoded : Encoding.ofCode op.code = .table op) (program : executeTable op = liftM (fetchByte >>= f))
    (reads : m.memory.Reads c.toNat [op.code, b]) :
    executeNext (m.movedTo c) = (liftM (f b) : Exec Unit) (m.movedTo (c + 2)) := by
  rw [← nextAddress_movedTo (m := m) (a := c)] at reads
  rw [executeNext_of_fetching encoded program reads, nextAddress_movedTo, movedTo_movedTo]

theorem ofCode?_code (p : StandardProcedure) : StandardProcedure.ofCode? p.code = some p := by
  cases p <;> rfl

/-- A call of a standard procedure carries it out. -/
theorem executeNext_of_standard {p : StandardProcedure}
    (reads : m.memory.Reads m.nextAddress.toNat [Opcode.csp.code, p.code]) :
    executeNext m = perform p (m.movedTo (m.nextAddress + 2)) := by
  have opcode : m.memory.readByte (m.nextAddress + 0) = .ok Opcode.csp.code :=
    readByte_of_reads reads (i := 0) rfl
  have number := fetchByte_of_reads reads (i := 1) rfl
  have encoded : Encoding.ofCode Opcode.csp.code = .table .csp := rfl
  rw [UInt16.add_zero] at opcode
  have called : callStandard (m.movedTo (m.nextAddress + 1)) = _ := liftM_bind_of_ok number
  rw [executeNext_of_read encoded opcode]
  refine called.trans ?_
  rw [ofCode?_code]
  rfl

end Machine

/-! ## Machines at the start -/

namespace Machine

instance (m : Memory) (a : Address) : Decidable (m.Free a) :=
  decidable_of_iff (a ≠ 0 ∧ (m.cell a).mapped = false ∧ (m.cell a).readOnly = false)
    ⟨fun ⟨valid, unmapped, unlocked⟩ => ⟨valid, unmapped, unlocked⟩,
      fun h => ⟨h.valid, h.unmapped, h.unlocked⟩⟩

instance (m : Memory) (a : Address) (n : Nat) : Decidable (m.Legible a n) :=
  inferInstanceAs (Decidable (∀ i < n, _))

instance (m : Memory) (a : Address) (n : Nat) : Decidable (Storable m a n) :=
  inferInstanceAs (Decidable (∀ i < 2 * n, _))

/-- A machine that has done nothing but write to memory and push words, the last of the list first. -/
def primed (x : Run Memory Unit) (ws : List Word) (start : Address) : Machine :=
  { create default default default default none with
    store := endState (Store.pushAll ws.reverse ⟨endState (x Memory.empty), Store.top⟩)
    ipc := start }

theorem holds_primed (x : Run Memory Unit) [h : Keeps Memory.Guarded x] {ws : List Word}
    (few : ws.length ≤ Store.capacity) (start : Address) : (primed x ws start).store.Holds ws := by
  have guarded := h.related Memory.empty
  have blank (a : Address) : Memory.empty.cell a = ({} : Cell) :=
    Cells.get_replicate ({} : Cell) 16 a.toNat
  have empty : Store.Holds ⟨endState (x Memory.empty), Store.top⟩ [] := by
    apply Store.holds_top
    intro a _ _
    rw [guarded.readOnly, guarded.mapped, blank]
    exact ⟨rfl, rfl⟩
  have pushes : Store.Turns (Store.pushAll ws.reverse) [] (.ok ()) (ws.reverse.reverse ++ []) :=
    Store.Turns.pushAll (by simpa using few)
  obtain ⟨s, holds, pushed⟩ := pushes _ empty
  rw [List.reverse_reverse, List.append_nil] at holds
  have store : (primed x ws start).store = s := congrArg endState pushed
  rwa [store]

end Machine

/-! ## Events -/

/-- A word that is pushed, or an instruction that is executed. -/
inductive MachineEvent where
  | push (w : Word)
  /-- The instruction with these bytes. -/
  | execute (code : Bytes)
  deriving Repr

namespace Machine

open Store (capacity)

/-- The events are carried out one after another, each instruction wherever its bytes are found by then,
and `post` holds of the result and of the machine at the end.  Nothing follows an event that fails. -/
def Performs : Machine → List MachineEvent → (Except Stop Unit → Machine → Prop) → Prop
  | m, [], post => post (.ok ()) m
  | m, .push w :: rest, post =>
    match push w m with
    | .ok _ m' => m'.Performs rest post
    | .error e m' => post (.error (.trap e)) m'
  | m, .execute code :: rest, post => ∀ c : Address, m.memory.Reads c.toNat code →
    match executeNext (m.movedTo c) with
    | .ok _ m' => m'.Performs rest post
    | .error e m' => post (.error e) m'

/-- The events as a computation, each instruction executed where the machine goes on. -/
def carryOut : List MachineEvent → Exec Unit
  | [] => pure ()
  | .push w :: rest => do
    push w
    carryOut rest
  | .execute _ :: rest => do
    executeNext
    carryOut rest

/-- Each instruction is found where the machine goes on when its turn comes. -/
def GoesThrough : Machine → List MachineEvent → Prop
  | _, [] => True
  | m, .push w :: rest => (endState (push w m)).GoesThrough rest
  | m, .execute code :: rest =>
    m.memory.Reads m.nextAddress.toNat code ∧ (endState (executeNext m)).GoesThrough rest

/-- Whether the instructions are found is seen by carrying out the events. -/
instance decidableGoesThrough : (events : List MachineEvent) → (m : Machine) →
    Decidable (m.GoesThrough events)
  | [], _ => inferInstanceAs (Decidable True)
  | .push w :: rest, m => decidableGoesThrough rest (endState (push w m))
  | .execute code :: rest, m =>
    have := decidableGoesThrough rest (endState (executeNext m))
    inferInstanceAs (Decidable (m.memory.Reads m.nextAddress.toNat code ∧ _))

section

variable {m : Machine} {w : Word} {ws after : List Word} {code : Bytes}
  {events rest : List MachineEvent} {S : Address → Prop} {post : Except Stop Unit → Machine → Prop}

/-- Where the instructions are found, `post` holds of the computation. -/
theorem Performs.run (h : m.Performs events post) (through : m.GoesThrough events) :
    post (resultOf (carryOut events m)) (endState (carryOut events m)) := by
  -- The induction follows the events; a failing one ends the run and the rest of them is not looked
  -- at.
  induction events generalizing m with
  | nil => exact h
  | cons event rest ih =>
    cases event with
    | push w =>
      rw [Performs] at h
      rw [GoesThrough] at through
      rw [carryOut]
      cases pushed : push w m with
      | ok u m' =>
        rw [pushed] at h through
        rw [liftM_bind_of_ok pushed]
        exact ih h through
      | error e m' =>
        rw [pushed] at h
        rw [liftM_bind_of_error pushed]
        exact h
    | execute code =>
      obtain ⟨reads, through⟩ := through
      have h := h m.nextAddress reads
      rw [movedTo_nextAddress] at h
      rw [carryOut]
      cases executed : executeNext m with
      | ok u m' =>
        rw [executed] at h through
        rw [bind_of_ok executed]
        exact ih h through
      | error e m' =>
        rw [executed] at h
        rw [bind_of_error executed]
        exact h

theorem performs_push (h : m.store.Holds ws) (room : ws.length < capacity)
    (next : ∀ s : Store, s.Holds (w :: ws) → Memory.Within (Store.Below Store.top) m.memory s.memory →
      (m.withStore s).Performs rest post) : m.Performs (.push w :: rest) post := by
  obtain ⟨s, pushed, holds, within⟩ := produces_push h room w
  rw [Performs, pushed]
  exact next s holds within

/-- An instruction that carries out a computation once it is fetched. -/
theorem performs_execute {x : Run Machine Unit} {size : Word} {Q : Store → Prop}
    (executes : ∀ c, m.memory.Reads c.toNat code →
      executeNext (m.movedTo c) = (liftM x : Exec Unit) (m.movedTo (c + size)))
    (ends : ∀ c, EndsIn x (m.movedTo c) Q)
    (next : ∀ s c, Q s → ((m.withStore s).movedTo c).Performs rest post) :
    m.Performs (.execute code :: rest) post := by
  intro c reads
  obtain ⟨s, ran, holds⟩ := ends (c + size)
  rw [executes c reads, raising_of_ok ran]
  exact next s (c + size) holds

theorem performs_produces {x : Run Machine Unit} {size : Word}
    (executes : ∀ c, m.memory.Reads c.toNat code →
      executeNext (m.movedTo c) = (liftM x : Exec Unit) (m.movedTo (c + size)))
    (produces : ∀ c, Produces S x (m.movedTo c) after)
    (next : ∀ s c, s.Holds after → Memory.Within S m.memory s.memory →
      ((m.withStore s).movedTo c).Performs rest post) :
    m.Performs (.execute code :: rest) post :=
  performs_execute (Q := fun s => s.Holds after ∧ Memory.Within S m.memory s.memory) executes produces
    fun s c h => next s c h.1 h.2

end

end Machine
end PSystem
