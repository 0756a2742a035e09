import PSystem.Proofs.Memory

/-!
# What a memory remembers

A history is the list of all that was done to a memory, the latest first.  It says by itself which cells
are protected, which device answers for an address, and which byte was stored at an address last
(`storedAt`): a write stores its bytes one after another up to the first that is refused, and what goes
to a device is not stored.  The memory after a history is what the history says (`follows_after`), so it is
a store for bytes and, in either byte order, for words (`memory_remembers`).
-/

namespace PSystem

/-- A word with its two bytes in each other's place. -/
def Word.exchanged (w : Word) : Word :=
  (w <<< 8) ||| (w >>> 8)

/-- A word that is read in the other byte order. -/
theorem ByteOrder.join_swap_split (order : ByteOrder) (w : Word) :
    order.swap.join (order.split w).1 (order.split w).2 = w.exchanged := by
  have hw : w.toNat < 2 ^ 16 := w.toNat_lt
  have high : w.toNat >>> 8 % 256 = w.toNat >>> 8 := by
    rw [Nat.shiftRight_eq_div_pow]
    omega
  have low : (w.toNat % 256) <<< 8 % 65536 = w.toNat <<< 8 % 65536 := by
    rw [Nat.shiftLeft_eq, Nat.shiftLeft_eq]
    omega
  apply UInt16.toNat_inj.1
  cases order with
  | little => simp [swap, split, join, Word.exchanged, high, low]
  | big => simp [swap, split, join, Word.exchanged, high, low, Nat.or_comm]

/-- A cell after a byte was stored in it, if one was. -/
def Cell.put (c : Cell) : Option UInt8 → Cell
  | none => c
  | some v => { c with value := v, uninitialized := false }

theorem Cell.value_put (c : Cell) (stored : Option UInt8) : (c.put stored).value = stored.getD c.value := by
  cases stored <;> rfl

theorem Cell.uninitialized_put (c : Cell) (stored : Option UInt8) :
    (c.put stored).uninitialized = (stored.isNone && c.uninitialized) := by
  cases stored <;> rfl

theorem Cell.put_or (c : Cell) (later earlier : Option UInt8) :
    c.put (later.or earlier) = (c.put earlier).put later := by
  cases later with
  | none => rfl
  | some v => cases earlier <;> rfl

namespace Memory

/-! ## Histories -/

/-- What can be done to a memory. -/
inductive Operation where
  | writeByte (a : Address) (v : UInt8)
  | writeWord (a : Address) (w : Word)
  | writeBytes (a : Address) (bytes : Bytes)
  | protect (start stop : Address) (on : Bool)
  | reserve (first last : Address)
  | setOrder (order : ByteOrder)
  | attach (device : Device)

/-- The operation on a memory. -/
def Operation.run : Operation → Run Memory Unit
  | writeByte a v => Memory.writeByte a v
  | writeWord a w => Memory.writeWord a w
  | writeBytes a bytes => Memory.writeBytes a bytes
  | protect start stop on => modify (·.protect start stop on)
  | reserve first last => modify (·.reserve first last)
  | setOrder order => modify (·.withOrder order)
  | attach device => modify (·.attach device)

/-- The memory after all operations of a history, whether they succeeded or not. -/
def after : List Operation → Memory
  | [] => empty
  | op :: past => endState (op.run (after past))

/-- The byte order that was set last. -/
def orderIn : List Operation → ByteOrder
  | [] => .little
  | .setOrder order :: _ => order
  | _ :: past => orderIn past

/-- Whether the protection that was last set for an address is on. -/
def protectedIn (a : Address) : List Operation → Bool
  | [] => false
  | .protect start stop on :: past => if start ≤ a ∧ a < stop then on else protectedIn a past
  | _ :: past => protectedIn a past

/-- The first device that was attached over an address. -/
def deviceIn (a : Address) : List Operation → Option Device
  | [] => none
  | .attach device :: past => (deviceIn a past).or (if device.covers a then some device else none)
  | _ :: past => deviceIn a past

/-- Whether a byte write is refused: at address 0, and at a protected cell that no device covers. -/
def refusedIn (past : List Operation) (a : Address) : Bool :=
  a == 0 || (deviceIn a past).isNone && protectedIn a past

/-- Bytes with the addresses that they go to. -/
def placed (a : Address) : Bytes → List (Address × UInt8)
  | [] => []
  | b :: bytes => (a, b) :: placed (a + 1) bytes

/-- The bytes that an operation asks to write, in their order. -/
def Operation.bytes (order : ByteOrder) : Operation → List (Address × UInt8)
  | writeByte a v => [(a, v)]
  | writeWord a w => [(a, (order.split w).1), (a + 1, (order.split w).2)]
  | writeBytes a bytes => placed a bytes
  | _ => []

/-- The bytes that an operation writes: those before the first that is refused. -/
def writtenBy (past : List Operation) (op : Operation) : List (Address × UInt8) :=
  (op.bytes (orderIn past)).takeWhile fun p => !refusedIn past p.1

/-- The last byte that goes to an address. -/
def lastAt (a : Address) : List (Address × UInt8) → Option UInt8
  | [] => none
  | (b, v) :: rest => (lastAt a rest).or (if b = a then some v else none)

/-- The byte that was stored at an address last.  What is written while a device covers the address is
not stored there. -/
def storedAt (a : Address) : List Operation → Option UInt8
  | [] => none
  | op :: past =>
    (if (deviceIn a past).isSome then none else lastAt a (writtenBy past op)).or (storedAt a past)

variable {m m' : Memory} {a b : Address} {v : UInt8} {w : Word} {op : Operation} {past : List Operation}
  {device : Device}

/-! ## Devices -/

theorem deviceIn_eq_none_iff :
    deviceIn a past = none ↔ ∀ device, .attach device ∈ past → device.covers a = false := by
  induction past with
  | nil => simp [deviceIn]
  | cons op past ih =>
    cases op with
    | attach first => simp [deviceIn, ih, and_comm]
    | _ => simp [deviceIn, ih]

/-- The device that answers for an address is the first of those that cover it. -/
theorem deviceIn_eq_some (h : deviceIn a past = some device) :
    ∃ later earlier, past = later ++ .attach device :: earlier ∧ device.covers a = true ∧
      deviceIn a earlier = none := by
  induction past with
  | nil => cases h
  | cons op past ih =>
    have onward (same : deviceIn a past = some device) :
        ∃ later earlier, op :: past = later ++ .attach device :: earlier ∧
          device.covers a = true ∧ deviceIn a earlier = none := by
      obtain ⟨later, earlier, rfl, covers, first⟩ := ih same
      exact ⟨op :: later, earlier, rfl, covers, first⟩
    cases op with
    | attach new =>
      rw [deviceIn] at h
      -- An earlier device at the address stays in front of the new one.
      cases before : deviceIn a past with
      | some old =>
        rw [before] at h
        exact onward (before.trans h)
      | none =>
        rw [before, Option.none_or] at h
        split at h
        · rename_i covers
          cases h
          exact ⟨[], past, rfl, covers, before⟩
        · cases h
    | _ => exact onward h

/-! ## Writes -/

/-- Whether a memory refuses a byte write at an address. -/
def refuses (m : Memory) (a : Address) : Bool :=
  a == 0 || (m.device? a).isNone && (m.cell a).readOnly

/-- Bytes written one after another, up to the first that fails. -/
def writeAll : List (Address × UInt8) → Run Memory Unit
  | [] => pure ()
  | (a, v) :: rest => do
    writeByte a v
    writeAll rest

instance keeps_writeAll (writes : List (Address × UInt8)) : Keeps Guarded (writeAll writes) := by
  induction writes with
  | nil => exact Keeps.pure ()
  | cons p writes ih =>
    unfold writeAll
    infer_instance

theorem Guarded.device? (h : Guarded m m') (a : Address) : m'.device? a = m.device? a := by
  rw [Memory.device?, Memory.device?, h.mapped, h.devices]

theorem Guarded.refuses (h : Guarded m m') (a : Address) : m'.refuses a = m.refuses a := by
  rw [Memory.refuses, Memory.refuses, h.device?, h.readOnly]

theorem writeByte_of_refused (h : m.refuses a = true) :
    writeByte a v m = .error (.invalidReference a) m := by
  rw [refuses, Bool.or_eq_true, beq_iff_eq, Bool.and_eq_true, Option.isNone_iff_eq_none] at h
  rw [writeByte]
  rcases h with zero | ⟨plain, locked⟩
  · rw [if_pos zero]
  · rw [plain, locked]
    exact ite_self _

/-- A byte that is not refused is stored, unless a device takes it. -/
theorem writeByte_of_accepted (h : m.refuses a = false) :
    ∃ m', writeByte a v m = .ok () m' ∧ ∀ b, m'.cell b =
      (m.cell b).put (if (m.device? b).isSome then none else if a = b then some v else none) := by
  rw [refuses, Bool.or_eq_false_iff, beq_eq_false_iff_ne, Bool.and_eq_false_iff] at h
  obtain ⟨valid, open_⟩ := h
  rw [writeByte, if_neg valid]
  cases answers : m.device? a with
  | some device =>
    -- the device takes the byte, and the cell behind it is left alone
    have cells (b : Address) : m.cell b =
        (m.cell b).put (if (m.device? b).isSome then none else if a = b then some v else none) := by
      split
      · rfl
      · rename_i plain
        rw [if_neg]
        · rfl
        · rintro rfl
          rw [answers] at plain
          exact plain rfl
    dsimp only
    split
    · exact ⟨_, rfl, cells⟩
    · exact ⟨_, rfl, cells⟩
  | none =>
    have unlocked : ¬ (m.cell a).readOnly = true := by
      rcases open_ with covered | unlocked
      · rw [answers] at covered
        cases covered
      · simp [unlocked]
    dsimp only
    rw [if_neg unlocked]
    refine ⟨_, rfl, fun b => ?_⟩
    rw [cell_store]
    by_cases same : a = b
    · rw [if_pos same, if_pos same, ← same, answers]
      rfl
    · rw [if_neg same, if_neg same, ite_self]
      rfl

/-- The byte that a list of byte writes stores at an address, if it stores one there. -/
def storing (m : Memory) (writes : List (Address × UInt8)) (b : Address) : Option UInt8 :=
  if (m.device? b).isSome then none else lastAt b (writes.takeWhile fun p => !m.refuses p.1)

/-- Byte writes are done in order up to the first that is refused, by induction on the writes. -/
theorem writeAll_outcome (writes : List (Address × UInt8)) (m : Memory) :
    succeeded (writeAll writes m) = writes.all (fun p => !m.refuses p.1) ∧
      ∀ b, (endState (writeAll writes m)).cell b = (m.cell b).put (m.storing writes b) := by
  induction writes generalizing m with
  | nil => exact ⟨rfl, fun b => by simp [writeAll, storing, lastAt, Cell.put]⟩
  | cons p writes ih =>
    obtain ⟨a, v⟩ := p
    rw [writeAll]
    cases refused : m.refuses a with
    | true =>
      -- what comes after a refused byte is not written
      rw [bind_of_error (writeByte_of_refused refused)]
      exact ⟨by simp [succeeded, refused], fun b => by simp [storing, refused, lastAt, Cell.put]⟩
    | false =>
      obtain ⟨m', written, cells⟩ := writeByte_of_accepted (v := v) refused
      have guarded : Guarded m m' := Keeps.of_ok written
      obtain ⟨done, rest⟩ := ih m'
      rw [bind_of_ok written]
      refine ⟨?_, fun b => ?_⟩
      · simp [done, guarded.refuses, refused]
      · rw [rest b, cells b, storing, storing, guarded.device? b]
        simp only [guarded.refuses, List.takeWhile_cons, refused, Bool.not_false, if_true, lastAt]
        split
        · rfl
        · exact (Cell.put_or _ _ _).symm

/-! ## The memory after a history -/

/-- A memory is what a history says. -/
structure Follows (m : Memory) (past : List Operation) : Prop where
  order : m.order = orderIn past
  devices : ∀ a, m.devices.find? (·.covers a) = deviceIn a past
  mapped : ∀ a, (m.cell a).mapped = (deviceIn a past).isSome
  readOnly : ∀ a, (m.cell a).readOnly = protectedIn a past
  value : ∀ a, m.peekByte a = (storedAt a past).getD 0
  uninitialized : ∀ a, deviceIn a past = none → (m.cell a).uninitialized = (storedAt a past).isNone

namespace Follows

theorem device? (h : Follows m past) (a : Address) : m.device? a = deviceIn a past := by
  rw [Memory.device?, h.mapped, h.devices]
  cases deviceIn a past <;> rfl

theorem refuses (h : Follows m past) (a : Address) : m.refuses a = refusedIn past a := by
  rw [Memory.refuses, refusedIn, h.device?, h.readOnly]

theorem readByte (h : Follows m past) (valid : a ≠ 0) : m.readByte a = .ok
    (match deviceIn a past with
      | some device => device.read a (orderIn past)
      | none => (storedAt a past).getD 0) := by
  rw [Memory.readByte, if_neg valid, h.device?, h.order]
  cases deviceIn a past with
  | some device => rfl
  | none => exact congrArg Except.ok (h.value a)

end Follows

/-- Of an operation that writes nothing a history says nothing about stored bytes. -/
theorem storedAt_cons (nothing : op.bytes (orderIn past) = []) :
    storedAt a (op :: past) = storedAt a past := by
  rw [storedAt, writtenBy, nothing]
  simp [lastAt]

theorem follows_empty : Follows empty [] := by
  have blank (a : Address) : empty.cell a = {} := Cells.get_replicate ..
  exact
    { order := rfl
      devices := fun _ => rfl
      mapped := fun a => by rw [blank, deviceIn]; rfl
      readOnly := fun a => by rw [blank, protectedIn]
      value := fun a => by rw [peekByte, blank]; rfl
      uninitialized := fun a _ => by rw [blank, storedAt]; rfl }

theorem writeBytes_eq_writeAll (a : Address) (bytes : Bytes) :
    writeBytes a bytes = writeAll (placed a bytes) := by
  induction bytes generalizing a with
  | nil => rfl
  | cons b bytes ih => rw [writeBytes, placed, writeAll, ih]

theorem writeByte_eq_writeAll (a : Address) (v : UInt8) : writeByte a v = writeAll [(a, v)] :=
  bind_pure_unit.symm

theorem writeWord_eq_writeAll (a : Address) (w : Word) (m : Memory) :
    writeWord a w m = writeAll [(a, (m.order.split w).1), (a + 1, (m.order.split w).2)] m := by
  rw [writeAll, ← writeByte_eq_writeAll]
  rfl

namespace Follows

/-- A write stores its bytes and leaves everything else as it was. -/
theorem write (h : Follows m past) (run : op.run m = writeAll (op.bytes m.order) m)
    (order : orderIn (op :: past) = orderIn past)
    (device : ∀ a, deviceIn a (op :: past) = deviceIn a past)
    (protection : ∀ a, protectedIn a (op :: past) = protectedIn a past) :
    Follows (endState (op.run m)) (op :: past) := by
  have guarded : Guarded m (endState (writeAll (op.bytes m.order) m)) :=
    (keeps_writeAll (op.bytes m.order)).related m
  have cells (a : Address) : (endState (writeAll (op.bytes m.order) m)).cell a = (m.cell a).put
      (if (deviceIn a past).isSome then none else lastAt a (writtenBy past op)) := by
    rw [(writeAll_outcome _ m).2 a, storing, writtenBy, h.device?, h.order]
    simp only [h.refuses]
  rw [run]
  exact
    { order := (guarded.order.trans h.order).trans order.symm
      devices := fun a => by rw [guarded.devices, h.devices, device]
      mapped := fun a => by rw [guarded.mapped, h.mapped, device]
      readOnly := fun a => by rw [guarded.readOnly, h.readOnly, protection]
      value := fun a => by
        rw [peekByte, cells, Cell.value_put, storedAt, Option.getD_or]
        exact congrArg _ (h.value a)
      uninitialized := fun a plain => by
        rw [device] at plain
        rw [cells, Cell.uninitialized_put, storedAt, Option.isNone_or, h.uninitialized a plain] }

theorem protect (h : Follows m past) (start stop : Address) (on : Bool) :
    Follows (m.protect start stop on) (.protect start stop on :: past) where
  order := h.order
  devices := h.devices
  mapped a := by
    rw [cell_protect]
    exact h.mapped a
  readOnly a := by
    rw [cell_protect, protectedIn, ← h.readOnly a]
  value a := by
    rw [peekByte_protect, storedAt_cons rfl]
    exact h.value a
  uninitialized a plain := by
    rw [cell_protect, storedAt_cons rfl]
    exact h.uninitialized a plain

theorem reserve (h : Follows m past) (first last : Address) :
    Follows (m.reserve first last) (.reserve first last :: past) where
  order := h.order
  devices := h.devices
  mapped a := by
    rcases cell_reserve m first last a with eq | eq
    · rw [eq]
      exact h.mapped a
    · rw [eq]
      exact h.mapped a
  readOnly a := by
    rcases cell_reserve m first last a with eq | eq
    · rw [eq]
      exact h.readOnly a
    · rw [eq]
      exact h.readOnly a
  value a := by
    rw [storedAt_cons rfl, ← h.value a, peekByte]
    rcases cell_reserve m first last a with eq | eq
    · rw [eq]
      rfl
    · rw [eq]
      rfl
  uninitialized a plain := by
    rw [storedAt_cons rfl, ← h.uninitialized a plain]
    rcases cell_reserve m first last a with eq | eq
    · rw [eq]
    · rw [eq]

theorem setOrder (h : Follows m past) (order : ByteOrder) :
    Follows (m.withOrder order) (.setOrder order :: past) where
  order := rfl
  devices := h.devices
  mapped := h.mapped
  readOnly := h.readOnly
  value a := by
    rw [storedAt_cons rfl]
    exact h.value a
  uninitialized a plain := by
    rw [storedAt_cons rfl]
    exact h.uninitialized a plain

theorem attach (h : Follows m past) (device : Device) :
    Follows (m.attach device) (.attach device :: past) := by
  have cell (a : Address) : (m.attach device).cell a =
      if device.covers a = true then { m.cell a with mapped := true, uninitialized := false }
      else m.cell a := by
    have inside : device.covers a = true ↔ device.start ≤ a ∧ a < device.stop := by
      simp [Device.covers]
    simp only [inside]
    exact cell_mark m device.start device.stop _ a
  -- Attaching marks exactly the cells that the device covers, and an earlier device still answers
  -- first.
  have covered (a : Address) : deviceIn a (.attach device :: past) =
      (deviceIn a past).or (if device.covers a = true then some device else none) := rfl
  exact
    { order := h.order
      devices := fun a => by
        have behind : (m.attach device).devices = m.devices ++ [device] := rfl
        rw [covered, behind, List.find?_append, h.devices, List.find?_singleton]
      mapped := fun a => by
        rw [cell, covered, Option.isSome_or, ← h.mapped a]
        split <;> simp
      readOnly := fun a => by
        rw [cell]
        split <;> exact h.readOnly a
      value := fun a => by
        rw [peekByte, cell, storedAt_cons rfl]
        split <;> exact h.value a
      uninitialized := fun a plain => by
        rw [covered, Option.or_eq_none_iff] at plain
        have outside : ¬ device.covers a = true := fun inside => by
          rw [if_pos inside] at plain
          cases plain.2
        rw [cell, if_neg outside, storedAt_cons rfl]
        exact h.uninitialized a plain.1 }

/-- What one operation makes of memory is what it adds to the history. -/
theorem step (h : Follows m past) (op : Operation) : Follows (endState (op.run m)) (op :: past) := by
  cases op with
  | writeByte a v => exact h.write (congrFun (writeByte_eq_writeAll a v) m) rfl (fun _ => rfl) fun _ => rfl
  | writeWord a w => exact h.write (writeWord_eq_writeAll a w m) rfl (fun _ => rfl) fun _ => rfl
  | writeBytes a bytes =>
    exact h.write (congrFun (writeBytes_eq_writeAll a bytes) m) rfl (fun _ => rfl) fun _ => rfl
  | protect start stop on => exact h.protect start stop on
  | reserve first last => exact h.reserve first last
  | setOrder order => exact h.setOrder order
  | attach device => exact h.attach device

end Follows

theorem follows_after (past : List Operation) : Follows (after past) past := by
  induction past with
  | nil => exact follows_empty
  | cons op past ih => exact ih.step op

/-! ## What a memory remembers -/

/-- No device was attached over an address. -/
def Uncovered (past : List Operation) (a : Address) : Prop :=
  ∀ device, .attach device ∈ past → device.covers a = false

/-- An operation fails if it writes to a place that refuses, whatever it wrote before. -/
theorem Follows.run_fails_iff (h : Follows m past) (op : Operation) :
    succeeded (op.run m) = false ↔ ∃ p ∈ op.bytes (orderIn past), refusedIn past p.1 = true := by
  have writes (run : op.run m = writeAll (op.bytes m.order) m) :
      succeeded (op.run m) = false ↔ ∃ p ∈ op.bytes (orderIn past), refusedIn past p.1 = true := by
    rw [run, (writeAll_outcome _ m).1, h.order, List.all_eq_false]
    simp [h.refuses]
  cases op with
  | writeByte a v => exact writes (congrFun (writeByte_eq_writeAll a v) m)
  | writeWord a w => exact writes (writeWord_eq_writeAll a w m)
  | writeBytes a bytes => exact writes (congrFun (writeBytes_eq_writeAll a bytes) m)
  | _ => simp [Operation.run, Operation.bytes, succeeded]

/-- Once a device covers an address nothing is stored there. -/
theorem storedAt_append (later earlier : List Operation) (covers : device.covers a = true) :
    storedAt a (later ++ .attach device :: earlier) = storedAt a earlier := by
  induction later with
  | nil => exact storedAt_cons rfl
  | cons op later ih =>
    have covered : (deviceIn a (later ++ .attach device :: earlier)).isSome = true := by
      rw [Option.isSome_iff_ne_none]
      intro none
      have outside := deviceIn_eq_none_iff.1 none device (List.mem_append_right _ List.mem_cons_self)
      rw [covers] at outside
      cases outside
    rw [List.cons_append, storedAt, if_pos covered, Option.none_or]
    exact ih

/-- A cell that no device covers. -/
theorem Follows.uncovered (h : Follows m past) (valid : a ≠ 0) (plain : Uncovered past a) :
    m.readByte a = .ok ((storedAt a past).getD 0) ∧
      (∀ v, succeeded (Memory.writeByte a v m) = false ↔ (m.cell a).readOnly = true) ∧
      ((m.cell a).uninitialized = false ↔ (storedAt a past).isSome = true) := by
  have none : deviceIn a past = none := deviceIn_eq_none_iff.2 plain
  refine ⟨?_, fun v => ?_, ?_⟩
  · rw [h.readByte valid, none]
  · have fails := h.run_fails_iff (.writeByte a v)
    simpa [Operation.run, Operation.bytes, refusedIn, valid, none, h.readOnly] using fails
  · rw [h.uninitialized a none]
    cases storedAt a past <;> simp

/-- A cell that some device covers. -/
theorem covered (mem : .attach device ∈ past) (covers : device.covers a = true) :
    ∃ later first earlier, past = later ++ .attach first :: earlier ∧ first.covers a = true ∧
      Uncovered earlier a ∧ (after past).peekByte a = (after earlier).peekByte a ∧
      (a ≠ 0 → (after past).readByte a = .ok (first.read a (orderIn past))) := by
  obtain ⟨first, answers⟩ : ∃ first, deviceIn a past = some first := by
    rw [← Option.ne_none_iff_exists']
    intro none
    rw [deviceIn_eq_none_iff.1 none device mem] at covers
    cases covers
  obtain ⟨later, earlier, split, here, none⟩ := deviceIn_eq_some answers
  refine ⟨later, first, earlier, split, here, deviceIn_eq_none_iff.1 none, ?_, fun valid => ?_⟩
  · rw [(follows_after past).value, (follows_after earlier).value, split, storedAt_append later earlier here]
  · rw [(follows_after past).readByte valid, answers]

/-- A cell that can be written. -/
def Writable (past : List Operation) (a : Address) : Prop :=
  Uncovered past a ∧ protectedIn a past = false

theorem Follows.free (h : Follows m past) (valid : a ≠ 0) (writable : Writable past a) : m.Free a where
  valid := valid
  unmapped := by
    rw [h.mapped, deviceIn_eq_none_iff.2 writable.1]
    rfl
  unlocked := (h.readOnly a).trans writable.2

/-- A word that was written is read again, in the other byte order with its bytes exchanged. -/
theorem readWord_after_writeWord (valid : a ≠ 0) (inside : a ≠ 0xFFFF) (first : Writable past a)
    (second : Writable past (a + 1)) (w : Word) :
    succeeded ((Operation.writeWord a w).run (after past)) = true ∧
      (after (.writeWord a w :: past)).readWord a = .ok w ∧
      (after (.setOrder (orderIn past).swap :: .writeWord a w :: past)).readWord a =
        .ok w.exchanged := by
  have follows := follows_after past
  have next : a + 1 ≠ 0 := fun zero => inside (by
    rw [← UInt16.add_sub_cancel a 1, zero]
    rfl)
  have free := follows.free valid first
  have free' := follows.free next second
  have written := writeWord_free (w := w) free free'
  rw [follows.order] at written
  have memory : after (.writeWord a w :: past) = ((after past).store a ((orderIn past).split w).1).store
      (a + 1) ((orderIn past).split w).2 := by
    rw [after, Operation.run, written]
    rfl
  -- Both bytes are stored at different cells, so each can be read back; only the order decides
  -- which is which.
  have low : (after (.writeWord a w :: past)).peekByte a = ((orderIn past).split w).1 := by
    rw [memory, peekByte, cell_store_of_ne (ne_add_one a).symm]
    exact peekByte_store_self
  have high : (after (.writeWord a w :: past)).peekByte (a + 1) = ((orderIn past).split w).2 := by
    rw [memory]
    exact peekByte_store_self
  have unmapped (b : Address) (plain : ((after past).cell b).mapped = false) :
      ((after (.writeWord a w :: past)).cell b).mapped = false := by
    rw [memory, mapped_store, mapped_store]
    exact plain
  have order : (after (.writeWord a w :: past)).order = orderIn past :=
    (follows_after (.writeWord a w :: past)).order
  refine ⟨?_, ?_, ?_⟩
  · rw [Operation.run, written]
    rfl
  · rw [readWord_unmapped valid next (unmapped a free.unmapped) (unmapped _ free'.unmapped), peekWord, low,
      high, order, ByteOrder.join_split]
  · rw [← ByteOrder.join_swap_split (orderIn past) w, ← low, ← high]
    exact readWord_unmapped (m := after (.setOrder (orderIn past).swap :: .writeWord a w :: past)) valid next
      (unmapped a free.unmapped) (unmapped _ free'.unmapped)

/-- A memory is a protected store, for every history.  An operation fails if one of its bytes is refused.
At address 0 every access fails.  Where no device was attached, a read gives the byte stored last, or 0
if none was, a write fails if the cell is protected, which is as it was set last, and the cell counts as
written once a byte was stored.  Where a device was attached, the first one answers, and the cell keeps the
byte that it had before.  A word is read as it was written, or with its bytes exchanged in the other byte
order. -/
theorem memory_remembers (past : List Operation) :
    (∀ op : Operation, succeeded (op.run (after past)) = false ↔
      ∃ p ∈ op.bytes (orderIn past), refusedIn past p.1 = true) ∧
    ((after past).readByte 0 = .error (.invalidReference 0) ∧
      ∀ v, writeByte 0 v (after past) = .error (.invalidReference 0) (after past)) ∧
    (∀ a ≠ 0, Uncovered past a →
      (after past).readByte a = .ok ((storedAt a past).getD 0) ∧
      (∀ v, succeeded (writeByte a v (after past)) = false ↔ ((after past).cell a).readOnly = true) ∧
      ((after past).cell a).readOnly = protectedIn a past ∧
      (((after past).cell a).uninitialized = false ↔ (storedAt a past).isSome = true)) ∧
    (∀ a device, .attach device ∈ past → device.covers a = true →
      ∃ later first earlier, past = later ++ .attach first :: earlier ∧ first.covers a = true ∧
        Uncovered earlier a ∧ (after past).peekByte a = (after earlier).peekByte a ∧
        (a ≠ 0 → (after past).readByte a = .ok (first.read a (orderIn past)))) ∧
    ∀ a w, a ≠ 0 → a ≠ 0xFFFF → Writable past a → Writable past (a + 1) →
      succeeded ((Operation.writeWord a w).run (after past)) = true ∧
      (after (.writeWord a w :: past)).readWord a = .ok w ∧
      (after (.setOrder (orderIn past).swap :: .writeWord a w :: past)).readWord a = .ok w.exchanged := by
  have follows := follows_after past
  refine ⟨follows.run_fails_iff, ⟨rfl, fun _ => rfl⟩, fun a valid plain => ?_,
    fun a device => covered, fun a w valid inside first second =>
      readWord_after_writeWord valid inside first second w⟩
  obtain ⟨read, write, mark⟩ := follows.uncovered valid plain
  exact ⟨read, write, follows.readOnly a, mark⟩

/-- A device that shows a word. -/
def wordDevice (start stop : Address) (w : Word) : Device where
  start := start
  stop := stop
  read a order := order.byteAt w (a - start)

/-- Two devices overlap, and three bytes are written of which the last one meets a protected cell. -/
def busyHistory : List Operation :=
  [.writeBytes 0x400 [1, 2, 3], .protect 0x402 0x404 true, .writeByte 0x402 7,
    .attach (wordDevice 0x91 0x94 0x0123), .writeByte 0x91 5, .setOrder .big,
    .attach (wordDevice 0x90 0x92 0xBEEF), .writeByte 0x91 9]

/-- The byte at 0x402 was stored before it was protected, and at 0x91 the device that was attached first
answers. -/
theorem memory_remembers_busy :
    (after busyHistory).readByte 0x401 = .ok 2 ∧ (after busyHistory).readByte 0x402 = .ok 7 ∧
    succeeded (writeByte 0x402 0 (after busyHistory)) = false ∧
    (∃ later first earlier, busyHistory = later ++ .attach first :: earlier ∧ first.covers 0x91 = true ∧
      Uncovered earlier 0x91 ∧ (after busyHistory).peekByte 0x91 = (after earlier).peekByte 0x91 ∧
      (after busyHistory).readByte 0x91 = .ok (first.read 0x91 .big)) ∧
    (after (.writeWord 0x405 0x1234 :: busyHistory)).readWord 0x405 = .ok 0x1234 ∧
    (after (.setOrder .little :: .writeWord 0x405 0x1234 :: busyHistory)).readWord 0x405 = .ok 0x3412 := by
  obtain ⟨-, -, plain, answered, words⟩ := memory_remembers busyHistory
  have uncovered (a : Address) (none : deviceIn a busyHistory = none) : Uncovered busyHistory a :=
    deviceIn_eq_none_iff.1 none
  obtain ⟨second, -, -, -⟩ := plain 0x401 (by decide) (uncovered _ rfl)
  obtain ⟨third, fails, marked, -⟩ := plain 0x402 (by decide) (uncovered _ rfl)
  obtain ⟨later, first, earlier, split, covers, none, raw, read⟩ :=
    answered 0x91 (wordDevice 0x91 0x94 0x0123) (by simp [busyHistory]) (by decide)
  obtain ⟨-, same, exchanged⟩ := words 0x405 0x1234 (by decide) (by decide) ⟨uncovered _ rfl, by decide⟩
    ⟨uncovered _ rfl, by decide⟩
  exact ⟨second, third, (fails 0).2 (marked.trans (by decide)),
    ⟨later, first, earlier, split, covers, none, raw, read (by decide)⟩, same, exchanged⟩

end Memory
end PSystem
