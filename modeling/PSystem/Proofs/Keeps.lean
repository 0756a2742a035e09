import Mathlib.Order.Defs.Unbundled
import PSystem.Machine.State

/-!
# Computations that keep a relation

A computation of the machine ends in a state whether it succeeds or fails.  `Keeps R x` says that
`x` relates every state it starts in to the state it ends in, however it ends.  For a preorder `R`
this passes through sequencing and branching, so a fact about a few primitive steps becomes a fact
about every instruction made of them; `Keeps` is a class, and the instances below follow the shape
of a program.

The lemmas at the start take one `do` step apart.
-/

namespace PSystem

variable {ε σ α β : Type}

/-! ## Taking a computation apart -/

/-- The state in which a computation ended. -/
def endState : EStateM.Result ε σ α → σ
  | .ok _ s => s
  | .error _ s => s

@[simp]
theorem endState_ok (a : α) (s : σ) : endState (.ok a s : EStateM.Result ε σ α) = s := rfl

@[simp]
theorem endState_error (e : ε) (s : σ) : endState (.error e s : EStateM.Result ε σ α) = s := rfl

/-- The result of a computation, or what it failed with. -/
def resultOf : EStateM.Result ε σ α → Except ε α
  | .ok a _ => .ok a
  | .error e _ => .error e

/-- Whether a computation had a result. -/
def succeeded : EStateM.Result ε σ α → Bool
  | .ok _ _ => true
  | .error _ _ => false

theorem eq_ok_of_succeeded {r : EStateM.Result ε σ Unit} (h : succeeded r = true) :
    r = .ok () (endState r) := by
  cases r with
  | ok a s => rfl
  | error e s => cases h

theorem bind_apply (x : EStateM ε σ α) (f : α → EStateM ε σ β) (s : σ) :
    (x >>= f) s = match x s with
      | .ok a t => f a t
      | .error e t => .error e t := rfl

theorem bind_of_ok {x : EStateM ε σ α} {f : α → EStateM ε σ β} {s t : σ} {a : α}
    (h : x s = .ok a t) : (x >>= f) s = f a t := by
  simp [bind_apply, h]

theorem bind_of_error {x : EStateM ε σ α} {f : α → EStateM ε σ β} {s t : σ} {e : ε}
    (h : x s = .error e t) : (x >>= f) s = .error e t := by
  simp [bind_apply, h]

theorem bind_eq_ok {x : EStateM ε σ α} {f : α → EStateM ε σ β} {s t : σ} {b : β} :
    (x >>= f) s = .ok b t ↔ ∃ a u, x s = .ok a u ∧ f a u = .ok b t := by
  rw [bind_apply]
  cases x s with
  | ok a u =>
    constructor
    · intro h
      exact ⟨a, u, rfl, h⟩
    · rintro ⟨_, _, hx, h⟩
      cases hx
      exact h
  | error e u => simp

/-- A sequence ends where its first part fails, or where the rest ends. -/
theorem bind_cases {x : EStateM ε σ α} {f : α → EStateM ε σ β} {s : σ}
    {r : EStateM.Result ε σ β} (h : (x >>= f) s = r) :
    (∃ e t, x s = .error e t ∧ r = .error e t) ∨ ∃ a t, x s = .ok a t ∧ f a t = r := by
  rw [bind_apply] at h
  cases hx : x s with
  | ok a t =>
    rw [hx] at h
    exact .inr ⟨a, t, rfl, h⟩
  | error e t =>
    rw [hx] at h
    exact .inl ⟨e, t, rfl, h.symm⟩

theorem except_ok_bind (a : α) (f : α → Except ε β) : (Except.ok a >>= f) = f a := rfl

theorem except_bind_eq_ok {x : Except ε α} {f : α → Except ε β} {b : β} :
    (x >>= f) = .ok b ↔ ∃ a, x = .ok a ∧ f a = .ok b := by
  cases x with
  | ok a =>
    constructor
    · intro h
      exact ⟨a, rfl, h⟩
    · rintro ⟨_, hx, h⟩
      cases hx
      exact h
  | error e =>
    constructor
    · intro h
      cases h
    · rintro ⟨_, hx, _⟩
      cases hx

@[simp]
theorem pure_apply (a : α) (s : σ) : (pure a : EStateM ε σ α) s = .ok a s := rfl

@[simp]
theorem throw_apply (e : ε) (s : σ) : (throw e : EStateM ε σ α) s = .error e s := rfl

@[simp]
theorem get_apply (s : σ) : (get : EStateM ε σ σ) s = .ok s s := rfl

@[simp]
theorem set_apply (s t : σ) : (set t : EStateM ε σ PUnit) s = .ok () t := rfl

@[simp]
theorem modify_apply (f : σ → σ) (s : σ) : (modify f : EStateM ε σ PUnit) s = .ok () (f s) := rfl

theorem get_bind_apply (f : σ → EStateM ε σ α) (s : σ) : (get >>= f) s = f s s := rfl

theorem modify_bind_apply (f : σ → σ) (g : PUnit → EStateM ε σ α) (s : σ) :
    (modify f >>= g) s = g () (f s) := rfl

/-! ## Keeping a relation -/

/-- Whatever the outcome of `x`, the state before is related to the state after. -/
class Keeps (R : σ → σ → Prop) (x : EStateM ε σ α) : Prop where
  related : ∀ s, R s (endState (x s))

namespace Keeps

variable {R : σ → σ → Prop}

theorem of_ok {x : EStateM ε σ α} [h : Keeps R x] {s t : σ} {a : α} (hx : x s = .ok a t) :
    R s t := by
  have := h.related s
  rwa [hx] at this

theorem of_error {x : EStateM ε σ α} [h : Keeps R x] {s t : σ} {e : ε} (hx : x s = .error e t) :
    R s t := by
  have := h.related s
  rwa [hx] at this

/-- A wider relation is kept too. -/
theorem mono {S : σ → σ → Prop} {x : EStateM ε σ α} (h : Keeps R x)
    (imp : ∀ s t, R s t → S s t) : Keeps S x :=
  ⟨fun s => imp _ _ (h.related s)⟩

theorem modify {f : σ → σ} (h : ∀ s, R s (f s)) : Keeps R (modify f : EStateM ε σ PUnit) :=
  ⟨h⟩

variable [IsPreorder σ R]

instance pure (a : α) : Keeps R (pure a : EStateM ε σ α) :=
  ⟨fun s => Std.Refl.refl s⟩

instance throw (e : ε) : Keeps R (throw e : EStateM ε σ α) :=
  ⟨fun s => Std.Refl.refl s⟩

instance get : Keeps R (get : EStateM ε σ σ) :=
  ⟨fun s => Std.Refl.refl s⟩

instance bind (x : EStateM ε σ α) (f : α → EStateM ε σ β) [hx : Keeps R x]
    [hf : ∀ a, Keeps R (f a)] : Keeps R (x >>= f) := by
  constructor
  intro s
  rw [bind_apply]
  cases h : x s with
  | ok a t => exact IsTrans.trans _ _ _ (hx.of_ok h) ((hf a).related t)
  | error e t => exact hx.of_error h

/-- A sequence taken apart by name, for programs too long for the search. -/
theorem seq {x : EStateM ε σ α} {f : α → EStateM ε σ β} (hx : Keeps R x)
    (hf : ∀ a, Keeps R (f a)) : Keeps R (x >>= f) :=
  bind x f

/-- Nothing is run after a failure. -/
instance throw_bind (e : ε) (f : α → EStateM ε σ β) :
    Keeps R ((MonadExcept.throw e : EStateM ε σ α) >>= f) :=
  ⟨fun s => Std.Refl.refl s⟩

instance ite {c : Prop} [Decidable c] (x y : EStateM ε σ α) [hx : Keeps R x] [hy : Keeps R y] :
    Keeps R (if c then x else y) := by
  split
  · exact hx
  · exact hy

/-- A computation made of one run for each element of a list. -/
instance mapM (f : β → EStateM ε σ α) [hf : ∀ b, Keeps R (f b)] (bs : List β) :
    Keeps R (bs.mapM f) := by
  induction bs with
  | nil =>
    rw [List.mapM_nil]
    infer_instance
  | cons b bs ih =>
    rw [List.mapM_cons]
    infer_instance

end Keeps

/-! ## Parts of the machine -/

namespace Store

variable {R : Memory → Memory → Prop} {S : Store → Store → Prop}

theorem keeps_onMemory (x : Run Memory α) [hx : Keeps R x]
    (lift : ∀ s m, R s.memory m → S s { s with memory := m }) : Keeps S (onMemory x) := by
  constructor
  intro s
  have h := hx.related s.memory
  unfold onMemory
  cases hr : x s.memory with
  | ok a m =>
    rw [hr] at h
    exact lift s m h
  | error e m =>
    rw [hr] at h
    exact lift s m h

end Store

namespace Machine

variable {R : Store → Store → Prop} {S : Machine → Machine → Prop}

theorem keeps_onStore (x : Run Store α) [hx : Keeps R x]
    (lift : ∀ m s, R m.store s → S m { m with store := s }) : Keeps S (onStore x) := by
  constructor
  intro m
  have h := hx.related m.store
  unfold onStore
  cases hr : x m.store with
  | ok a s =>
    rw [hr] at h
    exact lift m s h
  | error e s =>
    rw [hr] at h
    exact lift m s h

variable [IsPreorder Machine S]

instance keeps_orFault (x : Except Fault α) : Keeps S (orFault x) := by
  cases x with
  | ok a => exact Keeps.pure a
  | error e => exact Keeps.throw e

instance keeps_reading (f : Memory → Except Fault α) : Keeps S (reading f) := by
  unfold reading
  infer_instance

instance keeps_raising (x : Run Machine α) [hx : Keeps S x] : Keeps S (liftM x : Exec α) := by
  constructor
  intro m
  show S m (endState (raising x m))
  unfold raising
  cases h : x m with
  | ok a t => exact hx.of_ok h
  | error e t => exact hx.of_error h

instance keeps_attempt (x : Run Machine α) [hx : Keeps S x] : Keeps S (attempt x) := by
  constructor
  intro m
  unfold attempt
  cases h : x m with
  | ok a t => exact hx.of_ok h
  | error e t => exact hx.of_error h

end Machine
end PSystem
