import PSystem.Proofs.ExitWalk
import PSystem.Proofs.StackLayout

/-!
# EXIT and the calls

EXIT makes the callers up to the procedure that it names go on at their exit code.  The headers of the
frames say afterwards what `Call.exited` says of the calls (`Tracked.resumes_exit`), as long as the
attribute tables of active procedures lie in code.
-/

namespace PSystem
namespace Machine

variable {m m' : Machine} {memory : Memory} {calls rest : List Call} {c : Call}
  {segment procedure : UInt8} {k : Nat}

/-- The header of each frame says where its caller goes on. -/
def Resumes (m : Machine) (calls : List Call) : Prop :=
  ∀ c ∈ calls, m.memory.peekWord (c.frame + Frame.savedIpc) = c.resume

/-- EXIT names the procedure of a call if it names that of its activation. -/
theorem isNamed_iff (told : Told memory c) :
    c.activation.IsNamed memory segment procedure ↔ c.IsOf segment procedure := by
  have number : memory.readByte c.activation.jtab = .ok c.number := told.number
  simp only [Activation.IsNamed, Call.IsOf, number, Except.ok.injEq]

/-- The cells of a frame are free. -/
theorem Tracked.free (h : Tracked m calls) (stacked : Stacked m calls) (hc : c ∈ calls) {i : Nat}
    (hi : i < c.size) : m.memory.Free (c.frame + UInt16.ofNat i) := by
  obtain ⟨-, start, -⟩ := h.standing.rooted.of_mem (h.active hc)
  change 0x100 ≤ c.frame.toNat at start
  have top := (stacked.rising.of_mem hc).2
  have place : (c.frame + UInt16.ofNat i).toNat = c.frame.toNat + i := toNat_add_ofNat (by omega)
  have plain : Heap.start ≤ c.frame + UInt16.ofNat i := UInt16.le_iff_toNat_le.2 (by
    rw [place]
    show 0x100 ≤ _
    omega)
  refine ⟨ne_zero_of_start plain, h.standing.secure.layout.unmapped _ plain, ?_⟩
  -- protected cells are code, which frames do not overlap
  rw [Bool.eq_false_iff]
  intro locked
  obtain ⟨part, p, placed, inside⟩ := (h.standing.secure.layout.marked _).1 locked
  have apart := stacked.apart c hc part p placed
  have first := inside.1
  have last := inside.2
  rw [place] at first last
  omega

/-- EXIT can walk along the frames of calls. -/
theorem Tracked.framed (h : Tracked m calls) (stacked : Stacked m calls) (active : 0 < m.depth) :
    m.Framed where
  active := active
  rooted := h.standing.rooted.weaken fun _ => Nat.zero_le _
  free := by
    intro a ha i hi
    rw [← h.actives] at ha
    obtain ⟨c, hc, rfl⟩ := List.mem_map.1 ha
    exact h.free stacked hc (by unfold Call.size; omega)

/-- Headers that are redirected up to the first caller that EXIT names are those of redirected
calls. -/
theorem resumes_redirected (told : ∀ d ∈ rest, Told memory d)
    (first : Activation.Innermost memory segment procedure (rest.map Call.activation) k)
    (inner : ∀ i ≤ k, ∀ d caller, (c :: rest)[i]? = some d → (c :: rest)[i + 1]? = some caller →
      Call.exitOffset memory caller.jtab = .ok (m'.memory.peekWord (d.frame + Frame.savedIpc)))
    (outer : ∀ i > k, ∀ d, (c :: rest)[i]? = some d →
      m'.memory.peekWord (d.frame + Frame.savedIpc) = d.resume) :
    Resumes m' (Call.redirected memory segment procedure (c :: rest)) := by
  induction rest generalizing c k with
  | nil =>
    obtain ⟨⟨a, here, -⟩, -⟩ := first
    cases here
  | cons caller rest ih =>
    -- the head is redirected, and the rest unless its first call is the one that EXIT names
    obtain ⟨tells, told⟩ := List.forall_mem_cons.1 told
    rw [Call.redirected, inner 0 (Nat.zero_le k) c caller rfl rfl]
    refine List.forall_mem_cons.2 ⟨rfl, ?_⟩
    cases k with
    | zero =>
      obtain ⟨⟨a, here, named⟩, -⟩ := first
      cases here
      rw [if_pos ((isNamed_iff tells).1 named)]
      intro d hd
      obtain ⟨i, there⟩ := List.getElem?_of_mem hd
      exact outer (i + 1) (Nat.succ_pos i) d there
    | succ k =>
      obtain ⟨other, first⟩ := Activation.Innermost.tail first
      rw [if_neg fun named => other ((isNamed_iff tells).2 named)]
      exact ih told first (fun i hi => inner (i + 1) (Nat.succ_le_succ hi))
        fun i hi => outer (i + 1) (Nat.succ_lt_succ hi)

/-- After an EXIT the headers of frames say where the callers go on that the calls name. -/
theorem Tracked.resumes_exit (h : Tracked m calls) (stacked : Stacked m calls)
    (coded : m.Coded calls) (active : 0 < m.depth) (resumes : Resumes m calls) :
    Resumes (endState (exitProcedure segment procedure m))
      (if succeeded (exitProcedure segment procedure m) then
        Call.exited m.memory segment procedure calls else calls) := by
  have framed := h.framed stacked active
  have told (c : Call) (hc : c ∈ calls) : Told m.memory c := h.told c hc (coded c hc)
  rcases Activation.innermost_or_none m.memory segment procedure m.activations with
    ⟨k, first⟩ | none
  · have inCode : ∀ a ∈ m.activations, m.InCode a := by
      rw [← h.actives]
      exact List.forall_mem_map.2 coded
    obtain ⟨m', done, unwound⟩ := framed.exitProcedure_found
      (framed.readable_of_inCode h.standing.secure inCode k) first
    have activation {i : Nat} {d : Call} (hd : calls[i]? = some d) :
        m.activations[i]? = some d.activation := by
      rw [← h.actives, List.getElem?_map, hd]
      rfl
    -- From the named frame on nothing is redirected, so what those calls resume at still stands.
    have outer (i : Nat) (hi : k ≤ i) (d : Call) (hd : calls[i]? = some d) :
        m'.memory.peekWord (d.frame + Frame.savedIpc) = d.resume :=
      (framed.unwound_outer unwound hi (activation hd)).trans
        (resumes d (List.mem_of_getElem? hd))
    rw [done]
    show Resumes m' (Call.exited m.memory segment procedure calls)
    rw [← h.actives] at first
    cases calls with
    | nil => exact List.forall_mem_nil _
    | cons c rest =>
      obtain ⟨tells, told⟩ := List.forall_mem_cons.1 told
      -- The named frame is the running one, which leaves all calls as they are, or one further out.
      cases k with
      | zero =>
        obtain ⟨⟨a, here, named⟩, -⟩ := first
        cases here
        rw [Call.exited, if_pos ((isNamed_iff tells).1 named)]
        intro d hd
        obtain ⟨i, there⟩ := List.getElem?_of_mem hd
        exact outer i (Nat.zero_le i) d there
      | succ k =>
        obtain ⟨other, first⟩ := Activation.Innermost.tail first
        rw [Call.exited, if_neg fun named => other ((isNamed_iff tells).2 named)]
        exact resumes_redirected told first
          (fun i hi d caller hd hcaller => unwound.callers i (Nat.lt_succ_of_le hi) _ _
            (activation hd) (activation hcaller)) outer
  · rw [framed.exitProcedure_none none]
    exact resumes

end Machine
end PSystem
