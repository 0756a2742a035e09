import PSystem.Proofs.Shifts

/-!
# Runs of programs that leave headers alone

`Visits` is a run with two lists of calls: those that are active, innermost first, and all that were
ever made, the latest first.  The lists are told apart by the depth of the machine alone
(`activeAfter`), so that they also follow a return that fails because the segment that it leaves is
missing.  What shifts and calls keep (`Kept`) holds along every run (`Visits.kept`).
-/

namespace PSystem
namespace Machine

variable {above : Prop} {m m' m₁ : Machine} {active active' made new calls : List Call} {c : Call}
  {n segment : UInt8}

/-! ## Active calls -/

/-- A shift enters nothing, and the calls that it leaves active are the outermost ones. -/
theorem Shift.placed (placed : Placed m calls) (h : Shift above m m') :
    m'.depth ≤ m.depth ∧ Placed m' (calls.drop (m.depth - m'.depth)) := by
  have upright' := h.upright placed.upright
  -- All shifts but a return keep the frames, and a return drops the innermost.
  have same (activations : m'.activations = m.activations) :
      m'.depth ≤ m.depth ∧ Placed m' (calls.drop (m.depth - m'.depth)) := by
    have depth : m'.depth = m.depth := by
      rw [← length_activations, activations, length_activations]
    rw [depth, Nat.sub_self]
    exact ⟨Nat.le_refl _, upright', placed.actives.trans activations.symm⟩
  cases h with
  | stays stays => exact same stays.activations
  | load loaded =>
    rcases placed.upright.loadSegment_cases loaded with ⟨e, failed⟩ | ⟨_, eq, -, activations, -⟩
    · cases failed
    · cases eq
      exact same activations
  | release other hs resident => exact same (placed.upright.afterRelease hs resident other).2
  | reclaim => exact same placed.upright.reclaimed.2
  | back some_ found =>
    have split_ := (placed.upright.backAt some_ found).2
    have one : m.depth - (m.depth - 1) = 1 := by omega
    refine ⟨Nat.sub_le _ _, upright', ?_⟩
    show (calls.drop (m.depth - (m.depth - 1))).map _ = _
    rw [one, List.drop_one, List.map_tail, placed.actives, split_, List.tail_cons]

theorem Made.placed (made : Made segment c m m') (placed : Placed m calls) :
    Placed m' (c :: calls) := by
  obtain ⟨upright', same⟩ := placed.upright.entered made.entered
    (two_lt_jtab made.number made.entered.attributes.entry)
  have current : (⟨m'.mp, segment, c.jtab⟩ : Activation) = m'.current := by
    unfold Machine.current
    rw [made.entered.registers]
  refine ⟨upright', ?_⟩
  rw [same, List.map_cons, placed.actives, made.activation, current]

/-! ## What is kept -/

/-- A property of machines with their active calls and all their calls that shifts and calls keep. -/
structure Kept (above : Prop) (I : Machine → (active made : List Call) → Prop) : Prop where
  stays {m m' : Machine} {active made : List Call} : Placed m active → Stays above m m' →
    I m active made → I m' active made
  load {m m' : Machine} {n : UInt8} {active made : List Call} : Placed m active →
    loadSegment n m = .ok () m' → I m active made → I m' active made
  release {m : Machine} {n : UInt8} {s : Segment} {active made : List Call} : Placed m active →
    n ≠ 0 → m.segments.get? n = some s → s.isResident = true → I m active made →
    I (m.afterRelease n s) active made
  reclaim {m : Machine} {active made : List Call} : Placed m active → I m active made →
    I m.reclaimed active made
  back {m : Machine} {entry : Address} {active made : List Call} : Placed m active →
    0 < m.depth → entryOf m.memory m.callerFrom.jtab = .ok entry → I m active made →
    I (m.backAt m.callerFrom entry) active.tail made
  made {m m' : Machine} {segment : UInt8} {c : Call} {active made : List Call} : Placed m active →
    Made segment c m m' → I m active made → I m' (c :: active) (c :: made)

namespace Kept

variable {I : Machine → List Call → List Call → Prop}

theorem shift (kept : Kept above I) (placed : Placed m active) (h : Shift above m m')
    (holds : I m active made) : I m' (active.drop (m.depth - m'.depth)) made := by
  have same (depth : m'.depth = m.depth) (holds' : I m' active made) :
      I m' (active.drop (m.depth - m'.depth)) made := by
    rw [depth, Nat.sub_self]
    exact holds'
  cases h with
  | stays stays => exact same stays.depth (kept.stays placed stays holds)
  | load loaded =>
    have depth := (loadSegment_counts placed.upright.secure loaded).2.1
    exact same depth (kept.load placed loaded holds)
  | release other hs resident => exact same rfl (kept.release placed other hs resident holds)
  | reclaim => exact same rfl (kept.reclaim placed holds)
  | back some_ found =>
    have one : m.depth - (m.depth - 1) = 1 := by omega
    show I _ (active.drop (m.depth - (m.depth - 1))) made
    rw [one, List.drop_one]
    exact kept.back placed some_ found holds

theorem shifts (kept : Kept above I) (placed : Placed m active) (h : Shifts above m m')
    (holds : I m active made) : m'.depth ≤ m.depth ∧
      Placed m' (active.drop (m.depth - m'.depth)) ∧
      I m' (active.drop (m.depth - m'.depth)) made := by
  induction h with
  | refl =>
    rw [Nat.sub_self]
    exact ⟨Nat.le_refl _, placed, holds⟩
  | @tail m₁ m₂ _ shift ih =>
    obtain ⟨low₁, placed₁, holds₁⟩ := ih
    obtain ⟨low₂, placed₂⟩ := shift.placed placed₁
    have holds₂ := kept.shift placed₁ shift holds₁
    have sum : m.depth - m₁.depth + (m₁.depth - m₂.depth) = m.depth - m₂.depth := by omega
    rw [List.drop_drop, sum] at placed₂ holds₂
    exact ⟨by omega, placed₂, holds₂⟩

theorem passes (kept : Kept above I) (placed : Placed m active) (h : Passes above m m' new)
    (holds : I m active made) :
    Placed m' (new ++ active.drop (m.depth + new.length - m'.depth)) ∧
      I m' (new ++ active.drop (m.depth + new.length - m'.depth)) (new ++ made) := by
  cases h with
  | goesOn shifts => exact (kept.shifts placed shifts holds).2
  | @enters m₁ m₂ segment c shifts entered noted =>
    obtain ⟨-, placed₁, holds₁⟩ := kept.shifts placed shifts holds
    have placed₂ := entered.placed placed₁
    have noting : Stays above m₂ m' := placed₂.upright.stays_of_noted noted
    -- the call is one frame more
    have deeper : m'.depth = m₁.depth + 1 := by
      rw [noting.depth, entered.entered.registers]
    have left : m.depth + [c].length - m'.depth = m.depth - m₁.depth := by
      rw [deeper, List.length_singleton]
      omega
    rw [left]
    exact ⟨⟨noting.upright, placed₂.actives.trans noting.activations.symm⟩,
      kept.stays placed₂ noting (kept.made placed₁ entered holds₁)⟩

end Kept

/-! ## Runs -/

/-- The active calls after a step: the call that it makes, and of the earlier ones as many as the
machine still counts. -/
def activeAfter (m : Machine) (active : List Call) : List Call :=
  m.callsAfter [] ++
    active.drop (m.depth + (m.callsAfter []).length - (endState (step m)).depth)

/-- The machines that one boot and any number of steps lead to, if the program stores nothing in the
headers of active frames, with the calls that are active and with all calls that were made.  `rule` is
what else the program keeps to in each step. -/
inductive Visits (rule : Machine → Prop) : Machine → (active made : List Call) → Prop
  | boot {storage : Storage} {console : Console} {config : Config} {host : HostView}
      {limit : Option Nat} {unit : Word} {file : String} {loaded m : Machine} :
      SystemFits (create storage console config host limit) unit file →
      loadSystem unit file (create storage console config host limit) = .ok () loaded →
      boot unit file (create storage console config host limit) = .ok () m →
      Visits rule m (callMade 0 1 loaded).toList (callMade 0 1 loaded).toList
  | step {m : Machine} {active made : List Call} :
      Visits rule m active made → m.LeavesHeaders → rule m →
      Visits rule (endState (step m)) (m.activeAfter active) (m.callsAfter [] ++ made)
  /-- Between two steps the host may show something else. -/
  | observe {m : Machine} {active made : List Call} (host : HostView) :
      Visits rule m active made → Visits rule (m.observe host) active made

theorem Shift.mono {above' : Prop} (imp : above → above') (h : Shift above m m') :
    Shift above' m m' := by
  cases h with
  | stays h =>
    exact .stays ⟨h.upright, h.activations, h.segments, h.psp, h.depth, fun free => h.heap (free ∘ imp)⟩
  | load loaded => exact .load loaded
  | release other hs resident => exact .release other hs resident
  | reclaim => exact .reclaim
  | back some_ found => exact .back some_ found

theorem Passes.mono {above' : Prop} (imp : above → above') (h : Passes above m m' new) :
    Passes above' m m' new := by
  have wider {m m' : Machine} (shifts : Shifts above m m') : Shifts above' m m' :=
    Relation.ReflTransGen.mono (fun _ _ => Shift.mono imp) m m' shifts
  cases h with
  | goesOn shifts => exact .goesOn (wider shifts)
  | enters shifts entered noted => exact .enters (wider shifts) entered noted

theorem Kept.step {I : Machine → List Call → List Call → Prop} (kept : Kept above I)
    (placed : Placed m active) (headers : m.LeavesHeaders) (free : m.ReleasesAbove → above)
    (holds : I m active made) : Placed (endState (Machine.step m)) (m.activeAfter active) ∧
      I (endState (Machine.step m)) (m.activeAfter active) (m.callsAfter [] ++ made) :=
  kept.passes placed ((placed.upright.passes_step headers).mono free) holds

/-- A boot calls the first procedure once the system is loaded. -/
theorem passes_of_boot {unit : Word} {file : String} {fresh loaded : Machine} (hfresh : fresh.Fresh)
    (fits : SystemFits fresh unit file) (loading : loadSystem unit file fresh = .ok () loaded)
    (booted : boot unit file fresh = .ok () m) :
    Placed loaded [] ∧ Passes above loaded m (callMade 0 1 loaded).toList := by
  obtain ⟨m₁, kind, m₂, loading', there, called, rfl⟩ := loaded_of_boot hfresh fits booted
  cases loading.symm.trans loading'
  obtain ⟨standing, none, -⟩ := standing_of_loaded hfresh there
  have placed : Placed loaded [] := ⟨standing.upright, none.symm⟩
  -- no frame is active yet that the first call could touch
  have host : loaded.HeadersIn (endState (call 0 1 loaded)).memory := by
    intro a ha
    rw [none] at ha
    cases ha
  have yields : Yields above loaded (call 0 1 loaded) _ := standing.upright.yields_call fun _ => host
  rw [called] at yields
  exact ⟨placed, (yields.noted standing.upright (noted_record m₂)).2⟩

/-- What holds before the first call and is kept holds along every run. -/
theorem Visits.kept {I : Machine → List Call → List Call → Prop} {rule : Machine → Prop}
    (kept : Kept above I)
    (start : ∀ {unit : Word} {file : String} {fresh loaded : Machine}, fresh.Fresh →
      SystemFits fresh unit file → loadSystem unit file fresh = .ok () loaded → I loaded [] [])
    (free : ∀ m, rule m → m.ReleasesAbove → above) (run : Visits rule m active made) :
    Placed m active ∧ I m active made := by
  induction run with
  | @boot storage console config host limit unit file loaded m fits loading booted =>
    have hfresh := fresh_create storage console config host limit
    have passing : Placed loaded [] ∧ Passes above loaded m _ :=
      passes_of_boot hfresh fits loading booted
    have booted := kept.passes passing.1 passing.2 (start hfresh fits loading)
    rw [List.drop_nil, List.append_nil] at booted
    exact booted
  | step _ headers ruled ih => exact kept.step ih.1 headers (free _ ruled) ih.2
  | observe host _ ih =>
    obtain ⟨placed, holds⟩ := ih
    have stays : Stays above _ _ := placed.upright.stays_of_observe host
    exact ⟨⟨stays.upright, placed.actives.trans stays.activations.symm⟩, kept.stays placed stays holds⟩

/-! ## What a boot loads -/

/-- The pieces of segment 0 lie one below the other, at the top of the program stack.  In the overlay
table, nothing but the entry of segment 0 has changed since it was read from the dictionary. -/
theorem pieces_of_loadSystem {unit : Word} {file : String} {fresh : Machine} (hfresh : fresh.Fresh)
    (fits : SystemFits fresh unit file) (h : loadSystem unit file fresh = .ok () m) :
    ∃ block dictionary kernel base, let table := SegmentTable.ofDictionary dictionary unit block
      table.Unloaded ∧ table.get? 0 = some kernel ∧
      base.toNat + kernel.footprint.toNat = 0xF000 ∧
      (m.psp = base ∧ m.segments = table.modify 0 (Segment.putAt base) ∨
        ∃ x extension, kernel.extension = some x ∧
          extension.toNat + (evenSize x.size).toNat = base.toNat ∧ m.psp = extension ∧
          m.segments =
            (table.modify 0 (Segment.putAt base)).modify 0 (placeExtension x extension)) := by
  obtain ⟨block, dictionary, memory, kernel, m₁, found, -, clean, -, -, hk, hl, ext⟩ :=
    loadSystem_stages h
  have unloaded := SegmentTable.unloaded_ofDictionary (fits block dictionary found) unit block
  obtain ⟨loaded, s, hs, -, same, adjacent, -⟩ :=
    loaded_kernel hfresh (clean hfresh.clean) unloaded hk hl
  have layout : CodeLayout (SegmentTable.ofDictionary dictionary unit block) memory fresh.psp
      fresh.heap := by
    rw [hfresh.psp, hfresh.heap]
    exact layout_prepared (clean hfresh.clean) unloaded
  rcases loadSegment_outcome (m := prepared fresh memory _) layout hl with
    ⟨e, eq⟩ | ⟨s', hs', ⟨resident, -⟩ | ⟨-, base, bytes, memory', brought, eq⟩⟩
  · cases eq
  · cases hk.symm.trans hs'
    simp [Segment.isResident, unloaded.unused 0 kernel hk] at resident
  cases hk.symm.trans hs'
  cases eq
  have number := unloaded.entries.numbered 0 kernel hk
  have top : base.toNat + kernel.footprint.toNat = 0xF000 := by
    have carved := brought.carved
    rw [show (prepared fresh memory _).psp = programTop from hfresh.psp] at carved
    exact carved
  have table : ((prepared fresh memory (SegmentTable.ofDictionary dictionary unit block)).afterLoad
      kernel base memory').segments =
      (SegmentTable.ofDictionary dictionary unit block).modify 0 (Segment.putAt base) := by
    unfold afterLoad
    rw [number]
    rfl
  refine ⟨block, dictionary, kernel, base, unloaded, hk, top, ?_⟩
  -- With an extension the kernel is in two parts, the second just below the first.
  rcases ext with ⟨-, rfl⟩ | ⟨extension, some_, he⟩
  · exact .inl ⟨rfl, table⟩
  · cases hx : kernel.extension with
    | none => exact absurd hx some_
    | some x =>
      rw [hx] at same
      obtain ⟨_, _, _, _, _, carved, _, _, _, _, _, rfl⟩ :=
        loadExtension_eq_ok hs same (unloaded.unplaced 0 kernel hk x hx) adjacent he
      refine .inr ⟨x, extension, rfl, carved, rfl, ?_⟩
      rw [← table]
      rfl

/-! ## Runs of a small system -/

theorem visits_boots (rule : Machine → Prop) {storage : Storage} {fresh : Machine}
    (made : fresh = create storage default default default none) (h : boots fresh = true) :
    Visits rule (endState (boot 4 "SYSTEM" fresh))
      (callMade 0 1 (endState (loadSystem 4 "SYSTEM" fresh))).toList
      (callMade 0 1 (endState (loadSystem 4 "SYSTEM" fresh))).toList := by
  obtain ⟨fits, booted⟩ := boot_of_boots h
  have loading := loadSystem_of_boots h
  subst made
  exact .boot fits loading booted

theorem visits_started {segments : List SegmentSpec} (rule : Machine → Prop)
    (h : starts segments = true) :
    Visits rule (started segments) (callMade 0 1 (unstarted segments)).toList
      (callMade 0 1 (unstarted segments)).toList :=
  visits_boots rule rfl h

/-- Whether the next steps leave the headers of active frames as they are, and keep to a rule. -/
def keepsTo (rule : Machine → Bool) : Nat → Machine → Bool
  | 0, _ => true
  | n + 1, m => keepsHeaders m && rule m && keepsTo rule n (endState (step m))

/-- A machine, its active calls and all its calls after some steps. -/
def visit : Nat → Machine → (active made : List Call) → Machine × List Call × List Call
  | 0, m, active, made => (m, active, made)
  | n + 1, m, active, made =>
    visit n (endState (step m)) (m.activeAfter active) (m.callsAfter [] ++ made)

theorem Visits.steps {rule : Machine → Prop} {check : Machine → Bool}
    (sound : ∀ m, check m = true → rule m) {n : Nat} (run : Visits rule m active made)
    (h : keepsTo check n m = true) :
    Visits rule (visit n m active made).1 (visit n m active made).2.1 (visit n m active made).2.2 := by
  induction n generalizing m active made with
  | zero => exact run
  | succ n ih =>
    unfold keepsTo at h
    simp only [Bool.and_eq_true] at h
    obtain ⟨⟨headers, checked⟩, rest⟩ := h
    exact ih (run.step (leavesHeaders_of_keepsHeaders headers) (sound m checked)) rest

end Machine
end PSystem
