import Mathlib.Data.Finset.Card
import Mathlib.Data.List.Infix
import PSystem.Assembler
import PSystem.Proofs.Keeps

/-!
# Assembled jumps

A draft only grows (`Draft.Grows`), so what a directive wrote stays where it was written until the
jumps are closed, and closing them fills in exactly the bytes left open for them.
`Body.assemble_spec` says what stands in the code for each jump that the directives ask for
(`jumps`): its opcode, and a displacement that either reaches its target or names the entry of the
jump table that holds it (`Encodes`).

`Body.assemble_fails_iff` says when there is no body.
-/

namespace PSystem

/-! ## Drafts grow -/

namespace Draft

/-- Everything in the first draft is in the second, and what was added lies behind it. -/
structure Grows (d d' : Draft) : Prop where
  code : d.code.toList <+: d'.code.toList
  branches : ∃ new, d'.branches = new ++ d.branches ∧
    ∀ b ∈ new, d.offset ≤ b.1 ∧ b.1 < d'.offset
  caseWords : ∃ new, d'.caseWords = new ++ d.caseWords ∧
    ∀ c ∈ new, d.offset ≤ c.1 ∧ c.1 + 2 ≤ d'.offset

/-- Bytes were appended, and nothing else was noted. -/
structure Appends (d d' : Draft) : Prop where
  code : d.code.toList <+: d'.code.toList
  branches : d'.branches = d.branches
  caseWords : d'.caseWords = d.caseWords
  bindings : d'.bindings = d.bindings

section Growth

variable {d d' d'' : Draft}

theorem Appends.refl (d : Draft) : Appends d d :=
  ⟨List.prefix_refl _, rfl, rfl, rfl⟩

theorem Appends.trans (h : Appends d d') (h' : Appends d' d'') : Appends d d'' where
  code := h.code.trans h'.code
  branches := h'.branches.trans h.branches
  caseWords := h'.caseWords.trans h.caseWords
  bindings := h'.bindings.trans h.bindings

theorem Appends.grows (h : Appends d d') : Grows d d' :=
  ⟨h.code, ⟨[], h.branches, by simp⟩, ⟨[], h.caseWords, by simp⟩⟩

theorem Grows.refl (d : Draft) : Grows d d :=
  (Appends.refl d).grows

theorem Grows.offset_le (h : Grows d d') : d.offset ≤ d'.offset := by
  simpa [offset] using h.code.length_le

theorem Grows.trans (h : Grows d d') (h' : Grows d' d'') : Grows d d'' := by
  have first := h.offset_le
  have second := h'.offset_le
  obtain ⟨new, eq, behind⟩ := h.branches
  obtain ⟨new', eq', behind'⟩ := h'.branches
  obtain ⟨words, wordsEq, wordsBehind⟩ := h.caseWords
  obtain ⟨words', wordsEq', wordsBehind'⟩ := h'.caseWords
  refine ⟨h.code.trans h'.code, ⟨new' ++ new, by rw [eq', eq, List.append_assoc], ?_⟩,
    ⟨words' ++ words, by rw [wordsEq', wordsEq, List.append_assoc], ?_⟩⟩
  · -- what the second part adds lies behind what the first one does
    intro b hb
    rcases List.mem_append.1 hb with later | earlier
    · have := behind' b later
      omega
    · have := behind b earlier
      omega
  · intro c hc
    rcases List.mem_append.1 hc with later | earlier
    · have := wordsBehind' c later
      omega
    · have := wordsBehind c earlier
      omega

instance : IsPreorder Draft Appends where
  refl := Appends.refl
  trans _ _ _ := Appends.trans

instance : IsPreorder Draft Grows where
  refl := Grows.refl
  trans _ _ _ := Grows.trans

/-- A byte of the first draft is found at its place in the second. -/
theorem Grows.getElem? (h : Grows d d') {i : Nat} {b : UInt8} (hb : d.code[i]? = some b) :
    d'.code[i]? = some b := by
  obtain ⟨added, eq⟩ := h.code
  rw [← Array.getElem?_toList] at hb ⊢
  obtain ⟨bound, -⟩ := List.getElem?_eq_some_iff.1 hb
  rw [← eq, List.getElem?_append_left bound, hb]

/-- A relation that every step keeps is kept by steps taken one after another. -/
theorem foldl_related {α : Type} {R : Draft → Draft → Prop} [IsPreorder Draft R]
    {f : Draft → α → Draft} (step : ∀ d x, R d (f d x)) (d : Draft) (xs : List α) :
    R d (xs.foldl f d) := by
  induction xs generalizing d with
  | nil => exact Std.Refl.refl d
  | cons x xs ih => exact IsTrans.trans _ _ _ (step d x) (ih (f d x))

end Growth

theorem appends_push (d : Draft) (b : UInt8) : Appends d (d.push b) where
  code := by simp [push]
  branches := rfl
  caseWords := rfl
  bindings := rfl

theorem appends_align (d : Draft) : Appends d d.align := by
  rw [align]
  split
  · exact appends_push d 0
  · exact Appends.refl d

theorem appends_op (d : Draft) (code : UInt8) : Appends d (d.op code) :=
  ⟨(appends_push d code).code, rfl, rfl, rfl⟩

theorem appends_word (d : Draft) (w : Word) : Appends d (d.word w) :=
  (appends_align d).trans ((appends_push _ _).trans (appends_push _ _))

theorem appends_text (d : Draft) (cs : Bytes) : Appends d (d.apply (.text cs)) :=
  (appends_push d _).trans (foldl_related appends_push _ cs)

theorem appends_big (d : Draft) (w : Word) : Appends d (d.apply (.big w)) := by
  rw [apply]
  split
  · exact appends_push d _
  · exact (appends_push d _).trans (appends_push _ _)

/-- The draft in which a case jump has its bounds and not yet its default jump. -/
def bounds (d : Draft) (low high : Int) : Draft :=
  ((d.op Opcode.xjp.code).word (Word.ofSigned low)).word (Word.ofSigned high)

theorem appends_bounds (d : Draft) (low high : Int) : Appends d (d.bounds low high) :=
  (appends_op d _).trans ((appends_word _ _).trans (appends_word _ _))

theorem apply_cases (d : Draft) (low high : Int) (default : Label) (targets : List Label) :
    d.apply (.cases low high default targets) =
      targets.foldl caseWord ((d.bounds low high).branch Opcode.ujp.code default) := rfl

theorem grows_branch (d : Draft) (code : UInt8) (label : Label) : Grows d (d.branch code label) := by
  refine (appends_op d code).grows.trans
    ⟨(appends_push _ _).code, ⟨[_], rfl, ?_⟩, ⟨[], rfl, by simp⟩⟩
  simp [branch, op, push, offset]

theorem grows_caseWord (d : Draft) (label : Label) : Grows d (d.caseWord label) := by
  refine ⟨?_, ⟨[], rfl, by simp⟩, ⟨[_], rfl, ?_⟩⟩
  · simp [caseWord, push]
  · simp [caseWord, push, offset]

theorem grows_apply (d : Draft) (directive : Directive) : Grows d (d.apply directive) := by
  cases directive with
  | op code => exact (appends_op d code).grows
  | byte v => exact (appends_push d v).grows
  | big w => exact (appends_big d w).grows
  | word w => exact (appends_word d w).grows
  | align => exact (appends_align d).grows
  | text cs => exact (appends_text d cs).grows
  | bind | exit => exact ⟨List.prefix_refl _, ⟨[], rfl, by simp⟩, ⟨[], rfl, by simp⟩⟩
  | branch code label => exact grows_branch d code label
  | cases low high default targets =>
    exact (appends_bounds d low high).grows.trans
      ((grows_branch _ _ _).trans (foldl_related grows_caseWord _ targets))

end Draft

/-! ## The jumps of a procedure -/

/-- A jump instruction with an open displacement: where its opcode stands, the opcode, and the label
to jump to. -/
structure Jump where
  position : Nat
  code : UInt8
  label : Label
  deriving DecidableEq, Repr

/-- Whether a displacement from the jump to `target` is between 0 and 127. -/
def Jump.Near (j : Jump) (target : Nat) : Prop :=
  j.position + 2 ≤ target ∧ target ≤ j.position + 129

instance (j : Jump) (target : Nat) : Decidable (j.Near target) :=
  inferInstanceAs (Decidable (_ ∧ _))

/-- The draft before its jumps are closed. -/
def draft (order : ByteOrder) (directives : List Directive) : Draft :=
  directives.foldl Draft.apply { order := order }

namespace Directive

/-- The jump that a directive writes onto a draft. -/
def jump? (d : Draft) : Directive → Option Jump
  | branch code label => some ⟨d.offset, code, label⟩
  | cases low high default _ => some ⟨(d.bounds low high).offset, Opcode.ujp.code, default⟩
  | _ => none

/-- The labels that a directive refers to. -/
def labels : Directive → List Label
  | branch _ label => [label]
  | cases _ _ default targets => default :: targets
  | _ => []

end Directive

/-- The jumps that directives write onto a draft. -/
def jumpsFrom (d : Draft) : List Directive → List Jump
  | [] => []
  | x :: xs => (x.jump? d).toList ++ jumpsFrom (d.apply x) xs

/-- The jumps of a procedure. -/
def jumps (order : ByteOrder) (directives : List Directive) : List Jump :=
  jumpsFrom { order := order } directives

/-- The label stands for the offset `target`: that is where it was bound last. -/
def Bound (order : ByteOrder) (directives : List Directive) (label : Label) (target : Nat) : Prop :=
  ∃ before after, directives = before ++ .bind label :: after ∧ .bind label ∉ after ∧
    target = (draft order before).offset

namespace Draft

variable {d d' : Draft} {j : Jump}

/-- The jump stands in the draft: its opcode is written, its displacement is open under its label,
and nothing else is open at these two places. -/
structure Stands (d : Draft) (j : Jump) : Prop where
  code : d.code[j.position]? = some j.code
  inside : j.position + 2 ≤ d.offset
  open_ : (j.position + 1, j.label) ∈ d.branches
  alone : ∀ b ∈ d.branches, b.1 ≠ j.position ∧
    (b.1 = j.position + 1 → b = (j.position + 1, j.label))
  apart : ∀ c ∈ d.caseWords, c.1 + 2 ≤ j.position ∨ j.position + 2 ≤ c.1

/-- What is open in a draft lies inside it. -/
structure Inside (d : Draft) : Prop where
  branches : ∀ b ∈ d.branches, b.1 < d.offset
  caseWords : ∀ c ∈ d.caseWords, c.1 + 2 ≤ d.offset

theorem Inside.grows (h : Inside d) (grows : Grows d d') : Inside d' := by
  have further := grows.offset_le
  obtain ⟨new, eq, behind⟩ := grows.branches
  obtain ⟨words, wordsEq, wordsBehind⟩ := grows.caseWords
  constructor
  · intro b hb
    rw [eq] at hb
    rcases List.mem_append.1 hb with later | earlier
    · exact (behind b later).2
    · exact (h.branches b earlier).trans_le further
  · intro c hc
    rw [wordsEq] at hc
    rcases List.mem_append.1 hc with later | earlier
    · exact (wordsBehind c later).2
    · exact (h.caseWords c earlier).trans further

/-- A jump stays where it stands. -/
theorem Stands.grows (h : Stands d j) (grows : Grows d d') : Stands d' j := by
  have inside := h.inside
  obtain ⟨new, eq, behind⟩ := grows.branches
  obtain ⟨words, wordsEq, wordsBehind⟩ := grows.caseWords
  refine ⟨grows.getElem? h.code, inside.trans grows.offset_le, ?_, ?_, ?_⟩
  · rw [eq]
    exact List.mem_append_right new h.open_
  · intro b hb
    rw [eq] at hb
    rcases List.mem_append.1 hb with later | earlier
    · have := behind b later
      exact ⟨by omega, by omega⟩
    · exact h.alone b earlier
  · intro c hc
    rw [wordsEq] at hc
    rcases List.mem_append.1 hc with later | earlier
    · have := wordsBehind c later
      omega
    · exact h.apart c earlier

/-- A jump instruction stands right after it was written. -/
theorem stands_branch (inside : Inside d) (code : UInt8) (label : Label) :
    Stands (d.branch code label) ⟨d.offset, code, label⟩ where
  code := by
    show ((d.code.push code).push 0)[d.code.size]? = some code
    rw [Array.getElem?_push, Array.getElem?_push, if_neg (by simp), if_pos rfl]
  inside := by simp [branch, op, push, offset]
  open_ := by simp [branch, op, push, offset]
  alone := by
    intro b hb
    have place : b = (d.offset + 1, label) ∨ b ∈ d.branches := by
      simpa [branch, op, push, offset] using hb
    rcases place with rfl | earlier
    · exact ⟨by simp, fun _ => rfl⟩
    · have := inside.branches b earlier
      exact ⟨by dsimp only; omega, by dsimp only; omega⟩
  apart := by
    intro c hc
    exact .inl (inside.caseWords c hc)

theorem stands_of_jump? {directive : Directive} (inside : Inside d)
    (h : directive.jump? d = some j) : Stands (d.apply directive) j := by
  cases directive with
  | branch code label =>
    cases h
    exact stands_branch inside code label
  | cases low high default targets =>
    cases h
    have before := inside.grows (appends_bounds d low high).grows
    exact (stands_branch before _ default).grows (foldl_related grows_caseWord _ targets)
  | _ => cases h

/-- Every jump that was written stands in the draft. -/
theorem stands_of_mem_jumpsFrom {directives : List Directive} (inside : Inside d)
    (h : j ∈ jumpsFrom d directives) : Stands (directives.foldl apply d) j := by
  induction directives generalizing d with
  | nil => cases h
  | cons x xs ih =>
    rcases List.mem_append.1 h with here | later
    · exact (stands_of_jump? inside (Option.mem_toList.1 here)).grows (foldl_related grows_apply _ xs)
    · exact ih (inside.grows (grows_apply d x)) later

/-! ## Labels -/

/-- What a directive notes besides bytes. -/
structure Notes (d : Draft) (directive : Directive) (d' : Draft) : Prop where
  bindings : d'.bindings = match directive with
    | .bind label => (label, d.offset) :: d.bindings
    | _ => d.bindings
  branches : d'.branches =
    ((directive.jump? d).toList.map fun j => (j.position + 1, j.label)) ++ d.branches
  caseWords : d'.caseWords.map Prod.snd = match directive with
    | .cases _ _ _ targets => targets.reverse ++ d.caseWords.map Prod.snd
    | _ => d.caseWords.map Prod.snd

theorem branches_branch (d : Draft) (code : UInt8) (label : Label) :
    (d.branch code label).branches = (d.offset + 1, label) :: d.branches := by
  simp [branch, op, push, offset]

theorem bindings_branch (d : Draft) (code : UInt8) (label : Label) :
    (d.branch code label).bindings = d.bindings := rfl

theorem caseWords_branch (d : Draft) (code : UInt8) (label : Label) :
    (d.branch code label).caseWords = d.caseWords := rfl

/-- Case words are noted under their labels, the latest first. -/
theorem foldl_caseWord (d : Draft) (targets : List Label) :
    (targets.foldl caseWord d).bindings = d.bindings ∧
      (targets.foldl caseWord d).branches = d.branches ∧
      (targets.foldl caseWord d).caseWords.map Prod.snd =
        targets.reverse ++ d.caseWords.map Prod.snd := by
  induction targets generalizing d with
  | nil => exact ⟨rfl, rfl, rfl⟩
  | cons target targets ih =>
    obtain ⟨bindings, branches, caseWords⟩ := ih (d.caseWord target)
    refine ⟨bindings, branches, ?_⟩
    rw [List.foldl_cons, caseWords, List.reverse_cons, List.append_assoc]
    rfl

theorem notes_apply (d : Draft) (directive : Directive) : Notes d directive (d.apply directive) := by
  cases directive with
  | big w =>
    obtain ⟨-, branches, caseWords, bindings⟩ := appends_big d w
    exact ⟨bindings, branches, congrArg _ caseWords⟩
  | word w =>
    obtain ⟨-, branches, caseWords, bindings⟩ := appends_word d w
    exact ⟨bindings, branches, congrArg _ caseWords⟩
  | align =>
    obtain ⟨-, branches, caseWords, bindings⟩ := appends_align d
    exact ⟨bindings, branches, congrArg _ caseWords⟩
  | text cs =>
    obtain ⟨-, branches, caseWords, bindings⟩ := appends_text d cs
    exact ⟨bindings, branches, congrArg _ caseWords⟩
  | branch code label => exact ⟨rfl, branches_branch d code label, rfl⟩
  | cases low high default targets =>
    obtain ⟨-, branches, caseWords, bindings⟩ := appends_bounds d low high
    obtain ⟨bindings', branches', caseWords'⟩ :=
      foldl_caseWord ((d.bounds low high).branch Opcode.ujp.code default) targets
    -- a case jump notes its default as a branch, and its targets as case words
    rw [apply_cases]
    constructor
    · rw [bindings', bindings_branch, bindings]
    · rw [branches', branches_branch, branches]
      rfl
    · rw [caseWords', caseWords_branch, caseWords]
  | op | byte | bind | exit => exact ⟨rfl, rfl, rfl⟩

end Draft

theorem draft_append (order : ByteOrder) (before : List Directive) (x : Directive) :
    draft order (before ++ [x]) = (draft order before).apply x := by
  rw [draft, List.foldl_append]
  rfl

theorem bound_append_bind (order : ByteOrder) (xs : List Directive) (label : Label) (target : Nat) :
    Bound order (xs ++ [.bind label]) label target ↔ target = (draft order xs).offset := by
  constructor
  · rintro ⟨before, after, eq, last, rfl⟩
    rcases List.eq_nil_or_concat after with rfl | ⟨front, x, rfl⟩
    · rw [(List.append_inj' eq rfl).1]
    · -- the last directive binds the label, so a binding comes after
      have same : xs ++ [.bind label] = (before ++ .bind label :: front) ++ [x] := by simpa using eq
      have bound : .bind label = x := by simpa using (List.append_inj' same rfl).2
      exact absurd (by simp [bound]) last
  · rintro rfl
    exact ⟨xs, [], rfl, by simp, rfl⟩

theorem bound_append {order : ByteOrder} {xs : List Directive} {x : Directive} {label : Label}
    (other : x ≠ .bind label) (target : Nat) :
    Bound order (xs ++ [x]) label target ↔ Bound order xs label target := by
  constructor
  · rintro ⟨before, after, eq, last, rfl⟩
    rcases List.eq_nil_or_concat after with rfl | ⟨front, y, rfl⟩
    · have bound : x = .bind label := by simpa using (List.append_inj' eq rfl).2
      exact absurd bound other
    · have same : xs ++ [x] = (before ++ .bind label :: front) ++ [y] := by simpa using eq
      exact ⟨before, front, (List.append_inj' same rfl).1, fun h => last (by simp [h]), rfl⟩
  · rintro ⟨before, after, rfl, last, rfl⟩
    refine ⟨before, after ++ [x], by simp, ?_, rfl⟩
    simpa [other.symm] using last

/-- A draft knows where each label was bound last. -/
theorem lookup_draft (order : ByteOrder) (directives : List Directive) (label : Label) (target : Nat) :
    (draft order directives).bindings.lookup label = some target ↔
      Bound order directives label target := by
  induction directives using List.reverseRecOn with
  | nil => simp [draft, Bound]
  | append_singleton xs x ih =>
    rw [draft_append]
    have notes := (Draft.notes_apply (draft order xs) x).bindings
    by_cases same : x = .bind label
    · subst same
      rw [notes, List.lookup_cons_self, Option.some_inj, bound_append_bind, eq_comm]
    · rw [bound_append same, ← ih, notes]
      split
      · rename_i other
        have differ : (label == other) = false := by
          rw [beq_eq_false_iff_ne]
          rintro rfl
          exact same rfl
        rw [List.lookup_cons, differ]
      · rfl

theorem Bound.unique {order : ByteOrder} {directives : List Directive} {label : Label} {t t' : Nat}
    (h : Bound order directives label t) (h' : Bound order directives label t') : t = t' := by
  rw [← lookup_draft] at h h'
  exact Option.some_inj.1 (h.symm.trans h')

/-- A label is bound inside the code. -/
theorem Bound.le_offset {order : ByteOrder} {directives : List Directive} {label : Label}
    {target : Nat} (h : Bound order directives label target) :
    target ≤ (draft order directives).offset := by
  obtain ⟨before, after, rfl, -, rfl⟩ := h
  rw [draft, draft, List.foldl_append]
  exact (Draft.foldl_related Draft.grows_apply _ (.bind label :: after)).offset_le

theorem exists_bound_iff (order : ByteOrder) (directives : List Directive) (label : Label) :
    (∃ target, Bound order directives label target) ↔ .bind label ∈ directives := by
  induction directives using List.reverseRecOn with
  | nil => simp [Bound]
  | append_singleton xs x ih =>
    by_cases binds : x = .bind label
    · subst binds
      simp [bound_append_bind]
    · simp [bound_append binds, ih, Ne.symm binds]

/-! ## Closing the jumps -/

namespace Body

/-- The displacement byte at `i` leads to `target`: it reaches it from behind itself, or it names the
entry of the jump table that holds it. -/
def Encodes (table : List Nat) (i target : Nat) (byte : UInt8) : Prop :=
  (i + 1 ≤ target ∧ target ≤ i + 128 ∧ byte = UInt8.ofNat (target - (i + 1))) ∨
    ∃ k, table[k]? = some target ∧ k < maxTargets ∧ byte = UInt8.ofNat (256 - (10 + 2 * k))

theorem Encodes.mono {table table' : List Nat} {i target : Nat} {byte : UInt8}
    (h : Encodes table i target byte) (grows : table <+: table') : Encodes table' i target byte := by
  rcases h with near | ⟨k, entry, few, eq⟩
  · exact .inl near
  · obtain ⟨bound, -⟩ := List.getElem?_eq_some_iff.1 entry
    obtain ⟨added, rfl⟩ := grows
    exact .inr ⟨k, by rw [List.getElem?_append_left bound, entry], few, eq⟩

/-- A target is in the table already, or it is put behind the others. -/
theorem tableIndex_cases (table : List Nat) (target : Nat) :
    (∃ k, k < table.length ∧ table[k]? = some target ∧ tableIndex table target = (k, table)) ∨
      (target ∉ table ∧ tableIndex table target = (table.length, table ++ [target])) := by
  rw [tableIndex]
  cases found : table.idxOf? target with
  | none => exact .inr ⟨List.idxOf?_eq_none_iff.1 found, rfl⟩
  | some k =>
    obtain ⟨bound, entry, -⟩ := List.idxOf?_eq_some_iff.1 found
    exact .inl ⟨k, bound, List.getElem?_eq_some_iff.2 ⟨bound, entry⟩, rfl⟩

theorem displacement_near {table : List Nat} {i target : Nat}
    (near : i + 1 ≤ target ∧ target ≤ i + 128) :
    displacement table i target = .ok (UInt8.ofNat (target - (i + 1)), table) := by
  rw [displacement, if_pos near]

theorem displacement_far {table : List Nat} {i target : Nat}
    (far : ¬ (i + 1 ≤ target ∧ target ≤ i + 128)) :
    displacement table i target =
      if (tableIndex table target).1 < maxTargets then
        .ok (UInt8.ofNat (256 - (10 + 2 * (tableIndex table target).1)), (tableIndex table target).2)
      else .error .tooManyTargets := by
  rw [displacement, if_neg far]

/-- A displacement that was found leads to its target. -/
theorem encodes_of_displacement {table table' : List Nat} {i target : Nat} {byte : UInt8}
    (h : displacement table i target = .ok (byte, table')) :
    table <+: table' ∧ Encodes table' i target byte := by
  by_cases near : i + 1 ≤ target ∧ target ≤ i + 128
  · rw [displacement_near near] at h
    cases h
    exact ⟨List.prefix_refl _, .inl ⟨near.1, near.2, rfl⟩⟩
  · rw [displacement_far near] at h
    split at h
    · rename_i few
      cases h
      rcases tableIndex_cases table target with ⟨k, -, entry, eq⟩ | ⟨-, eq⟩
      · rw [eq] at few ⊢
        exact ⟨List.prefix_refl _, .inr ⟨k, entry, few, rfl⟩⟩
      · rw [eq] at few ⊢
        exact ⟨List.prefix_append .., .inr ⟨table.length, by simp, few, rfl⟩⟩
    · cases h

variable {d : Draft}

theorem resolve_eq_ok {label : Label} {target : Nat} :
    d.resolve label = .ok target ↔ d.bindings.lookup label = some target := by
  rw [Draft.resolve]
  cases d.bindings.lookup label <;> simp

/-- Closing jumps fills in bytes at their places only, and extends the table. -/
theorem fillBranches_keeps {bs : List (Nat × Label)} {code code' : Array UInt8}
    {table table' : List Nat} (h : fillBranches d bs code table = .ok (code', table')) :
    table <+: table' ∧ code'.size = code.size ∧
      ∀ i, (∀ b ∈ bs, b.1 ≠ i) → code'[i]? = code[i]? := by
  induction bs generalizing code table with
  | nil =>
    cases h
    exact ⟨List.prefix_refl _, rfl, fun _ _ => rfl⟩
  | cons b bs ih =>
    obtain ⟨target, -, h⟩ := except_bind_eq_ok.1 h
    obtain ⟨⟨byte, table₁⟩, displaced, h⟩ := except_bind_eq_ok.1 h
    obtain ⟨grows, size, same⟩ := ih h
    refine ⟨(encodes_of_displacement displaced).1.trans grows, by simpa using size, ?_⟩
    intro i away
    rw [same i fun b' hb' => away b' (List.mem_cons_of_mem b hb'),
      Array.getElem?_setIfInBounds_ne (away b (List.mem_cons_self ..))]

/-- A jump whose place is its own is closed with a displacement that leads to its label. -/
theorem encodes_of_fillBranches {bs : List (Nat × Label)} {code code' : Array UInt8}
    {table table' : List Nat} (h : fillBranches d bs code table = .ok (code', table')) {i : Nat}
    {label : Label} (open_ : (i, label) ∈ bs) (alone : ∀ b ∈ bs, b.1 = i → b = (i, label))
    (inside : i < code.size) :
    ∃ target byte, d.bindings.lookup label = some target ∧ code'[i]? = some byte ∧
      Encodes table' i target byte := by
  induction bs generalizing code table with
  | nil => cases open_
  | cons b bs ih =>
    obtain ⟨target, resolved, h⟩ := except_bind_eq_ok.1 h
    obtain ⟨⟨byte, table₁⟩, displaced, h⟩ := except_bind_eq_ok.1 h
    by_cases later : (i, label) ∈ bs
    · exact ih h later (fun b' hb' => alone b' (List.mem_cons_of_mem b hb')) (by simpa using inside)
    · have first : b = (i, label) := by
        rcases List.mem_cons.1 open_ with eq | mem
        · exact eq.symm
        · exact absurd mem later
      subst first
      obtain ⟨grows, -, same⟩ := fillBranches_keeps h
      -- no jump that follows has the same place
      have away (b' : Nat × Label) (hb' : b' ∈ bs) : b'.1 ≠ i := by
        intro eq
        have := alone b' (List.mem_cons_of_mem _ hb') eq
        exact later (this ▸ hb')
      refine ⟨target, byte, resolve_eq_ok.1 resolved, ?_,
        (encodes_of_displacement displaced).2.mono grows⟩
      rw [same i away, Array.getElem?_setIfInBounds_self_of_lt inside]

/-- Closing case jumps fills in bytes of their words only. -/
theorem fillCases_keeps {cs : List (Nat × Label)} {code code' : Array UInt8}
    (h : fillCases d cs code = .ok code') :
    code'.size = code.size ∧ ∀ i, (∀ c ∈ cs, c.1 + 2 ≤ i ∨ i < c.1) → code'[i]? = code[i]? := by
  induction cs generalizing code with
  | nil =>
    cases h
    exact ⟨rfl, fun _ _ => rfl⟩
  | cons c cs ih =>
    obtain ⟨target, -, h⟩ := except_bind_eq_ok.1 h
    obtain ⟨size, same⟩ := ih h
    refine ⟨by simpa using size, ?_⟩
    intro i away
    have here := away c (List.mem_cons_self ..)
    rw [same i fun c' hc' => away c' (List.mem_cons_of_mem c hc'),
      Array.getElem?_setIfInBounds_ne (by omega), Array.getElem?_setIfInBounds_ne (by omega)]

/-- The steps of assembling a body. -/
theorem exists_of_assemble {order : ByteOrder} {directives : List Directive} {body : Body}
    (h : assemble order directives = .ok body) :
    ∃ code closed, fillBranches (draft order directives) (draft order directives).branches.reverse
        (draft order directives).code [] = .ok (code, body.jumpTable) ∧
      fillCases (draft order directives) (draft order directives).caseWords.reverse code =
        .ok closed ∧ body.code = closed.toList := by
  obtain ⟨⟨code, table⟩, filled, h⟩ := except_bind_eq_ok.1 h
  obtain ⟨closed, cased, h⟩ := except_bind_eq_ok.1 h
  cases h
  exact ⟨code, closed, filled, cased, rfl⟩

/-- What stands in the code of a body for each of its jumps. -/
theorem assemble_spec {order : ByteOrder} {directives : List Directive} {body : Body}
    (h : assemble order directives = .ok body) {j : Jump} (hj : j ∈ jumps order directives) :
    ∃ target byte, Bound order directives j.label target ∧ target ≤ body.code.length ∧
      body.code[j.position]? = some j.code ∧ body.code[j.position + 1]? = some byte ∧
      Encodes body.jumpTable (j.position + 1) target byte := by
  obtain ⟨code, closed, filled, cased, final⟩ := exists_of_assemble h
  have stands : Draft.Stands (draft order directives) j :=
    Draft.stands_of_mem_jumpsFrom ⟨by simp, by simp⟩ hj
  have inside := stands.inside
  obtain ⟨-, size, same⟩ := fillBranches_keeps filled
  obtain ⟨size', same'⟩ := fillCases_keeps cased
  obtain ⟨target, byte, resolved, displacement, encodes⟩ :=
    encodes_of_fillBranches filled (List.mem_reverse.2 stands.open_)
      (fun b hb => (stands.alone b (List.mem_reverse.1 hb)).2) inside
  have bound : Bound order directives j.label target := (lookup_draft ..).1 resolved
  have length : body.code.length = (draft order directives).offset := by
    rw [final, Array.length_toList, size', size, Draft.offset]
  -- case words are apart from both bytes
  have apart (i : Nat) (hi : i = j.position ∨ i = j.position + 1) (c : Nat × Label)
      (hc : c ∈ (draft order directives).caseWords.reverse) : c.1 + 2 ≤ i ∨ i < c.1 := by
    have := stands.apart c (List.mem_reverse.1 hc)
    omega
  have opcode : code[j.position]? = some j.code := by
    rw [same _ fun b hb => (stands.alone b (List.mem_reverse.1 hb)).1, stands.code]
  refine ⟨target, byte, bound, length ▸ bound.le_offset, ?_, ?_, encodes⟩
  · rw [final, Array.getElem?_toList, same' _ (apart _ (.inl rfl)), opcode]
  · rw [final, Array.getElem?_toList, same' _ (apart _ (.inr rfl)), displacement]

/-! ## Bodies that cannot be assembled -/

/-- The targets of open jumps that their displacements do not reach. -/
def farOf (d : Draft) (bs : List (Nat × Label)) : List Nat :=
  bs.filterMap fun b => (d.bindings.lookup b.2).filter fun t => ¬ (b.1 + 1 ≤ t ∧ t ≤ b.1 + 128)

theorem farOf_near {b : Nat × Label} {bs : List (Nat × Label)} {t : Nat}
    (resolved : d.bindings.lookup b.2 = some t) (near : b.1 + 1 ≤ t ∧ t ≤ b.1 + 128) :
    farOf d (b :: bs) = farOf d bs := by
  apply List.filterMap_cons_none
  rw [resolved]
  exact if_neg (by simp [near])

theorem farOf_far {b : Nat × Label} {bs : List (Nat × Label)} {t : Nat}
    (resolved : d.bindings.lookup b.2 = some t) (far : ¬ (b.1 + 1 ≤ t ∧ t ≤ b.1 + 128)) :
    farOf d (b :: bs) = t :: farOf d bs := by
  apply List.filterMap_cons_some
  rw [resolved]
  exact if_pos (decide_eq_true far)

/-- A far target is put into the table if it has no entry yet, unless the table is full. -/
theorem displacement_far_cases {table : List Nat} {i target : Nat}
    (far : ¬ (i + 1 ≤ target ∧ target ≤ i + 128)) (nodup : table.Nodup)
    (few : table.length ≤ maxTargets) :
    (∃ byte table', displacement table i target = .ok (byte, table') ∧ table'.Nodup ∧
      table'.length ≤ maxTargets ∧ table'.toFinset = insert target table.toFinset) ∨
    displacement table i target = .error .tooManyTargets ∧
      maxTargets < (insert target table.toFinset).card := by
  rw [displacement_far far]
  rcases tableIndex_cases table target with ⟨k, inside, entry, eq⟩ | ⟨fresh, eq⟩
  · -- the target has an entry already
    have known : target ∈ table.toFinset := List.mem_toFinset.2 (List.mem_of_getElem? entry)
    rw [eq, if_pos (inside.trans_le few)]
    exact .inl ⟨_, _, rfl, nodup, few, (Finset.insert_eq_of_mem known).symm⟩
  · have longer : (table ++ [target]).Nodup := by
      rw [List.nodup_append_comm]
      simpa using ⟨fresh, nodup⟩
    have entries : (table ++ [target]).toFinset = insert target table.toFinset := by
      rw [List.toFinset_append, List.toFinset_cons, List.toFinset_nil, insert_empty_eq,
        Finset.union_comm, Finset.insert_eq]
    rw [eq]
    by_cases room : table.length < maxTargets
    · rw [if_pos room]
      exact .inl ⟨_, _, rfl, longer, by rwa [List.length_append], entries⟩
    · rw [if_neg room, ← entries, List.toFinset_card_of_nodup longer, List.length_append,
        List.length_singleton]
      exact .inr ⟨rfl, by omega⟩

/-- All jumps can be closed if every label is bound and the table has room for all targets that are
far. -/
theorem fillBranches_ok_iff {bs : List (Nat × Label)} (code : Array UInt8) {table : List Nat}
    (nodup : table.Nodup) (few : table.length ≤ maxTargets) :
    (∃ r, fillBranches d bs code table = .ok r) ↔
      (∀ b ∈ bs, ∃ t, d.bindings.lookup b.2 = some t) ∧
        (table.toFinset ∪ (farOf d bs).toFinset).card ≤ maxTargets := by
  induction bs generalizing code table with
  | nil =>
    have room : table.toFinset.card ≤ maxTargets := by rwa [List.toFinset_card_of_nodup nodup]
    simpa [fillBranches, farOf] using room
  | cons b bs ih =>
    rw [fillBranches, List.forall_mem_cons]
    cases resolved : d.bindings.lookup b.2 with
    | none =>
      have unbound : d.resolve b.2 = .error (.unboundLabel b.2) := by rw [Draft.resolve, resolved]
      rw [unbound]
      simp [bind, Except.bind]
    | some target =>
      have bound : ∃ t, some target = some t := ⟨target, rfl⟩
      rw [resolve_eq_ok.2 resolved]
      -- only a jump that a byte cannot span takes an entry of the jump table
      by_cases near : b.1 + 1 ≤ target ∧ target ≤ b.1 + 128
      · have step := ih (code.setIfInBounds b.1 (UInt8.ofNat (target - (b.1 + 1)))) nodup few
        rw [farOf_near resolved near]
        simpa [bind, Except.bind, displacement_near near] using step
      · rw [farOf_far resolved near, List.toFinset_cons, Finset.union_insert, ← Finset.insert_union]
        rcases displacement_far_cases near nodup few with
          ⟨byte, table', found, nodup', few', entries⟩ | ⟨full, many⟩
        · have step := ih (code.setIfInBounds b.1 byte) nodup' few'
          rw [← entries]
          simpa [bind, Except.bind, found] using step
        · have more : maxTargets < (insert target table.toFinset ∪ (farOf d bs).toFinset).card :=
            many.trans_le (Finset.card_le_card Finset.subset_union_left)
          simpa [bind, Except.bind, full] using fun _ => more

/-- Case jumps can be closed if every label is bound. -/
theorem fillCases_ok_iff {cs : List (Nat × Label)} {code : Array UInt8} :
    (∃ r, fillCases d cs code = .ok r) ↔ ∀ c ∈ cs, ∃ t, d.bindings.lookup c.2 = some t := by
  induction cs generalizing code with
  | nil => simp [fillCases]
  | cons c cs ih =>
    rw [fillCases, List.forall_mem_cons]
    cases resolved : d.bindings.lookup c.2 with
    | none =>
      have unbound : d.resolve c.2 = .error (.unboundLabel c.2) := by rw [Draft.resolve, resolved]
      rw [unbound]
      simp [bind, Except.bind]
    | some target =>
      rw [resolve_eq_ok.2 resolved]
      simpa [bind, Except.bind] using ih

/-- The targets that need an entry of the jump table. -/
def farTargets (order : ByteOrder) (directives : List Directive) : Finset Nat :=
  ((jumps order directives).filterMap fun j =>
    ((draft order directives).bindings.lookup j.label).filter fun t => ¬ j.Near t).toFinset

theorem branches_foldl (d : Draft) (directives : List Directive) :
    (directives.foldl Draft.apply d).branches =
      ((jumpsFrom d directives).map fun j => (j.position + 1, j.label)).reverse ++ d.branches := by
  induction directives generalizing d with
  | nil => rfl
  | cons x xs ih =>
    have single : (((x.jump? d).toList.map fun j => (j.position + 1, j.label)).reverse) =
        (x.jump? d).toList.map fun j => (j.position + 1, j.label) := by
      cases x.jump? d <;> rfl
    rw [List.foldl_cons, ih, (Draft.notes_apply d x).branches, jumpsFrom, List.map_append,
      List.reverse_append, single, List.append_assoc]

/-- The labels of open jumps and case words are those that the directives refer to. -/
theorem mem_labels_iff (d : Draft) (directives : List Directive) (label : Label) :
    (label ∈ ((directives.foldl Draft.apply d).branches.map Prod.snd) ∨
      label ∈ ((directives.foldl Draft.apply d).caseWords.map Prod.snd)) ↔
      label ∈ directives.flatMap Directive.labels ∨ label ∈ d.branches.map Prod.snd ∨
        label ∈ d.caseWords.map Prod.snd := by
  induction directives generalizing d with
  | nil => simp
  | cons x xs ih =>
    have notes := Draft.notes_apply d x
    rw [List.foldl_cons, ih, List.flatMap_cons, List.mem_append, notes.branches, notes.caseWords]
    generalize (label ∈ xs.flatMap Directive.labels) = later
    cases x with
    | branch code other =>
      simp only [Directive.jump?, Directive.labels, Option.toList_some, List.map_append, List.map_cons,
        List.map_nil, List.mem_append, List.mem_singleton]
      tauto
    | cases low high default targets =>
      simp only [Directive.jump?, Directive.labels, Option.toList_some, List.map_append, List.map_cons,
        List.map_nil, List.mem_append, List.mem_cons, List.mem_reverse]
      tauto
    | _ => simp [Directive.jump?, Directive.labels]

theorem farOf_draft (order : ByteOrder) (directives : List Directive) :
    (farOf (draft order directives) (draft order directives).branches.reverse).toFinset =
      farTargets order directives := by
  have branches : (draft order directives).branches.reverse =
      (jumps order directives).map fun j => (j.position + 1, j.label) := by
    rw [draft, branches_foldl, List.append_nil, List.reverse_reverse, jumps]
  rw [branches, farTargets, farOf, List.filterMap_map]
  rfl

theorem forall_labels_iff (order : ByteOrder) (directives : List Directive) (P : Label → Prop) :
    ((∀ b ∈ (draft order directives).branches.reverse, P b.2) ∧
      ∀ c ∈ (draft order directives).caseWords.reverse, P c.2) ↔
      ∀ label ∈ directives.flatMap Directive.labels, P label := by
  have labels (label : Label) := mem_labels_iff { order := order } directives label
  simp only [List.mem_map, List.map_nil, List.not_mem_nil, or_false] at labels
  constructor
  · rintro ⟨jumps, words⟩ label mem
    rcases (labels label).2 mem with ⟨b, hb, rfl⟩ | ⟨c, hc, rfl⟩
    · exact jumps b (List.mem_reverse.2 hb)
    · exact words c (List.mem_reverse.2 hc)
  · intro all
    exact ⟨fun b hb => all _ ((labels _).1 (.inl ⟨b, List.mem_reverse.1 hb, rfl⟩)),
      fun c hc => all _ ((labels _).1 (.inr ⟨c, List.mem_reverse.1 hc, rfl⟩))⟩

theorem assemble_ok_of_closed {order : ByteOrder} {directives : List Directive}
    {code closed : Array UInt8} {table : List Nat}
    (filled : fillBranches (draft order directives) (draft order directives).branches.reverse
      (draft order directives).code [] = .ok (code, table))
    (cased : fillCases (draft order directives) (draft order directives).caseWords.reverse code =
      .ok closed) : ∃ body, assemble order directives = .ok body :=
  ⟨_, except_bind_eq_ok.2 ⟨_, filled, except_bind_eq_ok.2 ⟨_, cased, rfl⟩⟩⟩

/-- A body can be assembled if every label that it refers to is bound and at most sixty targets need
the jump table. -/
theorem assemble_ok_iff (order : ByteOrder) (directives : List Directive) :
    (∃ body, assemble order directives = .ok body) ↔
      (∀ label ∈ directives.flatMap Directive.labels, .bind label ∈ directives) ∧
        (farTargets order directives).card ≤ maxTargets := by
  have bound (label : Label) : (∃ t, (draft order directives).bindings.lookup label = some t) ↔
      .bind label ∈ directives := by
    rw [← exists_bound_iff order]
    exact exists_congr fun t => lookup_draft ..
  have filled : (∃ r, fillBranches (draft order directives) (draft order directives).branches.reverse
      (draft order directives).code [] = .ok r) ↔ _ ∧ _ :=
    fillBranches_ok_iff _ List.nodup_nil (Nat.zero_le maxTargets)
  rw [List.toFinset_nil, Finset.empty_union, farOf_draft] at filled
  simp only [bound] at filled
  have cased (code : Array UInt8) : (∃ r, fillCases (draft order directives)
      (draft order directives).caseWords.reverse code = .ok r) ↔ _ := fillCases_ok_iff
  simp only [bound] at cased
  rw [← forall_labels_iff order directives (.bind · ∈ directives)]
  -- branches and case words are closed one after the other, and must both be bound
  constructor
  · rintro ⟨body, h⟩
    obtain ⟨code, closed, closes, closes', -⟩ := exists_of_assemble h
    have jumps := filled.1 ⟨_, closes⟩
    exact ⟨⟨jumps.1, (cased code).1 ⟨_, closes'⟩⟩, jumps.2⟩
  · rintro ⟨⟨jumps, words⟩, few⟩
    obtain ⟨⟨code, table⟩, closes⟩ := filled.2 ⟨jumps, few⟩
    obtain ⟨closed, closes'⟩ := (cased code).2 words
    exact assemble_ok_of_closed closes closes'

/-- A body cannot be assembled exactly when a label that it refers to is not bound, or more than
sixty different targets need the jump table. -/
theorem assemble_fails_iff (order : ByteOrder) (directives : List Directive) :
    (∃ e, assemble order directives = .error e) ↔
      (∃ label ∈ directives.flatMap Directive.labels, .bind label ∉ directives) ∨
        maxTargets < (farTargets order directives).card := by
  have fails : (∃ e, assemble order directives = .error e) ↔
      ¬ ∃ body, assemble order directives = .ok body := by
    cases assemble order directives <;> simp
  rw [fails, assemble_ok_iff, not_and_or, Nat.not_le]
  simp only [not_forall, exists_prop]

end Body
end PSystem
