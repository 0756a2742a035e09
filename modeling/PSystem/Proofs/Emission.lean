import PSystem.Proofs.Assembly

/-!
# What stands in assembled code

`Draft.Writes` says which bytes were appended to a draft.  A byte that no open jump covers is final
(`Draft.Final`): it stays as it is while the draft grows and when its jumps are closed, so what was
written is found in the body (`Body.prefix_of_writes`).  A case word that is open under its label
(`Draft.Awaits`) is closed with the distance back to the offset of the label
(`Body.caseWord_of_awaits`).
-/

namespace PSystem

/-- The zero byte before an odd offset, where a word is to follow. -/
def padding (offset : Nat) : Bytes :=
  if offset % 2 = 1 then [0] else []

theorem length_padding (offset : Nat) : (padding offset).length = offset % 2 := by
  unfold padding
  split
  · rename_i odd
    exact odd.symm
  · rename_i even
    exact (Nat.mod_two_ne_one.1 even).symm

theorem padding_of_even {offset : Nat} (even : offset % 2 = 0) : padding offset = [] := by
  rw [padding, if_neg (by omega)]

/-- The bytes of an operand of one or two bytes. -/
def bigBytes (w : Word) : Bytes :=
  if w < 0x80 then [w.toUInt8] else [(0x80 : UInt8) ||| (w >>> 8).toUInt8, w.toUInt8]

namespace Draft

variable {d d' d'' : Draft} {bytes xs ys : Bytes} {i k : Nat} {b : UInt8} {label : Label}

/-! ## Bytes that are appended -/

/-- The bytes were appended, and nothing else was noted. -/
structure Writes (bytes : Bytes) (d d' : Draft) : Prop extends Appends d d' where
  appended : d'.code.toList = d.code.toList ++ bytes
  order : d'.order = d.order

theorem Writes.offset (h : Writes bytes d d') : d'.offset = d.offset + bytes.length := by
  have length := congrArg List.length h.appended
  rwa [List.length_append, Array.length_toList, Array.length_toList] at length

theorem Writes.trans (h : Writes xs d d') (h' : Writes ys d' d'') : Writes (xs ++ ys) d d'' where
  toAppends := h.toAppends.trans h'.toAppends
  appended := by rw [h'.appended, h.appended, List.append_assoc]
  order := h'.order.trans h.order

theorem writes_nothing (d : Draft) : Writes [] d d where
  toAppends := Appends.refl d
  appended := (List.append_nil _).symm
  order := rfl

theorem writes_push (d : Draft) (b : UInt8) : Writes [b] d (d.push b) where
  toAppends := appends_push d b
  appended := by simp [push]
  order := rfl

theorem writes_op (d : Draft) (code : UInt8) : Writes [code] d (d.op code) where
  toAppends := appends_op d code
  appended := by simp [op, push]
  order := rfl

theorem writes_align (d : Draft) : Writes (padding d.offset) d d.align := by
  unfold align padding
  split
  · exact writes_push d 0
  · exact writes_nothing d

theorem writes_word (d : Draft) (w : Word) :
    Writes (padding d.offset ++ d.order.bytes w) d (d.word w) :=
  (writes_align d).trans
    ((writes_push d.align (d.order.split w).1).trans (writes_push _ (d.order.split w).2))

/-- Words that follow each other need padding before the first only. -/
theorem writes_words (d : Draft) (w : Word) (ws : List Word) :
    Writes (padding d.offset ++ (w :: ws).flatMap d.order.bytes) d
      (((w :: ws).map Directive.word).foldl apply d) := by
  induction ws generalizing d w with
  | nil =>
    rw [List.flatMap_singleton]
    exact writes_word d w
  | cons w' ws ih =>
    have first := writes_word d w
    have rest := ih (d.word w) w'
    have even : (d.word w).offset % 2 = 0 := by
      rw [first.offset, List.length_append, length_padding]
      simp only [ByteOrder.bytes, List.length_cons, List.length_nil]
      omega
    rw [padding_of_even even, first.order, List.nil_append] at rest
    have all := first.trans rest
    rw [List.append_assoc] at all
    exact all

theorem writes_big (d : Draft) (w : Word) : Writes (bigBytes w) d (d.apply (.big w)) := by
  rw [apply, bigBytes]
  split
  · exact writes_push d _
  · exact (writes_push d _).trans (writes_push _ _)

theorem writes_bytes (d : Draft) (bytes : Bytes) : Writes bytes d (bytes.foldl push d) := by
  induction bytes generalizing d with
  | nil => exact writes_nothing d
  | cons b bytes ih => exact (writes_push d b).trans (ih (d.push b))

theorem writes_text (d : Draft) (cs : Bytes) :
    Writes (UInt8.ofNat cs.length :: cs) d (d.apply (.text cs)) :=
  (writes_push d _).trans (writes_bytes _ cs)

/-- The opcode of a case jump and its bounds, of which only the first may need padding. -/
theorem writes_bounds (d : Draft) (low high : Int) :
    Writes (Opcode.xjp.code :: (padding (d.offset + 1) ++
      (d.order.bytes (Word.ofSigned low) ++ d.order.bytes (Word.ofSigned high)))) d
      (d.bounds low high) := by
  have opcode := writes_op d Opcode.xjp.code
  have first := writes_word (d.op Opcode.xjp.code) (Word.ofSigned low)
  have second := writes_word ((d.op Opcode.xjp.code).word (Word.ofSigned low)) (Word.ofSigned high)
  have padded := length_padding (d.offset + 1)
  have even : ((d.op Opcode.xjp.code).word (Word.ofSigned low)).offset % 2 = 0 := by
    rw [first.offset, opcode.offset, List.length_append, length_padding]
    simp only [List.length_cons, List.length_nil, ByteOrder.bytes]
    omega
  rw [padding_of_even even, List.nil_append, first.order] at second
  have whole := opcode.trans (first.trans second)
  rw [opcode.offset, opcode.order, List.append_assoc] at whole
  exact whole

/-! ## Bytes that stay -/

/-- The byte at `i` is `b`, and no jump that is open will change it. -/
structure Final (d : Draft) (i : Nat) (b : UInt8) : Prop where
  byte : d.code[i]? = some b
  branches : ∀ x ∈ d.branches, x.1 ≠ i
  caseWords : ∀ c ∈ d.caseWords, c.1 + 2 ≤ i ∨ i < c.1

theorem lt_offset_of_getElem? (h : d.code[i]? = some b) : i < d.offset := by
  obtain ⟨bound, -⟩ := Array.getElem?_eq_some_iff.1 h
  exact bound

theorem Final.grows (h : Final d i b) (grows : Grows d d') : Final d' i b := by
  have inside := lt_offset_of_getElem? h.byte
  obtain ⟨new, eq, behind⟩ := grows.branches
  obtain ⟨words, wordsEq, wordsBehind⟩ := grows.caseWords
  refine ⟨grows.getElem? h.byte, ?_, ?_⟩
  · intro x hx
    rw [eq] at hx
    rcases List.mem_append.1 hx with later | earlier
    · have := behind x later
      omega
    · exact h.branches x earlier
  · intro c hc
    rw [wordsEq] at hc
    rcases List.mem_append.1 hc with later | earlier
    · have := wordsBehind c later
      omega
    · exact h.caseWords c earlier

/-- What is appended to a draft is final: everything that is open lies before it. -/
theorem Writes.final (h : Writes bytes d d') (inside : Inside d) (hb : bytes[k]? = some b) :
    Final d' (d.offset + k) b where
  byte := by
    have place : d.code.toList.length = d.offset := Array.length_toList
    rw [← Array.getElem?_toList, h.appended, List.getElem?_append_right (by omega), place,
      Nat.add_sub_cancel_left, hb]
  branches := by
    intro x hx
    rw [h.branches] at hx
    have := inside.branches x hx
    omega
  caseWords := by
    intro c hc
    rw [h.caseWords] at hc
    have := inside.caseWords c hc
    omega

/-! ## Case words -/

/-- The case word at `i` is open under its label, apart from all others. -/
structure Awaits (d : Draft) (i : Nat) (label : Label) : Prop where
  mem : (i, label) ∈ d.caseWords
  inside : i + 2 ≤ d.offset
  apart : ∀ c ∈ d.caseWords, c = (i, label) ∨ c.1 + 2 ≤ i ∨ i + 2 ≤ c.1

theorem Awaits.grows (h : Awaits d i label) (grows : Grows d d') : Awaits d' i label := by
  have inside := h.inside
  obtain ⟨words, wordsEq, wordsBehind⟩ := grows.caseWords
  refine ⟨?_, inside.trans grows.offset_le, ?_⟩
  · rw [wordsEq]
    exact List.mem_append_right words h.mem
  · intro c hc
    rw [wordsEq] at hc
    rcases List.mem_append.1 hc with later | earlier
    · have := wordsBehind c later
      exact .inr (.inr (by omega))
    · exact h.apart c earlier

theorem offset_branch (d : Draft) (code : UInt8) (label : Label) :
    (d.branch code label).offset = d.offset + 2 := by
  simp [branch, op, push, offset]

theorem offset_caseWord (d : Draft) (label : Label) :
    (d.caseWord label).offset = d.offset + 2 := by
  simp [caseWord, push, offset]

theorem awaits_caseWord (inside : Inside d) (label : Label) :
    Awaits (d.caseWord label) d.offset label where
  mem := List.mem_cons_self
  inside := (offset_caseWord d label).ge
  apart := by
    intro c hc
    rcases List.mem_cons.1 hc with here | earlier
    · exact .inl here
    · exact .inr (.inl (inside.caseWords c earlier))

theorem offset_foldl_caseWord (d : Draft) (targets : List Label) :
    (targets.foldl caseWord d).offset = d.offset + 2 * targets.length := by
  induction targets generalizing d with
  | nil => rfl
  | cons target targets ih =>
    rw [List.foldl_cons, ih, offset_caseWord, List.length_cons]
    omega

/-- The words of a case jump lie side by side, each under its label. -/
theorem awaits_foldl_caseWord {targets : List Label} (inside : Inside d)
    (h : targets[k]? = some label) :
    Awaits (targets.foldl caseWord d) (d.offset + 2 * k) label := by
  induction targets generalizing d k with
  | nil => simp at h
  | cons target targets ih =>
    rw [List.foldl_cons]
    cases k with
    | zero =>
      obtain rfl : target = label := by simpa using h
      exact (awaits_caseWord inside target).grows (foldl_related grows_caseWord _ targets)
    | succ k =>
      have later := ih (inside.grows (grows_caseWord d target)) (k := k) (by simpa using h)
      rw [offset_caseWord] at later
      have place : d.offset + 2 * (k + 1) = d.offset + 2 + 2 * k := by omega
      rwa [place]

end Draft

/-! ## Drafts of procedures -/

theorem draft_append_cons (order : ByteOrder) (before : List Directive) (x : Directive)
    (after : List Directive) : draft order (before ++ x :: after) =
      after.foldl Draft.apply ((draft order before).apply x) := by
  rw [draft, List.foldl_append]
  rfl

theorem inside_draft (order : ByteOrder) (directives : List Directive) :
    (draft order directives).Inside :=
  Draft.Inside.grows ⟨by simp, by simp⟩ (Draft.foldl_related Draft.grows_apply _ directives)

theorem Draft.order_branch (d : Draft) (code : UInt8) (label : Label) :
    (d.branch code label).order = d.order := rfl

theorem Draft.order_apply (d : Draft) (x : Directive) : (d.apply x).order = d.order := by
  have caseWords (targets : List Label) (d : Draft) :
      (targets.foldl caseWord d).order = d.order := by
    induction targets generalizing d with
    | nil => rfl
    | cons target targets ih => exact ih (d.caseWord target)
  cases x with
  | big w => exact (writes_big d w).order
  | word w => exact (writes_word d w).order
  | align => exact (writes_align d).order
  | text cs => exact (writes_text d cs).order
  | cases low high default targets =>
    rw [apply_cases, caseWords, order_branch, (writes_bounds d low high).order]
  | _ => rfl

theorem order_draft (order : ByteOrder) (directives : List Directive) :
    (draft order directives).order = order := by
  induction directives using List.reverseRecOn with
  | nil => rfl
  | append_singleton xs x ih => rw [draft_append, Draft.order_apply, ih]

/-! ## Bodies -/

namespace Body

variable {order : ByteOrder} {directives : List Directive} {body : Body} {d d' : Draft} {i : Nat}
  {b : UInt8} {label : Label}

/-- Closing jumps does not change the length. -/
theorem length_code (assembled : assemble order directives = .ok body) :
    body.code.length = (draft order directives).offset := by
  obtain ⟨code, closed, filled, cased, final⟩ := exists_of_assemble assembled
  obtain ⟨-, size, -⟩ := fillBranches_keeps filled
  obtain ⟨size', -⟩ := fillCases_keeps cased
  rw [final, Array.length_toList, size', size, Draft.offset]

theorem getElem?_of_final (assembled : assemble order directives = .ok body)
    (h : (draft order directives).Final i b) : body.code[i]? = some b := by
  obtain ⟨code, closed, filled, cased, final⟩ := exists_of_assemble assembled
  obtain ⟨-, -, same⟩ := fillBranches_keeps filled
  obtain ⟨-, same'⟩ := fillCases_keeps cased
  rw [final, Array.getElem?_toList, same' i fun c hc => h.caseWords c (List.mem_reverse.1 hc),
    same i fun x hx => h.branches x (List.mem_reverse.1 hx), h.byte]

/-- What was appended to a draft on the way stands in the body. -/
theorem prefix_of_writes (assembled : assemble order directives = .ok body) {bytes : Bytes}
    (inside : d.Inside) (writes : d.Writes bytes d')
    (grows : d'.Grows (draft order directives)) : bytes <+: body.code.drop d.offset := by
  rw [List.prefix_iff_getElem?]
  intro k hk
  rw [List.getElem?_drop]
  exact getElem?_of_final assembled
    ((writes.final inside (List.getElem?_eq_getElem hk)).grows grows)

/-- A case word is closed with the distance back to its target. -/
theorem caseWord_of_fillCases {cs : List (Nat × Label)} {code code' : Array UInt8}
    (h : fillCases d cs code = .ok code') (mem : (i, label) ∈ cs)
    (apart : ∀ c ∈ cs, c = (i, label) ∨ c.1 + 2 ≤ i ∨ i + 2 ≤ c.1) (inside : i + 2 ≤ code.size) :
    ∃ target : Nat, d.bindings.lookup label = some target ∧
      code'[i]? = some (d.order.split (Word.ofSigned ((i : Int) - target))).1 ∧
      code'[i + 1]? = some (d.order.split (Word.ofSigned ((i : Int) - target))).2 := by
  induction cs generalizing code with
  | nil => cases mem
  | cons c cs ih =>
    obtain ⟨target, resolved, h⟩ := except_bind_eq_ok.1 h
    by_cases later : (i, label) ∈ cs
    · exact ih h later (fun c' hc' => apart c' (List.mem_cons_of_mem c hc')) (by simpa using inside)
    · obtain rfl : c = (i, label) := by
        rcases List.mem_cons.1 mem with eq | mem
        · exact eq.symm
        · exact absurd mem later
      -- the words that follow are others, so what is written here stays
      have away (j : Nat) (hj : i ≤ j ∧ j < i + 2) (c' : Nat × Label) (hc' : c' ∈ cs) :
          c'.1 + 2 ≤ j ∨ j < c'.1 := by
        rcases apart c' (List.mem_cons_of_mem _ hc') with rfl | before | behind
        · exact absurd hc' later
        · exact .inl (by omega)
        · exact .inr (by omega)
      change fillCases d cs ((code.setIfInBounds i
        (d.order.split (Word.ofSigned ((i : Int) - target))).1).setIfInBounds (i + 1)
        (d.order.split (Word.ofSigned ((i : Int) - target))).2) = .ok code' at h
      obtain ⟨-, same⟩ := fillCases_keeps h
      refine ⟨target, resolve_eq_ok.1 resolved, ?_, ?_⟩
      · rw [same i (away i ⟨by omega, by omega⟩), Array.getElem?_setIfInBounds_ne (by omega),
          Array.getElem?_setIfInBounds_self_of_lt (by omega)]
      · rw [same (i + 1) (away (i + 1) ⟨by omega, by omega⟩),
          Array.getElem?_setIfInBounds_self_of_lt (by simp; omega)]

/-- An open case word is found in the body with the distance back to the offset of its label. -/
theorem caseWord_of_awaits (assembled : assemble order directives = .ok body)
    (h : (draft order directives).Awaits i label) :
    ∃ target : Nat, Bound order directives label target ∧ target ≤ body.code.length ∧
      order.bytes (Word.ofSigned ((i : Int) - target)) <+: body.code.drop i := by
  obtain ⟨code, closed, filled, cased, final⟩ := exists_of_assemble assembled
  obtain ⟨-, size, -⟩ := fillBranches_keeps filled
  obtain ⟨target, resolved, first, second⟩ := caseWord_of_fillCases cased
    (List.mem_reverse.2 h.mem) (fun c hc => h.apart c (List.mem_reverse.1 hc)) (size ▸ h.inside)
  have bound : Bound order directives label target := (lookup_draft ..).1 resolved
  refine ⟨target, bound, length_code assembled ▸ bound.le_offset, ?_⟩
  rw [order_draft] at first second
  rw [List.prefix_iff_getElem?]
  intro k hk
  rw [List.getElem?_drop, final, Array.getElem?_toList]
  have two : k < 2 := hk
  obtain rfl | rfl : k = 0 ∨ k = 1 := by omega
  · exact first
  · exact second

end Body
end PSystem
