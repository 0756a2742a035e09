import Mathlib.Data.List.Infix
import PSystem.ByteString
import PSystem.Proofs.Memory

/-!
# Fields of byte strings

A field stands in a byte string at a position if its bytes are a prefix of what is left there,
`field <+: data.drop i`.  A field that is put stands in its place, and every field apart from it stays.
-/

namespace PSystem
namespace Bytes

variable {data data' field other xs ys : Bytes} {i j k n : Nat}

/-! ## Fields that stand -/

theorem stands_append (h : xs ++ ys <+: data.drop i) :
    xs <+: data.drop i ∧ ys <+: data.drop (i + xs.length) := by
  refine ⟨(List.prefix_append xs ys).trans h, ?_⟩
  obtain ⟨rest, eq⟩ := h
  rw [← List.drop_drop, ← eq, List.append_assoc, List.drop_left]
  exact List.prefix_append ys rest

/-- Fields stand together if one stands behind the other. -/
theorem append_stands (first : xs <+: data.drop i) (second : ys <+: data.drop (i + xs.length)) :
    xs ++ ys <+: data.drop i := by
  obtain ⟨rest, behind⟩ := first
  rw [← List.drop_drop, ← behind, List.drop_left] at second
  rw [← behind]
  exact (List.prefix_append_right_inj xs).2 second

/-- A field of a field. -/
theorem stands_trans (h : xs <+: data.drop i) (h' : ys <+: xs.drop j) : ys <+: data.drop (i + j) := by
  rw [← List.drop_drop]
  exact h'.trans (h.drop j)

theorem getElem?_of_stands (h : field <+: data.drop i) (hk : k < field.length) :
    data[i + k]? = some field[k] := by
  rw [← List.getElem?_drop]
  exact List.prefix_iff_getElem?.1 h k hk

theorem stands_iff : field <+: data.drop i ↔ ∀ k (h : k < field.length), data[i + k]? = some field[k] := by
  rw [List.prefix_iff_getElem?]
  simp only [List.getElem?_drop]

theorem take_of_stands (h : field <+: data.drop i) (length : field.length = n) :
    (data.drop i).take n = field := by
  rw [← length]
  exact (List.prefix_iff_eq_take.1 h).symm

theorem le_of_stands (h : field <+: data.drop i) (positive : 0 < field.length) :
    i + field.length ≤ data.length := by
  have := h.length_le
  rw [List.length_drop] at this
  omega

theorem length_zeros (n : Nat) : (zeros n).length = n :=
  List.length_replicate

theorem stands_zeros (h : i + n ≤ k) : zeros n <+: (zeros k).drop i := by
  refine ⟨zeros (k - i - n), ?_⟩
  rw [zeros, zeros, zeros, List.drop_replicate, List.replicate_append_replicate]
  congr 1
  omega

/-! ## Reading fields -/

theorem at0_of_stands {b : UInt8} (h : [b] <+: data.drop i) : at0 data i = b := by
  have read := getElem?_of_stands h (k := 0) Nat.one_pos
  rw [at0, List.getD_eq_getElem?_getD, ← Nat.add_zero i, read]
  rfl

theorem wordAt_of_stands {order : ByteOrder} {w : Word} (h : order.bytes w <+: data.drop i) :
    wordAt order data i = w := by
  have both : [(order.split w).1] ++ [(order.split w).2] <+: data.drop i := h
  obtain ⟨first, second⟩ := stands_append both
  have high : at0 data (i + 1) = (order.split w).2 := at0_of_stands second
  rw [wordAt, at0_of_stands first, high]
  exact ByteOrder.join_split order w

theorem at0_eq_getElem (inside : i < data.length) : at0 data i = data[i] := by
  rw [at0, List.getD_eq_getElem?_getD, List.getElem?_eq_getElem inside, Option.getD_some]

/-- A word stands where it is read. -/
theorem stands_wordAt (order : ByteOrder) (inside : i + 2 ≤ data.length) :
    order.bytes (wordAt order data i) <+: data.drop i := by
  have first : i < data.length := by omega
  have second : i + 1 < data.length := by omega
  rw [ByteOrder.bytes, wordAt, ByteOrder.split_join, at0_eq_getElem first, at0_eq_getElem second,
    List.drop_eq_getElem_cons first, List.drop_eq_getElem_cons second]
  exact List.prefix_append [_, _] _

/-! ## Putting fields -/

theorem put_eq_some (h : put? data i field = some data') :
    i + field.length ≤ data.length ∧ data' = data.take i ++ field ++ data.drop (i + field.length) := by
  unfold put? at h
  split at h
  · rename_i fits
    exact ⟨fits, (Option.some.inj h).symm⟩
  · cases h

theorem length_put (h : put? data i field = some data') : data'.length = data.length := by
  obtain ⟨fits, rfl⟩ := put_eq_some h
  rw [List.length_append, List.length_append, List.length_take, List.length_drop]
  omega

/-- A field that was put stands in its place. -/
theorem put_stands (h : put? data i field = some data') : field <+: data'.drop i := by
  obtain ⟨fits, rfl⟩ := put_eq_some h
  have length : (data.take i).length = i := by
    rw [List.length_take]
    omega
  rw [List.append_assoc, List.drop_left' length]
  exact List.prefix_append ..

theorem getElem?_put (h : put? data i field = some data') (apart : k < i ∨ i + field.length ≤ k) :
    data'[k]? = data[k]? := by
  obtain ⟨fits, rfl⟩ := put_eq_some h
  have length : (data.take i).length = i := by
    rw [List.length_take]
    omega
  rcases apart with before | behind
  · rw [List.append_assoc, List.getElem?_append_left (by omega), List.getElem?_take_of_lt before]
  · rw [List.getElem?_append_right (by rw [List.length_append]; omega), List.length_append, length,
      List.getElem?_drop]
    congr 1
    omega

theorem exists_put (fits : i + field.length ≤ data.length) : ∃ data', put? data i field = some data' :=
  ⟨_, if_pos fits⟩

theorem put_nil (inside : i ≤ data.length) : put? data i [] = some data := by
  rw [put?, if_pos (by rw [List.length_nil]; exact inside), List.append_nil, List.length_nil, Nat.add_zero,
    List.take_append_drop]

/-- Two fields put one behind the other are put together. -/
theorem put_append {data'' field' : Bytes} (first : put? data i field = some data')
    (second : put? data' (i + field.length) field' = some data'') :
    put? data i (field ++ field') = some data'' := by
  have length := length_put first
  obtain ⟨-, rfl⟩ := put_eq_some first
  obtain ⟨fits, rfl⟩ := put_eq_some second
  have start : (data.take i ++ field).length = i + field.length := by
    rw [List.length_append, List.length_take]
    omega
  have behind : (data.take i ++ field ++ data.drop (i + field.length)).drop (i + field.length + field'.length) =
      data.drop (i + (field ++ field').length) := by
    rw [← List.drop_drop, List.drop_left' start, List.drop_drop, List.length_append, Nat.add_assoc]
  rw [put?, if_pos (by rw [List.length_append]; omega), List.take_left' start, behind]
  simp only [List.append_assoc]

/-- Fields elsewhere stay. -/
theorem put_keeps (h : put? data i field = some data') (stands : other <+: data.drop j)
    (apart : j + other.length ≤ i ∨ i + field.length ≤ j) : other <+: data'.drop j := by
  rw [stands_iff]
  intro k hk
  rw [getElem?_put h (by omega)]
  exact getElem?_of_stands stands hk

end Bytes
end PSystem
