import Mathlib.Data.List.TakeDrop

/-!
# Slices of a list

`slice xs s e` is what a pointer pair `(xs + s, xs + e)` denotes: the items of `xs` from position `s` up to, but not
including, position `e`. Positions past the end denote nothing, so the function is total. The lemmas say how a slice
grows by one item, how two adjacent slices join, and how a write into the list is seen through a slice of it.
-/

namespace Slices

variable {α : Type*}

/-- The items of `xs` at the positions `s ≤ k < e`. -/
def slice (xs : List α) (s e : Nat) : List α := (xs.drop s).take (e - s)

/-- Write `ys` over the items of `xs` from position `s` on. -/
def overwrite (xs : List α) (s : Nat) (ys : List α) : List α := xs.take s ++ ys ++ xs.drop (s + ys.length)

/-- A slice that ends where it begins is empty. -/
@[simp] theorem slice_self (xs : List α) (s : Nat) : slice xs s s = [] := by
  simp [slice]

/-- The slice from end to end is the list. -/
@[simp] theorem slice_zero_length (xs : List α) : slice xs 0 xs.length = xs := by
  simp [slice]

/-- A slice from the beginning is a prefix. -/
theorem slice_zero (xs : List α) (e : Nat) : slice xs 0 e = xs.take e := by
  simp [slice]

/-- A slice to the end is a suffix. -/
theorem slice_of_length_le {xs : List α} {e : Nat} (s : Nat) (h : xs.length ≤ e) : slice xs s e = xs.drop s := by
  rw [slice, List.take_of_length_le]
  rw [List.length_drop]
  omega

/-- The length of a slice. -/
theorem length_slice {xs : List α} {s e : Nat} (h : e ≤ xs.length) : (slice xs s e).length = e - s := by
  rw [slice, List.length_take, List.length_drop]
  omega

/-- Two adjacent slices join. -/
theorem slice_append (xs : List α) {s m e : Nat} (h1 : s ≤ m) (h2 : m ≤ e) :
    slice xs s m ++ slice xs m e = slice xs s e := by
  have hd : xs.drop m = (xs.drop s).drop (m - s) := by
    rw [List.drop_drop, show s + (m - s) = m by omega]
  have he : e - s = (m - s) + (e - m) := by omega
  rw [slice, slice, slice, hd, he, List.take_add]

/-- A slice of one item. -/
theorem slice_one {xs : List α} {i : Nat} {c : α} (h : xs[i]? = some c) : slice xs i (i + 1) = [c] := by
  obtain ⟨hi, hc⟩ := List.getElem?_eq_some_iff.mp h
  rw [slice, List.drop_eq_getElem_cons hi, hc, show i + 1 - i = 1 by omega]
  rfl

/-- A slice grows by the item at its end. -/
theorem slice_succ {xs : List α} {s i : Nat} {c : α} (hs : s ≤ i) (h : xs[i]? = some c) :
    slice xs s (i + 1) = slice xs s i ++ [c] := by
  rw [← slice_append xs hs (Nat.le_succ i), slice_one h]

/-- A slice and what follows it. -/
theorem slice_append_drop (xs : List α) {s e : Nat} (h : s ≤ e) : slice xs s e ++ xs.drop e = xs.drop s := by
  have hd : xs.drop e = (xs.drop s).drop (e - s) := by
    rw [List.drop_drop, show s + (e - s) = e by omega]
  rw [slice, hd, List.take_append_drop]

/-- A slice stands where it was cut out. -/
theorem slice_isPrefix_drop (xs : List α) (s e : Nat) : slice xs s e <+: xs.drop s := List.take_prefix _ _

/-- A slice does not look past its end. -/
theorem slice_take (xs : List α) {s e n : Nat} (h : e ≤ n) : slice (xs.take n) s e = slice xs s e := by
  rw [slice, slice, List.drop_take, List.take_take, Nat.min_eq_left (by omega)]

/-- The end of a slice is a slice. -/
theorem eq_slice_of_append {xs u v : List α} {s e : Nat} (hs : s ≤ e) (he : e ≤ xs.length) (h : u ++ v = slice xs s e) :
    v = slice xs (e - v.length) e := by
  have hlen : u.length + v.length = e - s := by
    rw [← List.length_append, h, length_slice he]
  have hjoin := slice_append xs (show s ≤ e - v.length by omega) (show e - v.length ≤ e by omega)
  rw [← h] at hjoin
  have hl : (slice xs s (e - v.length)).length = u.length := by
    rw [length_slice (by omega)]
    omega
  exact (List.append_inj hjoin hl).2.symm

/-- What is overwritten keeps its length. -/
theorem length_overwrite {xs ys : List α} {s : Nat} (h : s + ys.length ≤ xs.length) :
    (overwrite xs s ys).length = xs.length := by
  simp only [overwrite, List.length_append, List.length_take, List.length_drop]
  omega

/-- What was written after the first `s` items follows them. -/
theorem take_overwrite {xs ys : List α} {s : Nat} (h : s ≤ xs.length) :
    (overwrite xs s ys).take (s + ys.length) = xs.take s ++ ys := by
  have hl : (xs.take s ++ ys).length = s + ys.length := by
    rw [List.length_append, List.length_take, Nat.min_eq_left h]
  rw [overwrite, ← hl, List.take_left]

/-- A write leaves what is behind it. -/
theorem drop_overwrite {xs ys : List α} {s i : Nat} (h : s + ys.length ≤ i) (hi : i ≤ xs.length) :
    (overwrite xs s ys).drop i = xs.drop i := by
  have hl : (xs.take s ++ ys).length = s + ys.length := by
    rw [List.length_append, List.length_take, Nat.min_eq_left (by omega)]
  rw [overwrite, List.drop_append, List.drop_eq_nil_of_le (by omega), List.nil_append, List.drop_drop, hl]
  congr 1
  omega

end Slices
