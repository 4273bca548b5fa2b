import Mathlib.Data.List.TakeDrop

/-!
# Iterated hashing

A function `f` that takes a state and a block of `n` symbols to a state, and a buffer in which symbols wait until there are `n` of
them. `feed` lets symbols in one at a time; that they may come in pieces of any sizes is then a fact about `foldl` (`feed_append`), and
what an implementation that copies whole ranges does is `feed_short` and `feed_block`. `feed_blocks` is the other end: a text that
consists of blocks is taken block by block.
-/

namespace IteratedHash

variable {α σ : Type*} (n : Nat) (f : σ → List α → σ)

/-- A symbol goes to the end of the buffer, and a full buffer is a block. -/
def push (s : σ × List α) (x : α) : σ × List α :=
  if s.2.length + 1 = n then (f s.1 (s.2 ++ [x]), []) else (s.1, s.2 ++ [x])

/-- The symbols of a text, one after the other. -/
def feed (s : σ × List α) (xs : List α) : σ × List α := xs.foldl (push n f) s

/-- The blocks of `n` symbols at the front of a text; symbols left over are in none. -/
def blocks (xs : List α) : List (List α) := (List.range (xs.length / n)).map fun i => (xs.drop (i * n)).take n

variable {n f}

@[simp] theorem feed_nil (s : σ × List α) : feed n f s [] = s := rfl

theorem feed_append (s : σ × List α) (xs ys : List α) : feed n f s (xs ++ ys) = feed n f (feed n f s xs) ys :=
  List.foldl_append

/-- How many symbols wait in the buffer. -/
theorem length_feed {xs : List α} : ∀ {s : σ × List α}, s.2.length < n →
    (feed n f s xs).2.length = (s.2.length + xs.length) % n := by
  induction xs with
  | nil =>
    intro s hs
    rw [feed_nil, List.length_nil, Nat.add_zero, Nat.mod_eq_of_lt hs]
  | cons x xs ih =>
    intro s hs
    have hpush : (push n f s x).2.length = (s.2.length + 1) % n := by
      unfold push
      by_cases h : s.2.length + 1 = n
      · rw [if_pos h, h, Nat.mod_self, List.length_nil]
      · rw [if_neg h, Nat.mod_eq_of_lt (by omega), List.length_append, List.length_singleton]
    rw [feed, List.foldl_cons, ← feed, ih (by rw [hpush]; exact Nat.mod_lt _ (by omega)), hpush, Nat.mod_add_mod, List.length_cons]
    congr 1
    omega

/-- Symbols that do not fill the buffer wait in it. -/
theorem feed_short {a : σ} {xs : List α} : ∀ {buf : List α}, buf.length + xs.length < n →
    feed n f (a, buf) xs = (a, buf ++ xs) := by
  induction xs with
  | nil =>
    intro buf _
    rw [feed_nil, List.append_nil]
  | cons x xs ih =>
    intro buf h
    rw [List.length_cons] at h
    have hpush : push n f (a, buf) x = (a, buf ++ [x]) := if_neg (by dsimp only; omega)
    have hrest : feed n f (a, buf ++ [x]) xs = (a, buf ++ [x] ++ xs) :=
      ih (by rw [List.length_append, List.length_singleton]; omega)
    rw [feed, List.foldl_cons, hpush, ← feed, hrest, List.append_assoc, List.singleton_append]

/-- Symbols that fill the buffer leave it empty. -/
theorem feed_block {a : σ} {xs buf : List α} (hbuf : buf.length < n) (h : buf.length + xs.length = n) :
    feed n f (a, buf) xs = (f a (buf ++ xs), []) := by
  rcases List.eq_nil_or_concat xs with rfl | ⟨ys, x, rfl⟩
  · rw [List.length_nil] at h
    omega
  · rw [List.concat_eq_append, List.length_append, List.length_singleton] at h
    have hpush : push n f (a, buf ++ ys) x = (f a (buf ++ ys ++ [x]), []) :=
      if_pos (by dsimp only; rw [List.length_append]; omega)
    have hys : feed n f (a, buf) ys = (a, buf ++ ys) := feed_short (by omega)
    rw [List.concat_eq_append, feed_append, hys, feed, List.foldl_cons, List.foldl_nil, hpush, List.append_assoc]

/-- A text that consists of blocks. -/
theorem feed_blocks (hn : 0 < n) {bs : List (List α)} (hbs : ∀ b ∈ bs, b.length = n) (a : σ) :
    feed n f (a, []) bs.flatten = (bs.foldl f a, []) := by
  induction bs generalizing a with
  | nil => rfl
  | cons b bs ih =>
    obtain ⟨hb, hbs⟩ := List.forall_mem_cons.mp hbs
    have hblock : feed n f (a, []) b = (f a b, []) := feed_block hn (by rw [List.length_nil]; omega)
    rw [List.flatten_cons, feed_append, hblock, ih hbs, List.foldl_cons]

theorem length_flatten {bs : List (List α)} (hbs : ∀ b ∈ bs, b.length = n) : bs.flatten.length = bs.length * n := by
  induction bs with
  | nil => exact (Nat.zero_mul n).symm
  | cons b bs ih =>
    obtain ⟨hb, hbs⟩ := List.forall_mem_cons.mp hbs
    rw [List.flatten_cons, List.length_append, hb, ih hbs, List.length_cons, Nat.succ_mul, Nat.add_comm]

/-- The blocks of a text that consists of blocks. -/
theorem blocks_flatten (hn : 0 < n) {bs : List (List α)} (hbs : ∀ b ∈ bs, b.length = n) : blocks n bs.flatten = bs := by
  induction bs with
  | nil => simp [blocks]
  | cons b bs ih =>
    obtain ⟨hb, hbs⟩ := List.forall_mem_cons.mp hbs
    have hcount : (b ++ bs.flatten).length / n = bs.flatten.length / n + 1 := by
      rw [List.length_append, hb, Nat.add_comm, Nat.add_div_right _ hn]
    have hfirst : (b ++ bs.flatten).take n = b := by rw [← hb, List.take_left]
    have hrest : ∀ i, ((b ++ bs.flatten).drop ((i + 1) * n)).take n = (bs.flatten.drop (i * n)).take n := by
      intro i
      rw [Nat.succ_mul, Nat.add_comm, ← List.drop_drop, ← hb, List.drop_left]
    have htail := ih hbs
    unfold blocks at htail ⊢
    rw [List.flatten_cons, hcount, List.range_succ_eq_map, List.map_cons, Nat.zero_mul, List.drop_zero, hfirst, List.map_map]
    refine congrArg (b :: ·) (Eq.trans (List.map_congr_left fun i _ => ?_) htail)
    exact hrest i

/-- A text is blocks and fewer symbols than a block has. -/
theorem exists_blocks (hn : 0 < n) (xs : List α) :
    ∃ (bs : List (List α)) (rest : List α), xs = bs.flatten ++ rest ∧ (∀ b ∈ bs, b.length = n) ∧ rest.length < n := by
  induction h : xs.length using Nat.strongRecOn generalizing xs with
  | ind k ih =>
    by_cases hlt : xs.length < n
    · exact ⟨[], xs, rfl, fun b hb => absurd hb List.not_mem_nil, hlt⟩
    · obtain ⟨bs, rest, heq, hbs, hrest⟩ := ih (xs.drop n).length (by rw [List.length_drop]; omega) _ rfl
      refine ⟨xs.take n :: bs, rest, ?_, List.forall_mem_cons.mpr ⟨?_, hbs⟩, hrest⟩
      · rw [List.flatten_cons, List.append_assoc, ← heq, List.take_append_drop]
      · rw [List.length_take]
        omega

/-- A text whose length is a number of blocks is taken block by block, and nothing is left. -/
theorem feed_eq_blocks (hn : 0 < n) {xs : List α} (h : n ∣ xs.length) (a : σ) :
    feed n f (a, []) xs = ((blocks n xs).foldl f a, []) := by
  obtain ⟨bs, rest, rfl, hbs, hrest⟩ := exists_blocks hn xs
  have hflat : n ∣ bs.flatten.length := by
    rw [length_flatten hbs]
    exact Nat.dvd_mul_left n bs.length
  have hnil : rest = [] := by
    rw [List.length_append, Nat.dvd_add_right hflat] at h
    exact List.eq_nil_of_length_eq_zero (Nat.eq_zero_of_dvd_of_lt h hrest)
  rw [hnil, List.append_nil, feed_blocks hn hbs, blocks_flatten hn hbs]

end IteratedHash
