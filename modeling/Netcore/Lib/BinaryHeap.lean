import Mathlib.Logic.Equiv.Basic
import Mathlib.Order.Lattice

/-!
# Binary heaps

A heap of `n` keys in an array, where the children of the position `i` are `2 * i + 1` and `2 * i + 2`. A sift moves one key that
may be out of order: `UpTo` says that it may be too small for where it stands, `DownFrom` that it may be too large, and `Hole`
that it may be either. Each exchange on the way moves the position at fault, and when the sift stops the heap is ordered.
-/

namespace BinaryHeap

variable {κ : Type*} [LinearOrder κ] {f : Nat → κ} {n i j : Nat}

def parent (i : Nat) : Nat := (i - 1) / 2

theorem parent_lt (h : 0 < i) : parent i < i := by
  unfold parent
  omega

/-- The parent is the smaller one, at every position. -/
def Ordered (f : Nat → κ) (n : Nat) : Prop := ∀ c, 0 < c → c < n → f (parent c) ≤ f c

/-- The heap is ordered away from `i`, and around it as if `i` were not there. -/
structure Hole (f : Nat → κ) (n i : Nat) : Prop where
  apart : ∀ c, 0 < c → c < n → c ≠ i → parent c ≠ i → f (parent c) ≤ f c
  across : 0 < i → ∀ c, 0 < c → c < n → parent c = i → f (parent i) ≤ f c

/-- The heap is ordered, but the key at `i` may be too small for its parent. -/
structure UpTo (f : Nat → κ) (n i : Nat) : Prop extends Hole f n i where
  below : ∀ c, 0 < c → c < n → parent c = i → f i ≤ f c

/-- The heap is ordered, but the key at `i` may be too large for its children. -/
structure DownFrom (f : Nat → κ) (n i : Nat) : Prop extends Hole f n i where
  above : 0 < i → f (parent i) ≤ f i

/-- A heap in order is in order but for any node. -/
theorem Ordered.upTo (h : Ordered f n) (hi : i < n) : UpTo f n i where
  apart := fun c h0 hc _ _ => h c h0 hc
  across := by
    rintro h0 c hc0 hc rfl
    exact (h (parent c) h0 hi).trans (h c hc0 hc)
  below := by
    rintro c hc0 hc rfl
    exact h c hc0 hc

/-- It is in order if the node is not earlier than its parent. -/
theorem UpTo.ordered (h : UpTo f n i) (hi : 0 < i → f (parent i) ≤ f i) : Ordered f n := by
  intro c h0 hc
  by_cases hci : c = i
  · rw [hci] at h0 ⊢
    exact hi h0
  · by_cases hp : parent c = i
    · rw [hp]
      exact h.below c h0 hc hp
    · exact h.apart c h0 hc hci hp

/-- It is in order if no child of the node is earlier. -/
theorem DownFrom.ordered (h : DownFrom f n i) (hi : ∀ c, 0 < c → c < n → parent c = i → f i ≤ f c) : Ordered f n :=
  UpTo.ordered ⟨h.toHole, hi⟩ h.above

/-- A key that is smaller than its parent is smaller than its children. -/
theorem Hole.upTo (h : Hole f n i) (h0 : 0 < i) (hlt : f i < f (parent i)) : UpTo f n i :=
  ⟨h, fun c hc0 hc hp => hlt.le.trans (h.across h0 c hc0 hc hp)⟩

/-- Before the position at fault, no key is smaller than the root. -/
theorem Hole.root_le (h : Hole f n i) (hi : i < n) (c : Nat) : c < i → f 0 ≤ f c := by
  induction c using Nat.strongRecOn with
  | ind c ih =>
    intro hc
    rcases Nat.eq_zero_or_pos c with h0 | h0
    · rw [h0]
    · have hp := parent_lt h0
      exact (ih (parent c) hp (Nat.lt_trans hp hc)).trans (h.apart c h0 (Nat.lt_trans hc hi) (by omega) (by omega))

/-- No key is smaller than the root. -/
theorem Ordered.root_le (h : Ordered f n) (c : Nat) : c < n → f 0 ≤ f c := by
  induction c using Nat.strongRecOn with
  | ind c ih =>
    intro hc
    rcases Nat.eq_zero_or_pos c with h0 | h0
    · rw [h0]
    · have hp := parent_lt h0
      exact (ih (parent c) hp (Nat.lt_trans hp hc)).trans (h c h0 hc)

/-- Another key at one position of an ordered heap. -/
theorem Ordered.hole {g : Nat → κ} (h : Ordered f n) (hi : i < n) (hg : ∀ c, c ≠ i → c < n → g c = f c) : Hole g n i := by
  have hpn : ∀ {c}, 0 < c → c < n → parent c < n := fun h0 hc => Nat.lt_trans (parent_lt h0) hc
  refine ⟨fun c h0 hc hci hp => ?_, ?_⟩
  · rw [hg c hci hc, hg _ hp (hpn h0 hc)]
    exact h c h0 hc
  · rintro h0 c hc0 hc rfl
    rw [hg c (by have := parent_lt hc0; omega) hc, hg _ (by have := parent_lt h0; omega) (hpn h0 hi)]
    exact (h _ h0 hi).trans (h c hc0 hc)

omit [LinearOrder κ] in
theorem swap_of_ne {c : Nat} (hi : c ≠ i) (hj : c ≠ j) : (f ∘ Equiv.swap i j) c = f c := by
  rw [Function.comp_apply, Equiv.swap_apply_of_ne_of_ne hi hj]

omit [LinearOrder κ] in
theorem swap_left : (f ∘ Equiv.swap i j) i = f j := by rw [Function.comp_apply, Equiv.swap_apply_left]

omit [LinearOrder κ] in
theorem swap_right : (f ∘ Equiv.swap i j) j = f i := by rw [Function.comp_apply, Equiv.swap_apply_right]

/-- The key goes up, past a parent that is not smaller. -/
theorem UpTo.swap (h : UpTo f n i) (h0 : 0 < i) (hi : i < n) (hle : f i ≤ f (parent i)) :
    UpTo (f ∘ Equiv.swap i (parent i)) n (parent i) := by
  have hlt := parent_lt h0
  -- the parent of the parent is not below it
  have hgrand : 0 < parent i → f (parent (parent i)) ≤ f (parent i) := fun hp0 =>
    h.apart (parent i) hp0 (Nat.lt_trans hlt hi) (by omega) (by have := parent_lt hp0; omega)
  have hchild : ∀ c, 0 < c → c < n → c ≠ i → parent c = parent i → f (parent i) ≤ f c := by
    intro c hc0 hc hci hp
    rw [← hp]
    exact h.apart c hc0 hc hci (by omega)
  refine ⟨⟨?_, ?_⟩, ?_⟩
  · intro c hc0 hc hcp hpp
    have hci : c ≠ i := fun hci => hpp (by rw [hci])
    rw [swap_of_ne hci hcp]
    by_cases hpi : parent c = i
    · rw [hpi, swap_left]
      exact h.across h0 c hc0 hc hpi
    · rw [swap_of_ne hpi hpp]
      exact h.apart c hc0 hc hci hpi
  · intro hp0 c hc0 hc hp
    have hpp := parent_lt hp0
    have hpc := parent_lt hc0
    rw [swap_of_ne (by omega) (by omega)]
    by_cases hci : c = i
    · rw [hci, swap_left]
      exact hgrand hp0
    · rw [swap_of_ne hci (by omega)]
      exact (hgrand hp0).trans (hchild c hc0 hc hci hp)
  · intro c hc0 hc hp
    have hpc := parent_lt hc0
    rw [swap_right]
    by_cases hci : c = i
    · rw [hci, swap_left]
      exact hle
    · rw [swap_of_ne hci (by omega)]
      exact hle.trans (hchild c hc0 hc hci hp)

/-- The key goes down, in exchange for the least of its children, which is not larger. -/
theorem DownFrom.swap (h : DownFrom f n i) (hj0 : 0 < j) (hj : j < n) (hp : parent j = i)
    (hmin : ∀ c, 0 < c → c < n → parent c = i → f j ≤ f c) (hle : f j ≤ f i) : DownFrom (f ∘ Equiv.swap i j) n j := by
  have hij : i < j := hp ▸ parent_lt hj0
  have hbelow : ∀ c, 0 < c → c < n → parent c = j → f j ≤ f c := by
    intro c hc0 hc hpc
    have := parent_lt hc0
    rw [← hpc]
    exact h.apart c hc0 hc (by omega) (by omega)
  refine ⟨⟨?_, ?_⟩, ?_⟩
  · intro c hc0 hc hcj hpj
    have hpc := parent_lt hc0
    by_cases hci : c = i
    · rw [hci] at hc0 hpc hpj ⊢
      rw [swap_left, swap_of_ne (by omega) hpj]
      exact h.across hc0 j hj0 hj hp
    · rw [swap_of_ne hci hcj]
      by_cases hpi : parent c = i
      · rw [hpi, swap_left]
        exact hmin c hc0 hc hpi
      · rw [swap_of_ne hpi hpj]
        exact h.apart c hc0 hc hci hpi
  · intro _ c hc0 hc hpc
    have := parent_lt hc0
    rw [hp, swap_left, swap_of_ne (by omega) (by omega)]
    exact hbelow c hc0 hc hpc
  · intro _
    rw [hp, swap_left, swap_right]
    exact hle

end BinaryHeap
