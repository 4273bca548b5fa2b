import Mathlib.Algebra.Order.Ring.Nat
import Mathlib.Data.Nat.Digits.Defs

/-!
# Numerals

The digits of a number at a fixed number of places, the numeral without leading zeros, and two ways of finding digits: division by a
power of the base, and reading them off a scaled fraction. A fraction `t / R` stands for `u / b ^ k` when it is not less, and less than
`(u + 1) / b ^ k`; then its whole part is right, and what is left stands for the rest of the digits.
-/

namespace Numerals

variable {b R k j u t m n : Nat}

/-- The last `n` digits of `u`, the first of them first. -/
def places (b : Nat) : Nat → Nat → List Nat
  | 0, _ => []
  | n + 1, u => places b n (u / b) ++ [u % b]

/-- Only the last `n` digits count. -/
theorem places_mod (b n u : Nat) : places b n (u % b ^ n) = places b n u := by
  induction n generalizing u with
  | zero => rfl
  | succ n ih =>
    rw [places, places, ← ih (u / b), Nat.pow_succ', Nat.mod_mul_right_div_self, Nat.mod_mul_right_mod]

theorem places_add (b m n u : Nat) : places b (m + n) u = places b m (u / b ^ n) ++ places b n u := by
  induction n generalizing u with
  | zero => rw [Nat.add_zero, Nat.pow_zero, Nat.div_one, places, List.append_nil]
  | succ n ih => rw [← Nat.add_assoc, places, ih, places, Nat.pow_succ', ← Nat.div_div_eq_div_mul, List.append_assoc]

/-- The digits of a number and of the rest that a division leaves. -/
theorem places_split (b m n u : Nat) : places b m (u / b ^ n) ++ places b n (u % b ^ n) = places b (m + n) u := by
  rw [places_mod, places_add]

/-- The numeral of a number. -/
def numeral (b n : Nat) : List Nat := if _h : n < b ∨ b < 2 then [n] else numeral b (n / b) ++ [n % b]
termination_by n
decreasing_by exact Nat.div_lt_self (by omega) (by omega)

theorem numeral_of_lt (h : n < b) : numeral b n = [n] := by rw [numeral, dif_pos (.inl h)]

theorem numeral_of_le (hb : 2 ≤ b) (h : b ≤ n) : numeral b n = numeral b (n / b) ++ [n % b] := by
  rw [numeral, dif_neg (by omega)]

/-- The numeral of a number from the digits in front of `k` places. -/
theorem numeral_append (hb : 2 ≤ b) (hm : 0 < m) (k : Nat) (hu : u < b ^ k) : numeral b (m * b ^ k + u) = numeral b m ++ places b k u := by
  induction k generalizing u with
  | zero =>
    have hu0 : u = 0 := by simpa using hu
    rw [hu0, Nat.pow_zero, Nat.mul_one, Nat.add_zero, places, List.append_nil]
  | succ k ih =>
    have hb0 : 0 < b := by omega
    have hpow : b ^ (k + 1) = b ^ k * b := pow_succ b k
    have hle : b ≤ m * b ^ (k + 1) + u := by
      have h1 : 1 * b ≤ m * b ^ (k + 1) := Nat.mul_le_mul hm (Nat.le_self_pow (Nat.succ_ne_zero k) b)
      omega
    have hdiv : (m * b ^ (k + 1) + u) / b = m * b ^ k + u / b := by
      rw [hpow, ← Nat.mul_assoc, Nat.add_comm, Nat.add_mul_div_right _ _ hb0, Nat.add_comm]
    have hmod : (m * b ^ (k + 1) + u) % b = u % b := by
      rw [hpow, ← Nat.mul_assoc, Nat.add_comm, Nat.add_mul_mod_self_right]
    rw [numeral_of_le hb hle, hdiv, hmod, ih (Nat.div_lt_of_lt_mul (by rw [Nat.mul_comm, ← hpow]; exact hu)), places, List.append_assoc]

/-- The same, with the division that finds the digits. -/
theorem numeral_split (hb : 2 ≤ b) (k : Nat) (h : b ^ k ≤ u) : numeral b (u / b ^ k) ++ places b k (u % b ^ k) = numeral b u := by
  have hpos : 0 < b ^ k := Nat.pow_pos (by omega)
  rw [← numeral_append hb (Nat.div_pos h hpos) k (Nat.mod_lt _ hpos), Nat.mul_comm, Nat.div_add_mod]

/-- A numeral without leading zeros has one place for each digit. -/
theorem numeral_eq_places (hb : 2 ≤ b) (k : Nat) (hle : b ^ k ≤ u) (hlt : u < b ^ (k + 1)) : numeral b u = places b (k + 1) u := by
  have hone : u / b ^ k < b := Nat.div_lt_of_lt_mul (by rwa [← Nat.pow_succ])
  rw [← numeral_split hb k hle, numeral_of_lt hone, places_mod, Nat.add_comm, places_add, places, places, List.nil_append,
    Nat.mod_eq_of_lt hone]

theorem numeral_lt (hb : 2 ≤ b) (n : Nat) : ∀ d ∈ numeral b n, d < b := by
  induction n using Nat.strong_induction_on with
  | _ n ih =>
    intro d hd
    by_cases h : n < b
    · rw [numeral_of_lt h] at hd
      rw [List.mem_singleton.mp hd]
      exact h
    · rw [numeral_of_le hb (by omega)] at hd
      rcases List.mem_append.mp hd with hd | hd
      · exact ih _ (Nat.div_lt_self (by omega) hb) d hd
      · rw [List.mem_singleton.mp hd]
        exact Nat.mod_lt _ (by omega)

/-! ## Digits of a fraction -/

/-- `t / R` stands for `u / b ^ k`. -/
structure Scaled (b R k u t : Nat) : Prop where
  le : u * R ≤ t * b ^ k
  lt : t * b ^ k < (u + 1) * R

/-- The whole part of the fraction. -/
theorem Scaled.whole (h : Scaled b R k u t) (hb : 0 < b) : t / R = u / b ^ k := by
  have hpos : 0 < b ^ k := Nat.pow_pos hb
  have hq := Nat.div_add_mod u (b ^ k)
  have hmod := Nat.mod_lt u hpos
  have hsucc : u + 1 ≤ (u / b ^ k + 1) * b ^ k := by
    rw [Nat.add_mul, Nat.one_mul, Nat.mul_comm]
    omega
  refine Nat.div_eq_of_lt_le ?_ ?_
  · refine Nat.le_of_mul_le_mul_right ?_ hpos
    calc u / b ^ k * R * b ^ k = u / b ^ k * b ^ k * R := Nat.mul_right_comm ..
      _ ≤ u * R := Nat.mul_le_mul_right R (Nat.div_mul_le_self u (b ^ k))
      _ ≤ t * b ^ k := h.le
  · refine Nat.lt_of_mul_lt_mul_right (a := b ^ k) ?_
    calc t * b ^ k < (u + 1) * R := h.lt
      _ ≤ (u / b ^ k + 1) * b ^ k * R := Nat.mul_le_mul_right R hsucc
      _ = (u / b ^ k + 1) * R * b ^ k := Nat.mul_right_comm ..

/-- What is left of the fraction, with `j` digits more before the point. -/
theorem Scaled.rest (h : Scaled b R (k + j) u t) (hb : 0 < b) :
    Scaled b R k (u % b ^ (k + j)) (b ^ j * (t % R)) := by
  have hwhole := h.whole hb
  have ht := Nat.div_add_mod t R
  have hu := Nat.div_add_mod u (b ^ (k + j))
  have hscale : b ^ j * (t % R) * b ^ k = t % R * b ^ (k + j) := by
    rw [Nat.pow_add, Nat.mul_comm (b ^ j), Nat.mul_assoc, Nat.mul_comm (b ^ j)]
  have hfull : t * b ^ (k + j) = u / b ^ (k + j) * b ^ (k + j) * R + t % R * b ^ (k + j) := by
    conv_lhs => rw [← ht, hwhole]
    ring
  have hle := h.le
  have hlt := h.lt
  have hsplit : u * R = u / b ^ (k + j) * b ^ (k + j) * R + u % b ^ (k + j) * R := by
    conv_lhs => rw [← hu]
    ring
  constructor
  · rw [hscale]
    omega
  · rw [hscale, Nat.add_mul, Nat.one_mul]
    rw [Nat.add_mul, Nat.one_mul] at hlt
    omega

end Numerals
