import Netcore.Http.Itoa

/-!
# `itoa_jeaiii.hpp`

The lengths that a client sends. A number is made into a fixed point number with 32 bits behind the point, from which the digits are read
off in pairs: the whole part is a pair, and what is behind the point is multiplied by 100 for the next one. The reciprocal is rounded, and
more exact for longer numbers; `scaled_fraction` is what the digits need of it.
-/

namespace Netcore

open Numerals Itoa

namespace Jeaiii

/-- `s_pairs`: the digits of the tens and of the ones. -/
def sPairs : List (UInt8 × UInt8) := (List.range 100).map fun i => (UInt8.ofNat (48 + i / 10), UInt8.ofNat (48 + i % 10))

/-- `CINATRAW`. -/
def pair (i : Nat) : Bytes := [(sPairs.getD i (0, 0)).1, (sPairs.getD i (0, 0)).2]

/-- The shift of `CINATRAA`. -/
def shift (n : Nat) : Nat := n / 5 * n * 53 / 16

/-- `CINATRAA`: the fixed point number for `n` digits behind the point. -/
def fraction (n u : Nat) : Nat :=
  ((((2 ^ (32 + shift n) / 10 ^ n + 1 + n / 6 - n / 8) * u) % 2 ^ 64) >>> shift n + n / 6 * 4) % 2 ^ 64

/-- `CINATRAD` and `CINATRAS`: two digits more, or the last one. -/
inductive Op where
  | D
  | S
  deriving DecidableEq, Repr

/-- The operations from a fixed point number on. -/
def run (t : Nat) : List Op → Bytes
  | [] => []
  | .D :: ops => pair ((100 * (t % 2 ^ 32)) >>> 32) ++ run (100 * (t % 2 ^ 32)) ops
  | .S :: ops => UInt8.ofNat (48 + (10 * (t % 2 ^ 32)) >>> 32) :: run t ops

/-- The operations of `CINATRAL2` to `CINATRAL9`, which write one digit more than their number. -/
def ops : Nat → List Op
  | 2 => [.S]
  | 3 => [.D]
  | 4 => [.D, .S]
  | 5 => [.D, .D]
  | 6 => [.D, .D, .S]
  | 7 => [.D, .D, .D]
  | 8 => [.D, .D, .D, .S]
  | 9 => [.D, .D, .D, .D]
  | _ => []

/-- `CINATRAL0` to `CINATRAL9`. -/
def digits (k u : Nat) : Bytes :=
  match k with
  | 0 => [UInt8.ofNat (48 + u)]
  | 1 => pair u
  | k + 2 => pair (fraction (k + 1) u >>> 32) ++ run (fraction (k + 1) u) (ops (k + 2))

/-- `LG`. -/
def LG (u : Nat) : Bytes :=
  if u < 100 then if u < 10 then digits 0 u else digits 1 u
  else if u < 1000000 then
    if u < 10000 then if u < 1000 then digits 2 u else digits 3 u
    else if u < 100000 then digits 4 u else digits 5 u
  else if u < 100000000 then if u < 10000000 then digits 6 u else digits 7 u
  else if u < 1000000000 then digits 8 u else digits 9 u

/-- `u32toa_jeaiii`. -/
def u32toa (u : Nat) : Bytes := LG u

/-- `i32toa_jeaiii`. -/
def i32toa (i : Int) : Bytes :=
  if i < 0 then HYPHEN :: LG ((-i) % 4294967296).toNat else LG (i % 4294967296).toNat

/-- `u64toa_jeaiii`. -/
def u64toa (n : Nat) : Bytes :=
  if n >>> 32 % 4294967296 = 0 then LG (n % 4294967296)
  else
    let a := n / 100000000
    (if a >>> 32 % 4294967296 = 0 then LG (a % 4294967296)
      else LG (a / 100000000 % 4294967296) ++ digits 7 (a % 100000000)) ++ digits 7 (n % 100000000)

/-- `i64toa_jeaiii`. -/
def i64toa (i : Int) : Bytes :=
  if i < 0 then HYPHEN :: u64toa ((-i) % 18446744073709551616).toNat else u64toa (i % 18446744073709551616).toNat

/-! ## The digits -/

theorem pair_eq {u : Nat} (h : u < 100) : pair u = fixed 2 u := by
  have hall : (List.range 100).all (fun u => pair u == fixed 2 u) = true := by decide +kernel
  exact beq_iff_eq.mp (List.all_eq_true.mp hall u (List.mem_range.mpr h))

/-- How many digits operations write. -/
def Writes : Nat → List Op → Prop
  | 0, [] => True
  | 1, [.S] => True
  | n + 2, .D :: ops => Writes n ops
  | _, _ => False

/-- A product that fits 64 bits is shifted as it is. -/
theorem scaled_of_fits {c u s e k : Nat} (hprod : c * u < 18446744073709551616) (hsum : c * u / 2 ^ s + e < 18446744073709551616)
    (hle : u * 4294967296 ≤ (c * u / 2 ^ s + e) * 10 ^ k) (hlt : (c * u / 2 ^ s + e) * 10 ^ k < (u + 1) * 4294967296) :
    Scaled 10 (2 ^ 32) k u (((c * u % 2 ^ 64) >>> s + e) % 2 ^ 64) := by
  have heq : ((c * u % 2 ^ 64) >>> s + e) % 2 ^ 64 = c * u / 2 ^ s + e := by
    have hmod : c * u % 2 ^ 64 = c * u := Nat.mod_eq_of_lt hprod
    rw [hmod, Nat.shiftRight_eq_div_pow]
    exact Nat.mod_eq_of_lt hsum
  rw [heq]
  exact ⟨hle, hlt⟩

/-- The reciprocals are exact enough, and the products fit 64 bits. The one for 5 digits is not, for small numbers. -/
theorem scaled_fraction {n u : Nat} (h0 : 0 < n) (h9 : n < 9) (hu : u < 10 ^ (n + 2)) (h32 : u < 2 ^ 32) (h5 : n = 5 → 100000 ≤ u) :
    Scaled 10 (2 ^ 32) n u (fraction n u) := by
  have hcases : n = 1 ∨ n = 2 ∨ n = 3 ∨ n = 4 ∨ n = 5 ∨ n = 6 ∨ n = 7 ∨ n = 8 := by omega
  rcases hcases with rfl | rfl | rfl | rfl | rfl | rfl | rfl | rfl
  all_goals
    norm_num at hu h32 h5
    refine scaled_of_fits ?_ ?_ ?_ ?_
    all_goals
      norm_num [shift]
      omega

theorem pow_add_two (n : Nat) : 10 ^ (n + 2) = 10 ^ n * 100 := by rw [pow_add]; norm_num

/-- The operations write the digits behind the point. -/
theorem run_eq (ops : List Op) : ∀ {n u t : Nat}, Writes n ops → Scaled 10 (2 ^ 32) n u t → run t ops = fixed n (u % 10 ^ n) := by
  induction ops with
  | nil =>
    intro n u t hw _
    cases n with
    | zero => rfl
    | succ n => cases n <;> exact False.elim hw
  | cons op ops ih =>
    intro n u t hw hs
    match n, op, ops, hw with
    | n + 2, .D, ops, hw =>
      have hrest : Scaled 10 (2 ^ 32) n (u % 10 ^ (n + 2)) (100 * (t % 2 ^ 32)) := hs.rest (by decide)
      have hlt : u % 10 ^ (n + 2) / 10 ^ n < 100 :=
        Nat.div_lt_of_lt_mul (pow_add_two n ▸ Nat.mod_lt _ (Nat.pow_pos (by decide)))
      have hpair : pair ((100 * (t % 2 ^ 32)) >>> 32) = fixed 2 (u % 10 ^ (n + 2) / 10 ^ n) := by
        rw [Nat.shiftRight_eq_div_pow, hrest.whole (by decide), pair_eq hlt]
      rw [run, hpair, ih hw hrest, fixed_split, Nat.add_comm]
    | 1, .S, [], _ =>
      have hrest : Scaled 10 (2 ^ 32) 0 (u % 10 ^ 1) (10 ^ 1 * (t % 2 ^ 32)) := hs.rest (k := 0) (j := 1) (by decide)
      have hdigit := hrest.whole (by decide)
      rw [pow_one, pow_zero, Nat.div_one] at hdigit
      rw [run, run, Nat.shiftRight_eq_div_pow, hdigit, pow_one, fixed, places, places, List.nil_append, Nat.mod_mod]
      rfl

theorem writes_ops {k : Nat} (h : k + 2 ≤ 9) : Writes (k + 1) (ops (k + 2)) := by
  have hcases : k = 0 ∨ k = 1 ∨ k = 2 ∨ k = 3 ∨ k = 4 ∨ k = 5 ∨ k = 6 ∨ k = 7 := by omega
  rcases hcases with rfl | rfl | rfl | rfl | rfl | rfl | rfl | rfl <;> trivial

/-- `CINATRAL0` to `CINATRAL9`: all digits of a number, leading zeros included. -/
theorem digits_eq {k u : Nat} (h9 : k ≤ 9) (hu : u < 10 ^ (k + 1)) (h32 : u < 2 ^ 32) (h6 : k = 6 → 100000 ≤ u) :
    digits k u = fixed (k + 1) u := by
  match k, h9, hu, h6 with
  | 0, _, hu, _ =>
    have hmod : u % 10 = u := Nat.mod_eq_of_lt hu
    rw [digits, fixed, places, places, List.nil_append, hmod]
    rfl
  | 1, _, hu, _ => exact pair_eq hu
  | k + 2, h9, hu, h6 =>
    have hs : Scaled 10 (2 ^ 32) (k + 1) u (fraction (k + 1) u) :=
      scaled_fraction (Nat.succ_pos k) (by omega) hu h32 (fun h => h6 (by omega))
    have hlt : u / 10 ^ (k + 1) < 100 := Nat.div_lt_of_lt_mul (pow_add_two (k + 1) ▸ hu)
    rw [digits, Nat.shiftRight_eq_div_pow, hs.whole (by decide), pair_eq hlt,
      run_eq _ (writes_ops h9) hs, fixed_split, Nat.add_comm]

/-- `LG` takes as many digits as the number has. -/
theorem LG_eq {u : Nat} (h : u < 4294967296) : LG u = decimal u := by
  have key : ∀ k, 0 < k → k ≤ 9 → 10 ^ k ≤ u → u < 10 ^ (k + 1) → digits k u = decimal u := by
    intro k h0 h9 hle hlt
    rw [digits_eq h9 hlt h, decimal_eq_fixed hle hlt]
    rintro rfl
    omega
  unfold LG
  split_ifs with h1 h2 h3 h4 h5 h6 h7 h8 h9
  · rw [digits_eq (by omega) (by omega) h (by omega), decimal_of_lt h2]
    exact (digits_eq (k := 0) (by omega) (by omega) h (by omega)).symm
  · exact key 1 (by omega) (by omega) (by omega) (by omega)
  · exact key 2 (by omega) (by omega) (by omega) (by omega)
  · exact key 3 (by omega) (by omega) (by omega) (by omega)
  · exact key 4 (by omega) (by omega) (by omega) (by omega)
  · exact key 5 (by omega) (by omega) (by omega) (by omega)
  · exact key 6 (by omega) (by omega) (by omega) (by omega)
  · exact key 7 (by omega) (by omega) (by omega) (by omega)
  · exact key 8 (by omega) (by omega) (by omega) (by omega)
  · exact key 9 (by omega) (by omega) (by omega) (by omega)

/-- Numbers of 64 bits are written in groups of eight digits, and those in front of the first one. -/
theorem u64toa_eq {n : Nat} (h : n < 18446744073709551616) : u64toa n = decimal n := by
  have htail : ∀ u, digits 7 (u % 100000000) = fixed 8 (u % 10 ^ 8) := fun u =>
    digits_eq (by omega) (Nat.mod_lt _ (by decide)) (Nat.lt_trans (Nat.mod_lt u (by decide)) (by decide)) (by omega)
  unfold u64toa
  dsimp only
  rw [htail, htail, Nat.shiftRight_eq_div_pow, Nat.shiftRight_eq_div_pow]
  by_cases hsmall : n < 4294967296
  · rw [if_pos (by norm_num; omega), Nat.mod_eq_of_lt hsmall, LG_eq hsmall]
  · have hsplit : decimal (n / 100000000 : Nat) ++ fixed 8 (n % 10 ^ 8) = decimal n := decimal_split (k := 8) (by omega)
    rw [if_neg (by norm_num; omega), ← hsplit]
    congr 1
    by_cases ha : n / 100000000 < 4294967296
    · rw [if_pos (by norm_num; omega), Nat.mod_eq_of_lt ha, LG_eq ha]
    · have hfirst : n / 100000000 / 100000000 < 4294967296 := by omega
      rw [if_neg (by norm_num; omega), Nat.mod_eq_of_lt hfirst, LG_eq hfirst]
      exact decimal_split (k := 8) (by omega)

/-- **`u32toa_jeaiii` to `i64toa_jeaiii`.** Every number of 32 or 64 bits, signed or not, is written in decimal. -/
theorem jeaiii_eq : (∀ u < 4294967296, u32toa u = decimal (u : Nat)) ∧
    (∀ i : Int, -2147483648 ≤ i → i < 2147483648 → i32toa i = decimal i) ∧
      (∀ n < 18446744073709551616, u64toa n = decimal (n : Nat)) ∧
        ∀ i : Int, -9223372036854775808 ≤ i → i < 9223372036854775808 → i64toa i = decimal i := by
  have habs : ∀ {i m : Int}, i < 0 → -m < i → ((-i) % m).toNat = i.natAbs := by
    intro i m h0 hlo
    rw [Int.emod_eq_of_lt (by omega) (by omega)]
    omega
  refine ⟨fun u hu => LG_eq hu, fun i hlo hhi => ?_, fun n hn => u64toa_eq hn, fun i hlo hhi => ?_⟩
  · unfold i32toa
    split_ifs with h
    · rw [habs h (by omega), LG_eq (by omega), decimal_neg h]
    · rw [LG_eq (by omega)]
      congr 1
      omega
  · unfold i64toa
    split_ifs with h
    · rw [habs h (by omega), u64toa_eq (by omega), decimal_neg h]
    · rw [u64toa_eq (by omega)]
      congr 1
      omega

theorem jeaiii_eq_least : u32toa 4294967295 = decimal (4294967295 : Nat) ∧ i32toa (-2147483648) = decimal (-2147483648) ∧
    u64toa 18446744073709551615 = decimal (18446744073709551615 : Nat) ∧ i64toa (-9223372036854775808) = decimal (-9223372036854775808) :=
  ⟨jeaiii_eq.1 _ (by omega), jeaiii_eq.2.1 _ (by omega) (by omega), jeaiii_eq.2.2.1 _ (by omega),
    jeaiii_eq.2.2.2 _ (by omega) (by omega)⟩

end Jeaiii

end Netcore
