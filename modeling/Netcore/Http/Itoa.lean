import Netcore.Http.Decimal
import Netcore.Http.Response
import Netcore.Lib.Numerals
import Mathlib.Data.List.Induction

/-!
# `itoa.hpp`

`itoa_fwd` writes the length of a response. A number of `N` bytes is split into two numbers of half as many, with a multiplication and a
shift in place of the division, down to numbers of one byte, for which there is a table; `N` is a power of two, and the functions are
numbered by its exponent. Digits are written behind the text that there is, or in front of it. `xtoa` divides, and turns the digits
around.

The instance for eight bytes does not compile: it asks for a type of sixteen.
-/

namespace Netcore

open Numerals

namespace Itoa

/-- `digits`: all numbers of two digits. -/
def digits : Bytes := (List.range 200).map fun i => UInt8.ofNat (48 + if i % 2 ≠ 0 then i / 2 % 10 else i / 2 / 10)

/-- `dd`: two characters of the table. -/
def dd (u : Nat) : Bytes := [digits.getD (2 * u) 0, digits.getD (2 * u + 1) 0]

/-- `MulInv`: the addend, the factor and the shift. -/
structure MulInv where
  a : Nat
  m : Nat
  s : Nat

/-- `MI`. -/
def MI : Nat → MulInv
  | 0 => ⟨0, 205, 11⟩
  | 1 => ⟨1, 41943, 22⟩
  | 2 => ⟨0, 3518437209, 45⟩
  | _ => ⟨0, 12379400392853802749, 90⟩

/-- `QR`. -/
structure QR where
  q : Nat
  r : Nat
  deriving DecidableEq, Repr

/-- The bits of a number of `2 ^ k` bytes. -/
def width (k : Nat) : Nat := 8 * 2 ^ k

/-- `pow10(N)`. -/
def pow10 (k : Nat) : Nat := 10 ^ 2 ^ k

/-- `split<N>`: the product is made in the type of twice the width, the remainder is cut to half of it. -/
def split (k u : Nat) : QR :=
  let q := (((MI k).m * (u + (MI k).a) % 2 ^ (2 * width k)) >>> (MI k).s) % 2 ^ width k
  { q, r := ((u - q * pow10 k : Int) % 2 ^ (width k / 2)).toNat }

inductive Direction where
  | fwd
  | rev
  deriving DecidableEq, Repr

/-- `out`. -/
def out (d : Direction) (p obj : Bytes) : Bytes :=
  match d with
  | .fwd => p ++ obj
  | .rev => obj ++ p

/-- Two halves: the first one is written first, or last. -/
def both (d : Direction) (first second : Bytes → Bytes) (p : Bytes) : Bytes :=
  match d with
  | .fwd => second (first p)
  | .rev => first (second p)

/-- `tail`: all digits, leading zeros included. -/
def tail (d : Direction) : Nat → Nat → Bytes → Bytes
  | 0, u => fun p => out d p (dd u)
  | k + 1, u =>
    let x := split (k + 1) u
    both d (tail d k (x.q % 2 ^ width k)) (tail d k x.r)

/-- `head`: no leading zeros. -/
def head (d : Direction) : Nat → Nat → Bytes → Bytes
  | 0, u => if u < 10 then fun p => out d p [UInt8.ofNat (48 + u)] else fun p => out d p (dd u)
  | k + 1, u =>
    if u < pow10 (k + 1) then head d k (u % 2 ^ width k)
    else
      let x := split (k + 1) u
      both d (head d k (x.q % 2 ^ width k)) (tail d k x.r)

/-- `large<N>`: the quotient has too many digits for one half. -/
def large (d : Direction) (k : Nat) (x : QR) : Bytes → Bytes :=
  let y := split (k + 1) x.q
  both d (both d (head d k (y.q % 2 ^ width k)) (tail d k y.r)) (tail d k x.r)

/-- `itoa` of an unsigned number. -/
def itoa (d : Direction) : Nat → Nat → Bytes → Bytes
  | 0, u =>
    if u < 10 then fun p => out d p [UInt8.ofNat (48 + u)]
    else if u < 100 then fun p => out d p (dd u)
    else both d (fun p => out d p [UInt8.ofNat (48 + u / 100)]) fun p => out d p (dd (u % 100))
  | k + 1, u =>
    if u < pow10 (k + 1) then head d k (u % 2 ^ width k)
    else
      let x := split (k + 1) u
      if u < pow10 (k + 1) * pow10 (k + 1) then both d (head d k (x.q % 2 ^ width k)) (tail d k x.r)
      else large d k x

/-- The absolute value of a number of `w` bits, without a branch. -/
def magnitude (w : Nat) (i : Int) : BitVec w :=
  let v := BitVec.ofInt w i
  let mask : BitVec w := if i < 0 then ~~~0#w else 0#w
  ((2#w * v) &&& ~~~mask) - v

/-- `itoa` of a signed number. Where the number is not negative, its first digit is written over the sign. -/
def itoaSigned (d : Direction) (k : Nat) (i : Int) (p : Bytes) : Bytes :=
  let u := (magnitude (width k) i).toNat
  match d with
  | .fwd => itoa .fwd k u (if i < 0 then p ++ [HYPHEN] else p)
  | .rev => if i < 0 then HYPHEN :: itoa .rev k u p else itoa .rev k u p

/-! ## The digits -/

/-- The character of a digit. -/
def digitChar (d : Nat) : UInt8 := UInt8.ofNat (48 + d)

/-- A number at a fixed number of places. -/
def fixed (n u : Nat) : Bytes := (places 10 n u).map digitChar

/-- The digits of the library are those of the source. -/
theorem digitChar_eq {d : Nat} (h : d < 10) : UInt8.ofNat (Nat.digitChar d).toNat = digitChar d := by
  have hall : (List.range 10).all (fun d => UInt8.ofNat (Nat.digitChar d).toNat == digitChar d) = true := by decide
  exact beq_iff_eq.mp (List.all_eq_true.mp hall d (List.mem_range.mpr h))

/-- A decimal number is the numeral of its base. -/
theorem decimal_eq_numeral (n : Nat) : decimal n = (numeral 10 n).map digitChar := by
  induction n using Nat.strong_induction_on with
  | _ n ih =>
    by_cases h : n < 10
    · rw [decimal_natCast, Nat.toDigits_of_lt_base h, numeral_of_lt h, List.map_singleton, List.map_singleton, digitChar_eq h]
    · have hlt : n % 10 < 10 := Nat.mod_lt _ (by decide)
      have hprev := ih (n / 10) (Nat.div_lt_self (by omega) (by decide))
      rw [decimal_natCast] at hprev
      rw [decimal_natCast, Nat.toDigits_of_base_le (by decide) (by omega), numeral_of_le (by decide) (by omega), List.map_append,
        List.map_append, hprev, List.map_singleton, List.map_singleton, digitChar_eq hlt]

/-- A number in decimal: the digits before the last `k`, and those. -/
theorem decimal_split {k u : Nat} (h : 10 ^ k ≤ u) : decimal (u / 10 ^ k : Nat) ++ fixed k (u % 10 ^ k) = decimal u := by
  rw [decimal_eq_numeral, decimal_eq_numeral, fixed, ← List.map_append, numeral_split (by decide) k h]

/-- A fixed number of digits, split in two. -/
theorem fixed_split (m n u : Nat) : fixed m (u / 10 ^ n) ++ fixed n (u % 10 ^ n) = fixed (m + n) u := by
  rw [fixed, fixed, ← List.map_append, places_split, fixed]

/-- A number below ten is one digit. -/
theorem decimal_of_lt {u : Nat} (h : u < 10) : decimal u = [UInt8.ofNat (48 + u)] := by
  rw [decimal_eq_numeral, numeral_of_lt h]
  rfl

/-- A number with `k + 1` digits. -/
theorem decimal_eq_fixed {k u : Nat} (h : 10 ^ k ≤ u) (h' : u < 10 ^ (k + 1)) : decimal u = fixed (k + 1) u := by
  rw [decimal_eq_numeral, numeral_eq_places (by decide) k h h', fixed]

/-- The table of two digits. -/
theorem dd_eq {u : Nat} (h : u < 100) : dd u = fixed 2 u := by
  have hall : (List.range 100).all (fun u => dd u == fixed 2 u) = true := by decide +kernel
  exact beq_iff_eq.mp (List.all_eq_true.mp hall u (List.mem_range.mpr h))

/-! ## Division by multiplication -/

/-- A division by 100 of a number of two bytes, and one by 10000 of a number of four. -/
theorem mulInv_div {u : Nat} : (u < 65536 → 41943 * (u + 1) / 4194304 = u / 100) ∧
    (u < 4294967296 → 3518437209 * (u + 0) / 35184372088832 = u / 10000) := by
  constructor <;> intro h <;> omega

/-- The product fits its type, the quotient and the remainder fit theirs. -/
theorem split_eq {k u : Nat} (hk : k < 2) (hu : u < 2 ^ width (k + 1)) :
    split (k + 1) u = ⟨u / pow10 (k + 1), u % pow10 (k + 1)⟩ := by
  have key : ∀ {a m s w p : Nat}, m * (u + a) < 2 ^ (2 * w) → m * (u + a) / 2 ^ s = u / p → u / p < 2 ^ w → u % p < 2 ^ (w / 2) →
      (⟨((m * (u + a) % 2 ^ (2 * w)) >>> s) % 2 ^ w,
        ((u - (((m * (u + a) % 2 ^ (2 * w)) >>> s) % 2 ^ w : Nat) * p : Int) % 2 ^ (w / 2)).toNat⟩ : QR) = ⟨u / p, u % p⟩ := by
    intro a m s w p hprod hdiv hq hr
    have hquot : ((m * (u + a) % 2 ^ (2 * w)) >>> s) % 2 ^ w = u / p := by
      rw [Nat.mod_eq_of_lt hprod, Nat.shiftRight_eq_div_pow, hdiv, Nat.mod_eq_of_lt hq]
    have hrem : (u - (u / p : Nat) * p : Int) = (u % p : Nat) := by
      have hdm := Nat.div_add_mod u p
      rw [Nat.mul_comm] at hdm
      have hcast : (u : Int) = (u / p : Nat) * p + (u % p : Nat) := by exact_mod_cast hdm.symm
      omega
    rw [hquot, hrem]
    have hmod : ((u % p : Nat) : Int) % 2 ^ (w / 2) = ((u % p) % 2 ^ (w / 2) : Nat) := by push_cast; rfl
    rw [hmod, Int.toNat_natCast, Nat.mod_eq_of_lt hr]
  have hcases : k = 0 ∨ k = 1 := by omega
  rcases hcases with rfl | rfl
  · have hu' : u < 65536 := hu
    refine key (a := 1) (m := 41943) (s := 22) (w := 16) (p := 100) ?_ (mulInv_div.1 hu') ?_ ?_
    · norm_num; omega
    · norm_num; omega
    · norm_num; omega
  · have hu' : u < 4294967296 := hu
    refine key (a := 0) (m := 3518437209) (s := 45) (w := 32) (p := 10000) ?_ (mulInv_div.2 hu') ?_ ?_
    · norm_num; omega
    · norm_num; omega
    · norm_num; omega

/-! ## What is written -/

/-- The sizes of the numbers: two halves fit a number, and each of them half of its bytes. -/
theorem sizes {k : Nat} (hk : k < 2) : pow10 (k + 1) = pow10 k * pow10 k ∧ pow10 (k + 1) ≤ 2 ^ width k ∧
    pow10 (k + 1) * pow10 (k + 1) ≤ 2 ^ width (k + 1) ∧ 2 ^ width (k + 1) ≤ pow10 (k + 1) * (pow10 (k + 1) * pow10 (k + 1)) := by
  have hcases : k = 0 ∨ k = 1 := by omega
  rcases hcases with rfl | rfl <;> decide

/-- The powers at which the widths are split. -/
theorem pow10_eq (k : Nat) : pow10 (k + 1) = 10 ^ (2 * 2 ^ k) := by rw [pow10, Nat.pow_succ, Nat.mul_comm]

/-- Two texts, each written in the direction. -/
theorem both_out (d : Direction) (a b p : Bytes) : both d (fun p => out d p a) (fun p => out d p b) p = out d p (a ++ b) := by
  cases d
  · exact List.append_assoc p a b
  · exact (List.append_assoc a b p).symm

/-- What is printed one after another, forward or backward, is printed as one text. -/
theorem both_eq {d : Direction} {first second : Bytes → Bytes} {a b : Bytes} (h : ∀ p, first p = out d p a)
    (h' : ∀ p, second p = out d p b) (p : Bytes) : both d first second p = out d p (a ++ b) := by
  rw [funext h, funext h', both_out]

/-- `tail` writes a number at all of its places. -/
theorem tail_eq (d : Direction) : ∀ {k u : Nat}, k < 3 → u < pow10 k * pow10 k → ∀ p, tail d k u p = out d p (fixed (2 * 2 ^ k) u) := by
  intro k
  induction k with
  | zero => exact fun _ hu p => congrArg (out d p) (dd_eq hu)
  | succ k ih =>
    intro u hk hu p
    obtain ⟨hsq, hfit, hwide, -⟩ := sizes (k := k) (by omega)
    have hpos : 0 < pow10 (k + 1) := Nat.pow_pos (by decide)
    have hq : u / pow10 (k + 1) < pow10 (k + 1) := Nat.div_lt_of_lt_mul hu
    have hr : u % pow10 (k + 1) < pow10 (k + 1) := Nat.mod_lt _ hpos
    have htext : fixed (2 * 2 ^ k) (u / pow10 (k + 1)) ++ fixed (2 * 2 ^ k) (u % pow10 (k + 1)) = fixed (2 * 2 ^ (k + 1)) u := by
      rw [pow10_eq, fixed_split, Nat.pow_succ]
      congr 1
      omega
    rw [tail, split_eq (by omega) (Nat.lt_of_lt_of_le hu hwide), ← htext]
    simp only [Nat.mod_eq_of_lt (Nat.lt_of_lt_of_le hq hfit)]
    exact both_eq (ih (by omega) (hq.trans_eq hsq)) (ih (by omega) (hr.trans_eq hsq)) p

/-- `head` writes a number without leading zeros. -/
theorem head_eq (d : Direction) : ∀ {k u : Nat}, k < 3 → u < pow10 k * pow10 k → ∀ p, head d k u p = out d p (decimal u) := by
  intro k
  induction k with
  | zero =>
    intro u _ hu p
    by_cases h : u < 10
    · rw [head, if_pos h, decimal_of_lt h]
    · rw [head, if_neg h, dd_eq hu, decimal_eq_fixed (k := 1) (by omega) hu]
  | succ k ih =>
    intro u hk hu p
    obtain ⟨hsq, hfit, hwide, -⟩ := sizes (k := k) (by omega)
    have hpos : 0 < pow10 (k + 1) := Nat.pow_pos (by decide)
    by_cases h : u < pow10 (k + 1)
    · rw [head, if_pos h, Nat.mod_eq_of_lt (Nat.lt_of_lt_of_le h hfit), ih (by omega) (h.trans_eq hsq)]
    · have hq : u / pow10 (k + 1) < pow10 (k + 1) := Nat.div_lt_of_lt_mul hu
      have hr : u % pow10 (k + 1) < pow10 (k + 1) := Nat.mod_lt _ hpos
      have htext : decimal (u / pow10 (k + 1) : Nat) ++ fixed (2 * 2 ^ k) (u % pow10 (k + 1)) = decimal u := by
        rw [pow10_eq] at h ⊢
        exact decimal_split (Nat.not_lt.mp h)
      rw [head, if_neg h, split_eq (by omega) (Nat.lt_of_lt_of_le hu hwide), ← htext]
      simp only [Nat.mod_eq_of_lt (Nat.lt_of_lt_of_le hq hfit)]
      exact both_eq (ih (by omega) (hq.trans_eq hsq)) (tail_eq d (by omega) (hr.trans_eq hsq)) p

/-- A number with more digits than two halves have. -/
theorem large_eq (d : Direction) {k u : Nat} (hk : k < 2) (hu : u < 2 ^ width (k + 1)) (hle : pow10 (k + 1) * pow10 (k + 1) ≤ u)
    (p : Bytes) : large d k ⟨u / pow10 (k + 1), u % pow10 (k + 1)⟩ p = out d p (decimal u) := by
  obtain ⟨hsq, hfit, hwide, hcube⟩ := sizes hk
  have hpos : 0 < pow10 (k + 1) := Nat.pow_pos (by decide)
  have hq : u / pow10 (k + 1) / pow10 (k + 1) < pow10 (k + 1) := by
    rw [Nat.div_div_eq_div_mul]
    exact Nat.div_lt_of_lt_mul (by rw [Nat.mul_comm, ← Nat.mul_assoc, Nat.mul_assoc]; exact Nat.lt_of_lt_of_le hu hcube)
  have hr : u / pow10 (k + 1) % pow10 (k + 1) < pow10 (k + 1) := Nat.mod_lt _ hpos
  have hr' : u % pow10 (k + 1) < pow10 (k + 1) := Nat.mod_lt _ hpos
  have hge : pow10 (k + 1) ≤ u / pow10 (k + 1) := (Nat.le_div_iff_mul_le hpos).mpr hle
  have htext : decimal (u / pow10 (k + 1) / pow10 (k + 1) : Nat) ++ fixed (2 * 2 ^ k) (u / pow10 (k + 1) % pow10 (k + 1)) ++
      fixed (2 * 2 ^ k) (u % pow10 (k + 1)) = decimal u := by
    have hge' : pow10 (k + 1) ≤ u := hge.trans (Nat.div_le_self _ _)
    rw [pow10_eq] at hge hge' ⊢
    rw [decimal_split hge, decimal_split hge']
  have hdiv : u / pow10 (k + 1) < 2 ^ width (k + 1) := Nat.lt_of_le_of_lt (Nat.div_le_self _ _) hu
  rw [large, split_eq hk hdiv, ← htext]
  simp only [Nat.mod_eq_of_lt (Nat.lt_of_lt_of_le hq hfit)]
  exact both_eq (both_eq (head_eq d (by omega) (hq.trans_eq hsq)) (tail_eq d (by omega) (hr.trans_eq hsq)))
    (tail_eq d (by omega) (hr'.trans_eq hsq)) p

/-- `itoa` of an unsigned number of one, two or four bytes. -/
theorem itoa_eq (d : Direction) {k u : Nat} (hk : k < 3) (hu : u < 2 ^ width k) (p : Bytes) : itoa d k u p = out d p (decimal u) := by
  cases k with
  | zero =>
    have hu' : u < 256 := hu
    by_cases h10 : u < 10
    · rw [itoa, if_pos h10, decimal_of_lt h10]
    · by_cases h100 : u < 100
      · rw [itoa, if_neg h10, if_pos h100, dd_eq h100, decimal_eq_fixed (k := 1) (by omega) h100]
      · rw [itoa, if_neg h10, if_neg h100, dd_eq (Nat.mod_lt _ (by decide)), ← decimal_of_lt (u := u / 100) (by omega), both_out]
        exact congrArg (out d p) (decimal_split (k := 2) (u := u) (by omega))
  | succ k =>
    obtain ⟨hsq, hfit, -⟩ := sizes (k := k) (by omega)
    by_cases h : u < pow10 (k + 1)
    · rw [itoa, if_pos h, Nat.mod_eq_of_lt (Nat.lt_of_lt_of_le h hfit), head_eq _ (by omega) (h.trans_eq hsq)]
    · rw [itoa, if_neg h]
      by_cases hle : u < pow10 (k + 1) * pow10 (k + 1)
      · have hhead := head_eq d hk hle p
        rw [head, if_neg h] at hhead
        rw [if_pos hle, hhead]
      · rw [if_neg hle, split_eq (by omega) hu]
        exact large_eq d (by omega) hu (Nat.not_lt.mp hle) p

/-- The absolute value of every number of the type, the least one included. -/
theorem magnitude_toNat {w : Nat} {i : Int} (hlo : -2 ^ w < i) (hhi : i < 2 ^ w) : (magnitude w i).toNat = i.natAbs := by
  have hof : ∀ n : Int, 0 ≤ n → n < 2 ^ w → (BitVec.ofInt w n).toNat = n.natAbs := by
    intro n h0 hlt
    rw [BitVec.toNat_ofInt, Int.emod_eq_of_lt h0 (by exact_mod_cast hlt)]
    omega
  by_cases h : i < 0
  · have hneg : magnitude w i = BitVec.ofInt w (-i) := by
      simp [magnitude, h, BitVec.ofInt_neg]
    rw [hneg, hof _ (by omega) (by omega), Int.natAbs_neg]
  · have hpos : magnitude w i = BitVec.ofInt w i := by
      rw [magnitude, if_neg h, BitVec.not_zero, BitVec.and_allOnes, BitVec.two_mul, BitVec.add_sub_cancel]
    rw [hpos, hof _ (by omega) hhi]

/-- A negative number is a sign and its absolute value. -/
theorem decimal_neg {i : Int} (h : i < 0) : decimal i = HYPHEN :: decimal (i.natAbs : Int) := by
  obtain ⟨n, rfl⟩ := Int.eq_negSucc_of_lt_zero h
  rw [decimal_negSucc, Int.natAbs_negSucc]

/-- `itoa` of a signed number. -/
theorem itoaSigned_eq (d : Direction) {k : Nat} (hk : k < 3) {i : Int} (hlo : -2 ^ (width k - 1) ≤ i) (hhi : i < 2 ^ (width k - 1))
    (p : Bytes) : itoaSigned d k i p = out d p (decimal i) := by
  have hpow : (2 : Int) ^ width k = 2 * 2 ^ (width k - 1) := by
    have hwidth : 0 < width k := Nat.mul_pos (by decide) (Nat.pow_pos (by decide))
    rw [← pow_succ', Nat.sub_add_cancel hwidth]
  have hpos : (0 : Int) < 2 ^ (width k - 1) := Int.pow_pos (by decide)
  have habs : (magnitude (width k) i).toNat = i.natAbs := magnitude_toNat (by omega) (by omega)
  have hlt : i.natAbs < 2 ^ width k := by
    have hcast : (i.natAbs : Int) < 2 ^ width k := by omega
    exact_mod_cast hcast
  unfold itoaSigned
  by_cases h : i < 0
  · simp only [habs, if_pos h]
    cases d
    · simp only
      rw [itoa_eq _ hk hlt, decimal_neg h]
      exact List.append_assoc ..
    · simp only
      rw [itoa_eq _ hk hlt, decimal_neg h]
      rfl
  · have hnat : (i.natAbs : Int) = i := by omega
    simp only [habs, if_neg h]
    cases d <;> simp only [itoa_eq _ hk hlt, hnat]

/-- **`itoa_fwd` and `itoa_rev`.** Every number of one, two or four bytes, signed or not, is written in decimal. -/
theorem itoa_prints (d : Direction) {k : Nat} (hk : k < 3) (p : Bytes) :
    (∀ u < 2 ^ width k, itoa d k u p = out d p (decimal (u : Int))) ∧
      ∀ i : Int, -2 ^ (width k - 1) ≤ i → i < 2 ^ (width k - 1) → itoaSigned d k i p = out d p (decimal i) :=
  ⟨fun _ hu => itoa_eq d hk hu p, fun _ hlo hhi => itoaSigned_eq d hk hlo hhi p⟩

theorem itoa_prints_int : (∀ u < 2 ^ width 2, itoa .fwd 2 u [] = decimal (u : Int)) ∧
    ∀ i : Int, -2 ^ (width 2 - 1) ≤ i → i < 2 ^ (width 2 - 1) → itoaSigned .fwd 2 i [] = decimal i :=
  itoa_prints .fwd (by decide) []

/-- The length of a response is written as `build_response_str` says. -/
theorem itoaSigned_contentSize (res : Response) : itoaSigned .fwd 2 res.contentSize [] = decimal res.contentSize := by
  have hwidth : width 2 - 1 = 31 := rfl
  refine (itoaSigned_eq .fwd (by decide) ?_ ?_ []).trans (List.nil_append _)
  · rw [hwidth]
    unfold Response.contentSize
    omega
  · rw [hwidth]
    unfold Response.contentSize
    omega

/-! ## `xtoa` -/

/-- The character of a digit of a radix up to 36. -/
def radixChar (rem : Nat) : UInt8 := if rem < 10 then UInt8.ofNat (48 + rem) else UInt8.ofNat (65 + rem - 10)

/-- The digits, the last one first. A number of 64 bits has no more than 64 of them. -/
def xtoaDigits (radix : Nat) : Nat → Nat → Bytes → Bytes
  | 0, _, sp => sp
  | fuel + 1, uval, sp =>
    let sp := sp ++ [radixChar (uval % radix)]
    if 0 < uval / radix then xtoaDigits radix fuel (uval / radix) sp else sp

/-- The characters between two positions are turned around in place. -/
def xtoaReverse (buf : Bytes) (sp2 sp : Nat) : Bytes :=
  if sp2 < sp then xtoaReverse ((buf.set sp2 (buf.getD sp 0)).set sp (buf.getD sp2 0)) (sp2 + 1) (sp - 1) else buf
termination_by sp - sp2

/-- `xtoa`. The source negates the least number too, which C++ leaves undefined: here it wraps around, as processors have it. -/
def xtoa (sval : Int) (radix : Nat) (signedp : Bool) : Bytes :=
  let minus := signedp = true ∧ radix = 10 ∧ sval < 0
  let uval := if minus then ((-sval) % 18446744073709551616).toNat else (sval % 18446744073709551616).toNat
  let sign : Bytes := if minus then [HYPHEN] else []
  let text := xtoaDigits radix 64 uval sign
  xtoaReverse text sign.length (text.length - 1)

/-- The digits are those of the numeral, turned around. -/
theorem xtoaDigits_eq {radix : Nat} (hr : 2 ≤ radix) : ∀ (fuel uval : Nat) (sp : Bytes), uval < radix ^ fuel → 0 < fuel →
    xtoaDigits radix fuel uval sp = sp ++ ((numeral radix uval).map radixChar).reverse := by
  intro fuel
  induction fuel with
  | zero => exact fun _ _ _ h => absurd h (Nat.lt_irrefl 0)
  | succ fuel ih =>
    intro uval sp hlt _
    by_cases h : uval < radix
    · rw [xtoaDigits, Nat.div_eq_of_lt h, if_neg (Nat.lt_irrefl 0), numeral_of_lt h, Nat.mod_eq_of_lt h]
      rfl
    · have hpos : 0 < uval / radix := Nat.div_pos (by omega) (by omega)
      have hnext : uval / radix < radix ^ fuel := Nat.div_lt_of_lt_mul (by rwa [← pow_succ'])
      have hfuel : 0 < fuel := by
        rcases Nat.eq_zero_or_pos fuel with rfl | hf
        · rw [pow_zero] at hnext
          omega
        · exact hf
      rw [xtoaDigits, if_pos hpos, ih _ _ hnext hfuel, numeral_of_le hr (n := uval) (by omega)]
      simp

/-- The character in the middle of a text. -/
theorem getD_middle (s : Bytes) (c : UInt8) (t : Bytes) : (s ++ c :: t).getD s.length 0 = c := by
  simp [List.getD_eq_getElem?_getD]

/-- The character in the middle of a text is written. -/
theorem set_middle (s : Bytes) (c c' : UInt8) (t : Bytes) : (s ++ c :: t).set s.length c' = s ++ c' :: t := by
  simp

/-- The characters in the middle of a text are turned around. -/
theorem xtoaReverse_eq (mid : Bytes) : ∀ pre post : Bytes,
    xtoaReverse (pre ++ mid ++ post) pre.length (pre.length + mid.length - 1) = pre ++ mid.reverse ++ post := by
  induction mid using List.bidirectionalRec with
  | nil =>
    intro pre post
    rw [xtoaReverse, if_neg (by rw [List.length_nil]; omega)]
    rfl
  | singleton x =>
    intro pre post
    rw [xtoaReverse, if_neg (by rw [List.length_singleton]; omega)]
    rfl
  | cons_append x m y ih =>
    intro pre post
    have hlen : pre.length + (x :: (m ++ [y])).length - 1 = (pre ++ x :: m).length := by
      simp only [List.length_cons, List.length_append, List.length_nil]
      omega
    have hbuf : pre ++ x :: (m ++ [y]) ++ post = (pre ++ x :: m) ++ y :: post := by simp
    have hfirst : (pre ++ x :: m) ++ y :: post = pre ++ x :: (m ++ y :: post) := by simp
    have hset : pre ++ y :: (m ++ y :: post) = (pre ++ y :: m) ++ y :: post := by simp
    have hsize : (pre ++ x :: m).length = (pre ++ y :: m).length := by simp
    have hnext : (pre ++ [y]) ++ m ++ x :: post = (pre ++ y :: m) ++ x :: post := by simp
    have hstart : pre.length + 1 = (pre ++ [y]).length := by rw [List.length_append, List.length_singleton]
    have hend : (pre ++ y :: m).length - 1 = (pre ++ [y]).length + m.length - 1 := by
      rw [List.length_append, List.length_append, List.length_cons, List.length_singleton, Nat.add_assoc, Nat.add_comm 1]
    rw [hlen, hbuf, xtoaReverse, if_pos (by rw [List.length_append, List.length_cons]; omega), getD_middle, hfirst, getD_middle,
      set_middle, hset, hsize, set_middle, ← hnext, hstart, hend, ih]
    simp

/-- **`xtoa`.** A number of 64 bits is written as the numeral of its radix; a signed one in decimal with its sign. -/
theorem xtoa_eq : (∀ (sval : Int) {radix : Nat}, 2 ≤ radix →
      xtoa sval radix false = (numeral radix (sval % 18446744073709551616).toNat).map radixChar) ∧
    ∀ sval : Int, -9223372036854775808 ≤ sval → sval < 9223372036854775808 → xtoa sval 10 true = decimal sval := by
  have key : ∀ (sign : Bytes) {radix uval : Nat}, 2 ≤ radix → uval < 18446744073709551616 →
      xtoaReverse (xtoaDigits radix 64 uval sign) sign.length ((xtoaDigits radix 64 uval sign).length - 1) =
        sign ++ (numeral radix uval).map radixChar := by
    intro sign radix uval hr hlt
    have hpow : uval < radix ^ 64 := by
      have hle := Nat.pow_le_pow_left hr 64
      omega
    have hrev := xtoaReverse_eq ((numeral radix uval).map radixChar).reverse sign []
    rw [List.append_nil, List.append_nil, List.reverse_reverse] at hrev
    rw [xtoaDigits_eq hr 64 uval sign hpow (by decide), List.length_append, hrev]
  have hten : ∀ n : Nat, (numeral 10 n).map radixChar = decimal n := by
    intro n
    rw [decimal_eq_numeral]
    refine List.map_congr_left fun d hd => ?_
    rw [radixChar, if_pos (numeral_lt (by decide) n d hd)]
    rfl
  constructor
  · intro sval radix hr
    unfold xtoa
    simp only [Bool.false_eq_true, false_and, if_false]
    exact key [] hr (by omega)
  · intro sval hlo hhi
    unfold xtoa
    by_cases h : sval < 0
    · simp only [h, and_self, if_true]
      rw [key [HYPHEN] (by decide) (by omega), hten, decimal_neg h, List.singleton_append]
      congr 3
      omega
    · simp only [h, and_false, if_false]
      rw [key [] (by decide) (by omega), hten, List.nil_append]
      congr 1
      omega

theorem xtoa_eq_least : xtoa (-1) 16 false = (numeral 16 ((-1 : Int) % 18446744073709551616).toNat).map radixChar ∧
    xtoa (-9223372036854775808) 10 true = decimal (-9223372036854775808) :=
  ⟨xtoa_eq.1 (-1) (by decide), xtoa_eq.2 _ (by decide) (by decide)⟩

end Itoa

end Netcore
