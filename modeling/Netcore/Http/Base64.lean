import Netcore.Http.PercentEncoding
import Netcore.Lib.Sextets

/-!
# Base 64

The encoder of `utils.hpp`, with its two alphabets, and the class `Base64` of `lib/base64.hpp`. Both encoders write the sextets of a text
(`base64Encode_eq`, `encode_eq`), and `Decode` joins the sextets that it finds, whatever stands between them. A `Decode` of a string is
given its length as an `int`, and behind the string there is a NUL.
-/

namespace Netcore

open Sextets

namespace Base64

/-- `MAP`, which is also `_base64_table`. -/
def MAP : Bytes := bytes "ABCDEFGHIJKLMNOPQRSTUVWXYZabcdefghijklmnopqrstuvwxyz0123456789+/"

/-- `MAP_URL_ENCODED`. -/
def MAP_URL_ENCODED : Bytes := bytes "ABCDEFGHIJKLMNOPQRSTUVWXYZabcdefghijklmnopqrstuvwxyz0123456789-_"

/-- `map[i]`. -/
def letter (map : Bytes) (i : Nat) : UInt8 := map.getD i 0

def alphabet (urlEncoded : Bool) : Bytes := if urlEncoded then MAP_URL_ENCODED else MAP

/-- `base64_encode`: what is written before the final NUL. -/
def base64Encode (urlEncoded : Bool) : Bytes → Bytes
  | a :: b :: c :: src =>
    let quad : UInt32 := (a.toUInt32 <<< 16) ||| (b.toUInt32 <<< 8) ||| c.toUInt32
    [letter (alphabet urlEncoded) (quad >>> 18).toNat, letter (alphabet urlEncoded) ((quad >>> 12) &&& 63).toNat,
      letter (alphabet urlEncoded) ((quad >>> 6) &&& 63).toNat, letter (alphabet urlEncoded) (quad &&& 63).toNat] ++
        base64Encode urlEncoded src
  | [a, b] =>
    let quad : UInt32 := a.toUInt32 <<< 16
    let first := letter (alphabet urlEncoded) (quad >>> 18).toNat
    let quad := quad ||| (b.toUInt32 <<< 8)
    [first, letter (alphabet urlEncoded) ((quad >>> 12) &&& 63).toNat, letter (alphabet urlEncoded) ((quad >>> 6) &&& 63).toNat] ++
      if urlEncoded then [] else bytes "="
  | [a] =>
    let quad : UInt32 := a.toUInt32 <<< 16
    [letter (alphabet urlEncoded) (quad >>> 18).toNat, letter (alphabet urlEncoded) ((quad >>> 12) &&& 63).toNat] ++
      if urlEncoded then [] else bytes "=="
  | [] => []

/-- `Base64::Encode`, on the bytes that are left. -/
def encode : Bytes → Bytes
  | a :: b :: c :: current =>
    [letter MAP (a.toNat >>> 2), letter MAP (((a.toNat &&& 0x03) <<< 4) + (b.toNat >>> 4)),
      letter MAP (((b.toNat &&& 0x0f) <<< 2) + (c.toNat >>> 6)), letter MAP (c.toNat &&& 0x3f)] ++ encode current
  | [a, b] =>
    [letter MAP (a.toNat >>> 2), letter MAP (((a.toNat &&& 0x03) <<< 4) + (b.toNat >>> 4)), letter MAP ((b.toNat &&& 0x0f) <<< 2)] ++
      bytes "="
  | [a] => [letter MAP (a.toNat >>> 2), letter MAP ((a.toNat &&& 0x03) <<< 4)] ++ bytes "=="
  | [] => []

/-- The first half of `DecodeTable`. The entries of the other half are -2, and they are never read: a `char` from 128 on is negative as an
index. -/
def decodeTable : List Int :=
  [-2, -2, -2, -2, -2, -2, -2, -2, -2, -1, -1, -2, -2, -1, -2, -2,
   -2, -2, -2, -2, -2, -2, -2, -2, -2, -2, -2, -2, -2, -2, -2, -2,
   -1, -2, -2, -2, -2, -2, -2, -2, -2, -2, -2, 62, -2, -2, -2, 63,
   52, 53, 54, 55, 56, 57, 58, 59, 60, 61, -2, -2, -2, -2, -2, -2,
   -2, 0, 1, 2, 3, 4, 5, 6, 7, 8, 9, 10, 11, 12, 13, 14,
   15, 16, 17, 18, 19, 20, 21, 22, 23, 24, 25, -2, -2, -2, -2, -2,
   -2, 26, 27, 28, 29, 30, 31, 32, 33, 34, 35, 36, 37, 38, 39, 40,
   41, 42, 43, 44, 45, 46, 47, 48, 49, 50, 51, -2, -2, -2, -2, -2]

/-- What `Decode` comes to: a string, the exception of a string made from a null pointer, or a read before the table. -/
inductive Decoded where
  | text (s : Bytes)
  | threw
  | outOfTable
  deriving DecidableEq, Repr

/-- The loop of `Decode`. -/
def decodeLoop (i bin : Nat) (result : Bytes) (length : Int) : Bytes → Decoded
  | [] => .text result
  | ch :: current =>
    if ch = 0 ∨ length ≤ 0 then .text result
    else if ch = 61 then
      if current.headD 0 ≠ 61 ∧ i % 4 = 1 then .threw else decodeLoop i bin result (length - 1) current
    else if 127 < ch then .outOfTable
    else
      let v := decodeTable.getD ch.toNat 0
      if v < 0 then decodeLoop i bin result (length - 1) current
      else
        let x := v.toNat
        if i % 4 = 0 then decodeLoop (i + 1) (x <<< 2) result (length - 1) current
        else if i % 4 = 1 then
          decodeLoop (i + 1) ((x &&& 0x0f) <<< 4) (result ++ [UInt8.ofNat (bin ||| (x >>> 4))]) (length - 1) current
        else if i % 4 = 2 then
          decodeLoop (i + 1) ((x &&& 0x03) <<< 6) (result ++ [UInt8.ofNat (bin ||| (x >>> 2))]) (length - 1) current
        else decodeLoop (i + 1) (bin ||| x) (result ++ [UInt8.ofNat (bin ||| x)]) (length - 1) current

/-- `Base64::Decode`. -/
def decode (str : Bytes) (length : Int) : Decoded := decodeLoop 0 0 [] length str

/-! ## What the encoders write -/

/-- A number and one that fits below it are added by `|`. -/
theorem add_eq_or {m k n : Nat} (hn : n < 2 ^ k) : m * 2 ^ k + n = m * 2 ^ k ||| n := by
  rw [← Nat.shiftLeft_eq]
  exact Nat.shiftLeft_add_eq_or_of_lt hn m

/-- Three octets side by side, as a number. -/
theorem toNat_quad (a b c : UInt8) :
    ((a.toUInt32 <<< 16) ||| (b.toUInt32 <<< 8) ||| c.toUInt32).toNat = a.toNat * 65536 + b.toNat * 256 + c.toNat := by
  have ha : a.toNat < 256 := a.toNat_lt
  have hb : b.toNat < 256 := b.toNat_lt
  have hc : c.toNat < 256 := c.toNat_lt
  have hab : a.toNat * 65536 + b.toNat * 256 = a.toNat * 65536 ||| b.toNat * 256 :=
    add_eq_or (k := 16) (by generalize b.toNat = n at hb; omega)
  have habc : (a.toNat * 256 + b.toNat) * 256 + c.toNat = (a.toNat * 256 + b.toNat) * 256 ||| c.toNat := add_eq_or (k := 8) hc
  rw [Nat.add_mul, Nat.mul_assoc, hab] at habc
  rw [hab, UInt32.toNat_or, UInt32.toNat_or, UInt32.toNat_shiftLeft, UInt32.toNat_shiftLeft, UInt8.toNat_toUInt32, UInt8.toNat_toUInt32,
    UInt8.toNat_toUInt32, Nat.shiftLeft_eq, Nat.shiftLeft_eq]
  change a.toNat * 65536 % 4294967296 ||| b.toNat * 256 % 4294967296 ||| c.toNat = _
  rw [Nat.mod_eq_of_lt (by omega), Nat.mod_eq_of_lt (by omega)]
  exact habc.symm

/-- A shift to the right divides. -/
theorem toNat_shiftRight (q : UInt32) (k : UInt32) (hk : k.toNat < 32) : (q >>> k).toNat = q.toNat / 2 ^ k.toNat := by
  rw [UInt32.toNat_shiftRight, Nat.mod_eq_of_lt hk, Nat.shiftRight_eq_div_pow]

/-- The mask of six bits is a remainder. -/
theorem toNat_and (q : UInt32) : (q &&& 63).toNat = q.toNat % 64 := by
  rw [UInt32.toNat_and]
  exact Nat.and_two_pow_sub_one_eq_mod _ 6

/-- The index of a letter: one of the four digits to the base 64. -/
theorem letter_index (q : UInt32) {k : UInt32} (hk : k.toNat < 32) : ((q >>> k) &&& 63).toNat = q.toNat / 2 ^ k.toNat % 64 := by
  rw [toNat_and, toNat_shiftRight _ _ hk]

/-- Two octets side by side, with the third place empty. -/
theorem toNat_quad_two (a b : UInt8) : ((a.toUInt32 <<< 16) ||| (b.toUInt32 <<< 8)).toNat = a.toNat * 65536 + b.toNat * 256 := by
  have h := toNat_quad a b 0
  simpa using h

/-- One octet, with two places empty. -/
theorem toNat_quad_one (a : UInt8) : (a.toUInt32 <<< 16).toNat = a.toNat * 65536 := by
  have h := toNat_quad a 0 0
  simpa using h

/-- What the loop and the two tails write is the letters of the sextets and the padding, none for a URL. -/
theorem base64Encode_eq (urlEncoded : Bool) (src : Bytes) : base64Encode urlEncoded src =
    (sextets src).map (letter (alphabet urlEncoded)) ++ if urlEncoded then [] else List.replicate (missing src.length) 61 := by
  fun_induction base64Encode urlEncoded src with
  | case1 a b c src quad ih =>
    have ha := a.toNat_lt
    have hb := b.toNat_lt
    have hc := c.toNat_lt
    have hquad : quad.toNat = _ := toNat_quad a b c
    have h18 : (quad >>> 18).toNat = a.toNat / 4 := by
      rw [toNat_shiftRight _ _ (by decide), hquad]
      show _ / 262144 = _
      omega
    have h12 : ((quad >>> 12) &&& 63).toNat = a.toNat % 4 * 16 + b.toNat / 16 := by
      rw [letter_index _ (by decide), hquad]
      show _ / 4096 % 64 = _
      omega
    have h6 : ((quad >>> 6) &&& 63).toNat = b.toNat % 16 * 4 + c.toNat / 64 := by
      rw [letter_index _ (by decide), hquad]
      show _ / 64 % 64 = _
      omega
    have h0 : (quad &&& 63).toNat = c.toNat % 64 := by
      rw [toNat_and, hquad]
      omega
    have hmissing : missing (a :: b :: c :: src).length = missing src.length := by
      simp only [missing, List.length_cons]
      omega
    rw [h18, h12, h6, h0, ih, sextets, hmissing, List.map_append, List.append_assoc]
    rfl
  | case2 a b quad first quad' =>
    have ha := a.toNat_lt
    have hb := b.toNat_lt
    have hquad : quad.toNat = _ := toNat_quad_one a
    have hquad' : quad'.toNat = _ := toNat_quad_two a b
    have h18 : (quad >>> 18).toNat = a.toNat / 4 := by
      rw [toNat_shiftRight _ _ (by decide), hquad]
      show _ / 262144 = _
      omega
    have h12 : ((quad' >>> 12) &&& 63).toNat = a.toNat % 4 * 16 + b.toNat / 16 := by
      rw [letter_index _ (by decide), hquad']
      show _ / 4096 % 64 = _
      omega
    have h6 : ((quad' >>> 6) &&& 63).toNat = b.toNat % 16 * 4 := by
      rw [letter_index _ (by decide), hquad']
      show _ / 64 % 64 = _
      omega
    simp only [first]
    rw [h18, h12, h6]
    rfl
  | case3 a quad =>
    have ha := a.toNat_lt
    have hquad : quad.toNat = _ := toNat_quad_one a
    have h18 : (quad >>> 18).toNat = a.toNat / 4 := by
      rw [toNat_shiftRight _ _ (by decide), hquad]
      show _ / 262144 = _
      omega
    have h12 : ((quad >>> 12) &&& 63).toNat = a.toNat % 4 * 16 := by
      rw [letter_index _ (by decide), hquad]
      show _ / 4096 % 64 = _
      omega
    rw [h18, h12]
    rfl
  | case4 => cases urlEncoded <;> rfl

/-- The masks of the decoder are remainders. -/
theorem index_and (n : Nat) : n &&& 0x03 = n % 4 ∧ n &&& 0x0f = n % 16 ∧ n &&& 0x3f = n % 64 :=
  ⟨Nat.and_two_pow_sub_one_eq_mod n 2, Nat.and_two_pow_sub_one_eq_mod n 4, Nat.and_two_pow_sub_one_eq_mod n 6⟩

/-- Its shifts to the right divide. -/
theorem index_shiftRight (n : Nat) : n >>> 2 = n / 4 ∧ n >>> 4 = n / 16 ∧ n >>> 6 = n / 64 :=
  ⟨Nat.shiftRight_eq_div_pow n 2, Nat.shiftRight_eq_div_pow n 4, Nat.shiftRight_eq_div_pow n 6⟩

/-- Its shifts to the left multiply. -/
theorem index_shiftLeft (n : Nat) : n <<< 2 = n * 4 ∧ n <<< 4 = n * 16 ∧ n <<< 6 = n * 64 :=
  ⟨Nat.shiftLeft_eq n 2, Nat.shiftLeft_eq n 4, Nat.shiftLeft_eq n 6⟩

/-- `Encode` writes the letters of the sextets. -/
theorem encode_eq (src : Bytes) : encode src = (sextets src).map (letter MAP) ++ List.replicate (missing src.length) 61 := by
  fun_induction encode src with
  | case1 a b c current ih =>
    have hmissing : missing (a :: b :: c :: current).length = missing current.length := by
      simp only [missing, List.length_cons]
      omega
    rw [ih, sextets, hmissing, List.map_append, List.append_assoc, (index_shiftRight a.toNat).1, (index_and a.toNat).1,
      (index_shiftLeft _).2.1, (index_shiftRight b.toNat).2.1, (index_and b.toNat).2.1, (index_shiftLeft _).1,
      (index_shiftRight c.toNat).2.2, (index_and c.toNat).2.2]
    rfl
  | case2 a b =>
    rw [(index_shiftRight a.toNat).1, (index_and a.toNat).1, (index_shiftLeft _).2.1, (index_shiftRight b.toNat).2.1,
      (index_and b.toNat).2.1, (index_shiftLeft _).1]
    rfl
  | case3 a =>
    rw [(index_shiftRight a.toNat).1, (index_and a.toNat).1, (index_shiftLeft _).2.1]
    rfl
  | case4 => rfl

/-! ## Decoding -/

/-- The value of a character of the alphabet. -/
def value (c : UInt8) : Option Nat :=
  let v := decodeTable.getD c.toNat 0
  if 127 < c ∨ v < 0 then none else some v.toNat

/-- The state of the loop fits: the bits that are still to come are free. -/
def Fits (s : Joined) : Prop :=
  (s.count % 4 = 1 → s.bits % 4 = 0) ∧ (s.count % 4 = 2 → s.bits % 16 = 0) ∧ (s.count % 4 = 3 → s.bits % 64 = 0)

/-- A number and one that fits below it, put together by `|`, are added. -/
theorem or_eq_add {m n k : Nat} (hm : m % 2 ^ k = 0) (hn : n < 2 ^ k) : m ||| n = m + n := by
  have h := Nat.shiftLeft_add_eq_or_of_lt hn (m / 2 ^ k)
  rw [Nat.shiftLeft_eq, Nat.div_mul_cancel (Nat.dvd_of_mod_eq_zero hm)] at h
  exact h.symm

/-- No value of the table is more than a sextet. -/
theorem table_lt : decodeTable.all (fun v => decide (v < 64)) = true := by decide

/-- The value of a letter is below 64. -/
theorem value_lt {c : UInt8} {x : Nat} (h : value c = some x) : x < 64 := by
  have hall : ∀ v ∈ decodeTable, v < 64 := fun v hv => of_decide_eq_true (List.all_eq_true.mp table_lt v hv)
  unfold value at h
  simp only at h
  by_cases hc : 127 < c ∨ decodeTable.getD c.toNat 0 < 0
  · rw [if_pos hc] at h
    exact absurd h (by simp)
  · rw [if_neg hc, Option.some.injEq] at h
    have hlt : decodeTable.getD c.toNat 0 < 64 := by
      rw [List.getD_eq_getElem?_getD]
      cases hget : decodeTable[c.toNat]? with
      | none => decide
      | some v => exact hall v (List.mem_of_getElem? hget)
    omega

/-- A step of the loop leaves room for the next sextet. -/
theorem fits_step (s : Joined) (x : Nat) : Fits (s.step x) := by
  obtain ⟨n, bits, octets⟩ := s
  unfold Fits
  rcases (show n % 4 = 0 ∨ n % 4 = 1 ∨ n % 4 = 2 ∨ n % 4 = 3 by omega) with h | h | h | h
  · rw [step_first h]
    exact ⟨fun _ => Nat.mul_mod_left x 4, fun h' => by dsimp only at h'; omega, fun h' => by dsimp only at h'; omega⟩
  · rw [step_second h]
    exact ⟨fun h' => by dsimp only at h'; omega, fun _ => Nat.mul_mod_left _ 16, fun h' => by dsimp only at h'; omega⟩
  · rw [step_third h]
    exact ⟨fun h' => by dsimp only at h'; omega, fun h' => by dsimp only at h'; omega, fun _ => Nat.mul_mod_left _ 64⟩
  · rw [step_fourth h]
    exact ⟨fun h' => by dsimp only at h'; omega, fun h' => by dsimp only at h'; omega, fun h' => by dsimp only at h'; omega⟩

/-- The loop of `Decode`, in a state. -/
def decodeFrom (s : Joined) (length : Int) (str : Bytes) : Decoded := decodeLoop s.count s.bits s.octets length str

/-- A character of the alphabet is taken. -/
theorem decodeFrom_value {s : Joined} (hs : Fits s) {c : UInt8} {x : Nat} (hc : value c = some x) (h0 : c ≠ 0) (h61 : c ≠ 61)
    {length : Int} (hlen : 0 < length) (current : Bytes) :
    decodeFrom s length (c :: current) = decodeFrom (s.step x) (length - 1) current := by
  have hx := value_lt hc
  obtain ⟨n, bits, octets⟩ := s
  unfold value at hc
  simp only at hc
  by_cases hbad : 127 < c ∨ decodeTable.getD c.toNat 0 < 0
  · rw [if_pos hbad] at hc
    exact absurd hc (by simp)
  · rw [if_neg hbad, Option.some.injEq] at hc
    obtain ⟨h127, hneg⟩ := not_or.mp hbad
    unfold decodeFrom
    rw [decodeLoop, if_neg (not_or.mpr ⟨h0, by omega⟩), if_neg h61, if_neg h127]
    simp only
    rw [if_neg hneg, hc, (index_shiftLeft x).1, (index_and x).1, (index_and x).2.1, (index_shiftLeft _).2.1, (index_shiftLeft _).2.2,
      (index_shiftRight x).1, (index_shiftRight x).2.1]
    rcases (show n % 4 = 0 ∨ n % 4 = 1 ∨ n % 4 = 2 ∨ n % 4 = 3 by omega) with h | h | h | h
    · rw [step_first h, if_pos h]
    · rw [step_second h, if_neg (by omega), if_pos h, or_eq_add (k := 2) (hs.1 h) (by omega)]
    · rw [step_third h, if_neg (by omega), if_neg (by omega), if_pos h, or_eq_add (k := 4) (hs.2.1 h) (by omega)]
    · rw [step_fourth h, if_neg (by omega), if_neg (by omega), if_neg (by omega), or_eq_add (k := 6) (hs.2.2 h) (by omega)]

/-- Other characters are passed over. -/
theorem decodeFrom_skip {s : Joined} {c : UInt8} (hc : value c = none) (h128 : c < 128) (h0 : c ≠ 0) (h61 : c ≠ 61) {length : Int}
    (hlen : 0 < length) (current : Bytes) : decodeFrom s length (c :: current) = decodeFrom s (length - 1) current := by
  have h127 : ¬127 < c := by
    rw [UInt8.lt_iff_toNat_lt] at h128 ⊢
    have h128' : c.toNat < 128 := h128
    change ¬127 < c.toNat
    omega
  have hneg : decodeTable.getD c.toNat 0 < 0 := by
    by_contra hneg
    unfold value at hc
    simp only at hc
    rw [if_neg (not_or.mpr ⟨h127, hneg⟩)] at hc
    exact absurd hc (by simp)
  unfold decodeFrom
  rw [decodeLoop, if_neg (not_or.mpr ⟨h0, by omega⟩), if_neg h61, if_neg h127]
  simp only
  rw [if_pos hneg]

/-- What a text in base 64 is made of: the rest of it is layout. -/
def isBase64Char (c : UInt8) : Bool := c == 61 || MAP.contains c

/-- Each of the letters has its place in the alphabet as its value. -/
theorem value_letter_all : (List.range 64).all (fun x => value (letter MAP x) == some x) = true := by decide

/-- The table of the decoder is the inverse of the alphabet. -/
theorem value_letter {x : Nat} (hx : x < 64) : value (letter MAP x) = some x :=
  beq_iff_eq.mp (List.all_eq_true.mp value_letter_all x (List.mem_range.mpr hx))

/-- The table has a value for the letters of the alphabet only. -/
theorem table_letters : decodeTable.zipIdx.all (fun p => decide (p.1 < 0) || MAP.contains (UInt8.ofNat p.2)) = true := by decide

/-- The table knows the letters only. -/
theorem value_eq_none {c : UInt8} (h : isBase64Char c = false) : value c = none := by
  obtain ⟨-, hmap⟩ := Bool.or_eq_false_iff.mp h
  have hall := List.all_eq_true.mp table_letters
  unfold value
  refine if_pos ?_
  by_contra hcon
  obtain ⟨h127, hneg⟩ := not_or.mp hcon
  have hlt : c.toNat < decodeTable.length := by
    have h' : ¬127 < c.toNat := fun hc => h127 (UInt8.lt_iff_toNat_lt.mpr hc)
    change c.toNat < 128
    omega
  have hmem := hall (decodeTable[c.toNat], c.toNat) (List.mk_mem_zipIdx_iff_getElem?.mpr (List.getElem?_eq_getElem hlt))
  rw [List.getD_eq_getElem?_getD, List.getElem?_eq_getElem hlt, Option.getD_some] at hneg
  dsimp only at hmem
  rw [UInt8.ofNat_toNat, hmap, Bool.or_false, decide_eq_true_eq] at hmem
  exact hneg hmem

theorem fits_nil : Fits {} := ⟨fun _ => rfl, fun _ => rfl, fun _ => rfl⟩

/-- One more sextet is joined. -/
theorem count_step (s : Joined) (x : Nat) : (s.step x).count = s.count + 1 := by
  unfold Joined.step
  repeat' split
  all_goals rfl

/-- None of the letters is the padding. -/
theorem letter_ne_pad_all : (List.range 64).all (fun x => letter MAP x != 61) = true := by decide

/-- The padding is no letter. -/
theorem letter_ne_pad {x : Nat} (hx : x < 64) : letter MAP x ≠ 61 :=
  bne_iff_ne.mp (List.all_eq_true.mp letter_ne_pad_all x (List.mem_range.mpr hx))

/-- `=` is passed over after whole groups, and after two or three sextets. -/
theorem decodeFrom_pad {s : Joined} (hs : s.count % 4 ≠ 1) {length : Int} (hlen : 0 < length) (current : Bytes) :
    decodeFrom s length (61 :: current) = decodeFrom s (length - 1) current := by
  unfold decodeFrom
  rw [decodeLoop, if_neg (not_or.mpr ⟨by decide, by omega⟩), if_pos rfl, if_neg (fun h => hs h.2)]

/-- By induction over the text: the letters of `xs` with any bytes between them that the table knows to be none
decode to the octets. -/
theorem decodeFrom_of_filter (t : Bytes) : ∀ (s : Joined) (xs : List Nat) (k : Nat) (length : Int), Fits s →
    (∀ c ∈ t, c ≠ 0 ∧ c < 128) → t.filter isBase64Char = xs.map (letter MAP) ++ List.replicate k 61 → (∀ x ∈ xs, x < 64) →
      (s.count + xs.length) % 4 ≠ 1 → t.length ≤ length → decodeFrom s length t = .text (xs.foldl Joined.step s).octets := by
  induction t with
  | nil =>
    intro s xs k length _ _ hfilter _ _ _
    obtain ⟨hxs, -⟩ := List.append_eq_nil_iff.mp hfilter.symm
    rw [List.map_eq_nil_iff.mp hxs]
    rfl
  | cons c t ih =>
    intro s xs k length hs hchars hfilter hxs hcount hlen
    obtain ⟨⟨h0, h128⟩, hrestChars⟩ := List.forall_mem_cons.mp hchars
    have hpos : 0 < length := by
      rw [List.length_cons] at hlen
      omega
    have hlen' : t.length ≤ length - 1 := by
      rw [List.length_cons] at hlen
      omega
    by_cases hc : isBase64Char c = true
    · rw [List.filter_cons_of_pos hc] at hfilter
      cases xs with
      | nil =>
        cases k with
        | zero => exact absurd hfilter (List.cons_ne_nil _ _)
        | succ k =>
          obtain ⟨rfl, hrest⟩ := List.cons.inj hfilter
          exact (decodeFrom_pad hcount hpos t).trans (ih s [] k _ hs hrestChars hrest hxs hcount hlen')
      | cons x xs =>
        obtain ⟨rfl, hrest⟩ := List.cons.inj hfilter
        obtain ⟨hx, hxs⟩ := List.forall_mem_cons.mp hxs
        have h61 : letter MAP x ≠ 61 := letter_ne_pad hx
        rw [decodeFrom_value hs (value_letter hx) h0 h61 hpos]
        refine ih (s.step x) xs k _ (fits_step s x) hrestChars hrest hxs ?_ hlen'
        rw [List.length_cons] at hcount
        rw [count_step]
        omega
    · rw [List.filter_cons_of_neg hc] at hfilter
      have hc' := Bool.eq_false_iff.mpr hc
      have h61 : c ≠ 61 := by
        rintro rfl
        exact hc rfl
      rw [decodeFrom_skip (value_eq_none hc') h128 h0 h61 hpos]
      exact ih s xs k _ hs hrestChars hfilter hxs hcount hlen'

/-- A text whose letters are those of an encoding decodes to what was encoded. -/
theorem decode_of_filter {bs t : Bytes} {length : Int} (ht : ∀ c ∈ t, c ≠ 0 ∧ c < 128)
    (h : t.filter isBase64Char = base64Encode false bs) (hlen : t.length ≤ length) : decode t length = .text bs := by
  rw [base64Encode_eq] at h
  have hlength := length_sextets bs
  have hcount : (0 + (sextets bs).length) % 4 ≠ 1 := by
    unfold missing at hlength
    omega
  have hdecode := decodeFrom_of_filter t {} (sextets bs) (missing bs.length) length fits_nil ht h (sextets_lt bs) hcount hlen
  exact hdecode.trans (congrArg Decoded.text (foldl_step_sextets bs rfl).1)

/-- **Base 64.** The two encoders write the same text, and `Decode` gives back the octets of a text wherever lines are broken in it, when
its length is not given too small. -/
theorem decode_wrapped (bs : Bytes) : base64Encode false bs = encode bs ∧ ∀ (t : Bytes) (length : Int), (∀ c ∈ t, c ≠ 0 ∧ c < 128) →
    t.filter isBase64Char = encode bs → t.length ≤ length → decode t length = .text bs := by
  have hencode : base64Encode false bs = encode bs := by rw [base64Encode_eq, encode_eq]; rfl
  exact ⟨hencode, fun t length ht h hlen => decode_of_filter ht (h.trans hencode.symm) hlen⟩

/-- A text on two lines. -/
theorem decode_wrapped_hello : decode (bytes "aGV\r\nsbG8=") 10 = .text (bytes "hello") :=
  (decode_wrapped (bytes "hello")).2 _ 10 (by decide +kernel) (by decide +kernel) (by decide)

end Base64

end Netcore
