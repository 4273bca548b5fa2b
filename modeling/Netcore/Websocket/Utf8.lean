import Mathlib.Algebra.GroupWithZero.Nat
import Netcore.Lib.Utf8
import Netcore.Websocket.Frame

/-!
# `is_valid_utf8`

The function as it runs over memory: `s` is the sequence from the pointer on, so that `s[i]?` is `none` for a byte behind its end, and
a run that reads such a byte is `none`. Four bytes are taken at a time while none of them has its high bit, and an inner loop skips
single bytes up to one that has it.

`utf8Scan_iff` says that a run never reads behind the end, and accepts what is well formed. On the way, `utf8Scan_eq` says that the
loops are the recursion `isValidUtf8`, which is what `parseClosePayload` uses.
-/

namespace Netcore

/-- `||` of conditions that may read memory: the first one that holds ends it. -/
def anyOf : List (Option Bool) → Option Bool
  | [] => some false
  | c :: cs => do if ← c then some true else anyOf cs

/-- `&&` of a condition and one that may read memory. -/
def andThen (p : Bool) (c : Option Bool) : Option Bool := if p then c else some false

/-- A condition on `s[i]`. -/
def at? (s : Bytes) (i : Nat) (p : UInt8 → Bool) : Option Bool := s[i]?.map p

/-- The four bytes at the pointer, as a `uint32_t`. -/
def word (s : Bytes) : Option (BitVec 32) := do
  some ((← s[3]?).toBitVec ++ (← s[2]?).toBitVec ++ (← s[1]?).toBitVec ++ (← s[0]?).toBitVec)

/-- `s + 4 <= e && ((*(uint32_t *)s) & 0x80808080) == 0`. -/
def fourAscii (s : Bytes) : Option Bool :=
  if 4 ≤ s.length then do some ((← word s) &&& 0x80808080 = 0) else some false

/-- `while (!(*s & 0x80)) if (++s == e) return true`: the rest from the first byte with a high bit, and `[]` when there is none. -/
def skipAscii : Bytes → Option Bytes
  | [] => none
  | a :: s => if a &&& 0x80 = 0 then if s = [] then some [] else skipAscii s else some (a :: s)

/-- The three branches on the first byte: how far the pointer moves, or 0 for `return false`. -/
def multiByte (s : Bytes) : Option Nat := do
  let a ← s[0]?
  if a &&& 0x60 = 0x40 then
    if ← anyOf [some (s.length ≤ 1), at? s 1 fun b => b &&& 0xc0 ≠ 0x80, some (a &&& 0xfe = 0xc0)] then some 0 else some 2
  else if a &&& 0xf0 = 0xe0 then
    if ← anyOf [some (s.length ≤ 2), at? s 1 fun b => b &&& 0xc0 ≠ 0x80, at? s 2 fun c => c &&& 0xc0 ≠ 0x80,
        andThen (a = 0xe0) (at? s 1 fun b => b &&& 0xe0 = 0x80), andThen (a = 0xed) (at? s 1 fun b => b &&& 0xe0 = 0xa0)] then some 0
    else some 3
  else if a &&& 0xf8 = 0xf0 then
    if ← anyOf [some (s.length ≤ 3), at? s 1 fun b => b &&& 0xc0 ≠ 0x80, at? s 2 fun c => c &&& 0xc0 ≠ 0x80,
        at? s 3 fun d => d &&& 0xc0 ≠ 0x80, andThen (a = 0xf0) (at? s 1 fun b => b &&& 0xf0 = 0x80),
        andThen (a = 0xf4) (at? s 1 fun b => 0x8f < b), some (0xf4 < a)] then some 0
    else some 4
  else some 0

/-- The loop of `is_valid_utf8`. -/
def utf8Loop : Nat → Bytes → Option Bool
  | 0, _ => none
  | fuel + 1, s => do
    if s = [] then some true
    else if ← fourAscii s then utf8Loop fuel (s.drop 4)
    else
      let s ← skipAscii s
      if s = [] then some true
      else
        let n ← multiByte s
        if n = 0 then some false else utf8Loop fuel (s.drop n)

/-- `is_valid_utf8`, where it may read. -/
def utf8Scan (s : Bytes) : Option Bool := utf8Loop (s.length + 1) s

/-! ## Bytes -/

/-- A mask of the high bits, as a range of bytes. -/
theorem mask_iff {m v : UInt8} {lo hi : Nat} (k : Nat)
    (h : m.toNat = (2 ^ (8 - k) - 1) * 2 ^ k ∧ k ≤ 8 ∧ v.toNat = lo ∧ lo % 2 ^ k = 0 ∧ hi = lo + (2 ^ k - 1)) (b : UInt8) :
    b &&& m = v ↔ lo ≤ b.toNat ∧ b.toNat ≤ hi := by
  obtain ⟨hm, hk, hv, hlo, rfl⟩ := h
  have hpos : 0 < 2 ^ k := Nat.two_pow_pos k
  have hbyte : b.toNat / 2 ^ k < 2 ^ (8 - k) := by
    rw [Nat.div_lt_iff_lt_mul hpos, ← Nat.pow_add, Nat.sub_add_cancel hk]
    exact b.toNat_lt
  have hdiv : (b.toNat &&& m.toNat) / 2 ^ k = b.toNat / 2 ^ k := by
    rw [Nat.and_div_two_pow, hm, Nat.mul_div_cancel _ hpos, Nat.and_two_pow_sub_one_of_lt_two_pow hbyte]
  have hmod : (b.toNat &&& m.toNat) % 2 ^ k = 0 := by
    rw [Nat.and_mod_two_pow, hm, Nat.mul_mod_left, Nat.and_zero]
  have hand : b.toNat &&& m.toNat = b.toNat / 2 ^ k * 2 ^ k := by
    rw [← hdiv, Nat.div_mul_cancel (Nat.dvd_of_mod_eq_zero hmod)]
  obtain ⟨q, rfl⟩ := Nat.dvd_of_mod_eq_zero hlo
  rw [← UInt8.toNat_inj, UInt8.toNat_and, hv, hand, Nat.mul_comm (2 ^ k) q, Nat.mul_right_cancel_iff hpos,
    Nat.div_eq_iff hpos]
  omega

/-- The high bit is clear exactly for an ASCII byte. -/
theorem high_iff (a : UInt8) : a &&& 0x80 = 0 ↔ a < 0x80 := by
  have hmask : a &&& 0x80 = 0 ↔ 0 ≤ a.toNat ∧ a.toNat ≤ 0x7f := mask_iff 7 (by decide) a
  rw [hmask, UInt8.lt_iff_toNat_lt]
  change _ ↔ a.toNat < 128
  omega

/-- The tests of the first byte, in their order. -/
theorem lead_two {a : UInt8} (ha : ¬ a < 0x80) : a &&& 0x60 = 0x40 ↔ 0xc0 ≤ a.toNat ∧ a.toNat ≤ 0xdf :=
  forall_byte (p := fun a => ¬ a < 0x80 → (a &&& 0x60 = 0x40 ↔ 0xc0 ≤ a.toNat ∧ a.toNat ≤ 0xdf)) (by decide +kernel) a ha

/-- The bytes that begin a sequence of three. -/
theorem lead_three (a : UInt8) : a &&& 0xf0 = 0xe0 ↔ 0xe0 ≤ a.toNat ∧ a.toNat ≤ 0xef := mask_iff 4 (by decide) a

/-- The bytes that begin a sequence of four. -/
theorem lead_four (a : UInt8) : a &&& 0xf8 = 0xf0 ↔ 0xf0 ≤ a.toNat ∧ a.toNat ≤ 0xf7 := mask_iff 3 (by decide) a

/-! ## The loops -/

/-- Two numbers side by side are zero if both are. -/
theorem append_eq_zero {n m : Nat} {x : BitVec n} {y : BitVec m} (h : x ++ y = 0#(n + m)) : x = 0#n ∧ y = 0#m := by
  rw [← BitVec.zero_append_zero] at h
  refine ⟨?_, ?_⟩
  · rw [← BitVec.extractLsb'_append_eq_left (a := x) (b := y), h, BitVec.extractLsb'_append_eq_left]
  · rw [← BitVec.extractLsb'_append_eq_right (a := x) (b := y), h, BitVec.extractLsb'_append_eq_right]

/-- The mask tells whether one of the four bytes has its high bit. -/
theorem fourAscii_cons (a b c d : UInt8) (s : Bytes) :
    fourAscii (a :: b :: c :: d :: s) = some (decide (a < 0x80 ∧ b < 0x80 ∧ c < 0x80 ∧ d < 0x80)) := by
  have hmask : (0x80808080 : BitVec 32) = (0x80#8 ++ 0x80#8 ++ 0x80#8 ++ 0x80#8 : BitVec 32) := by decide
  have hbyte : ∀ x : UInt8, x.toBitVec &&& 0x80#8 = 0#8 ↔ x < 0x80 := fun x => by
    rw [← high_iff x, ← UInt8.toBitVec_inj]
    rfl
  have hand : (d.toBitVec ++ c.toBitVec ++ b.toBitVec ++ a.toBitVec : BitVec 32) &&& 0x80808080 =
      ((d.toBitVec &&& 0x80#8) ++ (c.toBitVec &&& 0x80#8) ++ (b.toBitVec &&& 0x80#8) ++ (a.toBitVec &&& 0x80#8) : BitVec 32) := by
    rw [hmask, ← BitVec.and_append, ← BitVec.and_append, ← BitVec.and_append]
  have hiff : (d.toBitVec ++ c.toBitVec ++ b.toBitVec ++ a.toBitVec : BitVec 32) &&& 0x80808080 = 0 ↔
      a < 0x80 ∧ b < 0x80 ∧ c < 0x80 ∧ d < 0x80 := by
    rw [hand]
    constructor
    · intro h
      obtain ⟨h, ha⟩ := append_eq_zero h
      obtain ⟨h, hb⟩ := append_eq_zero h
      obtain ⟨hd, hc⟩ := append_eq_zero h
      exact ⟨(hbyte a).mp ha, (hbyte b).mp hb, (hbyte c).mp hc, (hbyte d).mp hd⟩
    · rintro ⟨ha, hb, hc, hd⟩
      rw [(hbyte a).mpr ha, (hbyte b).mpr hb, (hbyte c).mpr hc, (hbyte d).mpr hd]
      decide
  rw [fourAscii, if_pos (by simp)]
  exact congrArg some (decide_eq_decide.mpr hiff)

/-- Where every test has been made, `anyOf` is their disjunction. -/
theorem anyOf_some (cs : List Bool) : anyOf (cs.map some) = some (cs.any id) := by
  induction cs with
  | nil => rfl
  | cons c cs ih =>
    cases c with
    | true => rfl
    | false =>
      rw [List.any_cons, id, Bool.false_or, ← ih]
      rfl

/-- Where the second test has been made, `andThen` is the conjunction. -/
theorem andThen_some (p b : Bool) : andThen p (some b) = some (p && b) := by cases p <;> rfl

/-- A byte that is a character of its own. -/
theorem isValidUtf8_one {a : UInt8} (ha : a < 0x80) (l : Bytes) : isValidUtf8 (a :: l) = isValidUtf8 l := by
  cases l with
  | nil => simp [isValidUtf8, ha]
  | cons b l => rw [isValidUtf8, if_pos ha]

/-- A branch that moves the pointer unless its condition holds. -/
theorem branch_spec {bad v : Bool} {k : Nat} {s : Bytes} (hk : k ≠ 0) (h : v = if bad then false else isValidUtf8 (s.drop k)) :
    ∃ n, (if bad then some 0 else some k) = some n ∧ v = if n = 0 then false else isValidUtf8 (s.drop n) := by
  cases bad with
  | true => exact ⟨0, rfl, h⟩
  | false => exact ⟨k, rfl, by rw [if_neg hk]; exact h⟩

/-- A sequence of several bytes is taken whole or refused, and no byte behind the end is looked at. -/
theorem multiByte_spec {a : UInt8} (ha : ¬ a < 0x80) (l : Bytes) : ∃ n, multiByte (a :: l) = some n ∧
    isValidUtf8 (a :: l) = if n = 0 then false else isValidUtf8 ((a :: l).drop n) := by
  simp only [multiByte, List.getElem?_cons_zero, Option.bind_eq_bind, Option.bind_some]
  split_ifs with h2 h3 h4
  · rcases l with _ | ⟨b, l⟩
    · exact ⟨0, by simp [anyOf], by simp [isValidUtf8, ha, h2]⟩
    · have hany := anyOf_some [decide ((a :: b :: l).length ≤ 1), decide (b &&& 0xc0 ≠ 0x80), decide (a &&& 0xfe = 0xc0)]
      simp only [List.map_cons, List.map_nil] at hany
      simp only [at?, List.getElem?_cons_succ, List.getElem?_cons_zero, Option.map_some, hany, Option.bind_some]
      refine branch_spec (by decide) ?_
      simp [isValidUtf8, ha, h2]
  · rcases l with _ | ⟨b, _ | ⟨c, l⟩⟩
    · exact ⟨0, by simp [anyOf], by simp [isValidUtf8, ha, h2, h3]⟩
    · exact ⟨0, by simp [anyOf], by simp [isValidUtf8, ha, h2, h3]⟩
    · have hany := anyOf_some [decide ((a :: b :: c :: l).length ≤ 2), decide (b &&& 0xc0 ≠ 0x80), decide (c &&& 0xc0 ≠ 0x80),
        decide (a = 0xe0) && decide (b &&& 0xe0 = 0x80), decide (a = 0xed) && decide (b &&& 0xe0 = 0xa0)]
      simp only [List.map_cons, List.map_nil] at hany
      simp only [at?, List.getElem?_cons_succ, List.getElem?_cons_zero, Option.map_some, andThen_some, hany, Option.bind_some]
      refine branch_spec (by decide) ?_
      simp [isValidUtf8, ha, h2, h3]
  · rcases l with _ | ⟨b, _ | ⟨c, _ | ⟨d, l⟩⟩⟩
    · exact ⟨0, by simp [anyOf], by simp [isValidUtf8, ha, h2, h3, h4]⟩
    · exact ⟨0, by simp [anyOf], by simp [isValidUtf8, ha, h2, h3, h4]⟩
    · exact ⟨0, by simp [anyOf], by simp [isValidUtf8, ha, h2, h3, h4]⟩
    · have hany := anyOf_some [decide ((a :: b :: c :: d :: l).length ≤ 3), decide (b &&& 0xc0 ≠ 0x80),
        decide (c &&& 0xc0 ≠ 0x80), decide (d &&& 0xc0 ≠ 0x80), decide (a = 0xf0) && decide (b &&& 0xf0 = 0x80),
        decide (a = 0xf4) && decide (0x8f < b), decide (0xf4 < a)]
      simp only [List.map_cons, List.map_nil] at hany
      simp only [at?, List.getElem?_cons_succ, List.getElem?_cons_zero, Option.map_some, andThen_some, hany, Option.bind_some]
      have hlen : ¬(a :: b :: c :: d :: l).length ≤ 3 := by
        simp only [List.length_cons]
        omega
      refine branch_spec (by decide) ?_
      rw [decide_eq_false hlen]
      simp [isValidUtf8, ha, h2, h3, h4]
  · refine ⟨0, rfl, ?_⟩
    rcases l with _ | ⟨b, l⟩ <;> simp [isValidUtf8, ha, h2, h3, h4]

/-- The ASCII bytes are skipped, up to a byte that is none. -/
theorem skipAscii_spec : ∀ {s : Bytes}, s ≠ [] → ∃ s', skipAscii s = some s' ∧ isValidUtf8 s = isValidUtf8 s' ∧
    s'.length ≤ s.length ∧ ∀ a l, s' = a :: l → ¬ a < 0x80 := by
  intro s
  induction s with
  | nil => exact fun h => absurd rfl h
  | cons a s ih =>
    intro _
    rw [skipAscii]
    by_cases ha : a &&& 0x80 = 0
    · rw [if_pos ha, isValidUtf8_one ((high_iff a).mp ha)]
      by_cases hs : s = []
      · exact ⟨[], if_pos hs, by rw [hs], Nat.zero_le _, fun a' l hl => absurd hl (by simp)⟩
      · obtain ⟨s', hs', heq, hlen, hhead⟩ := ih hs
        exact ⟨s', (if_neg hs).trans hs', heq, Nat.le_succ_of_le hlen, hhead⟩
    · refine ⟨a :: s, if_neg ha, rfl, Nat.le_refl _, fun a' l hl => ?_⟩
      rwa [← (List.cons.inj hl).1, ← high_iff]

/-- The fast path takes four bytes that are characters of their own. -/
theorem fourAscii_spec (s : Bytes) : ∃ b, fourAscii s = some b ∧
    (b = true → isValidUtf8 s = isValidUtf8 (s.drop 4) ∧ (s.drop 4).length < s.length) := by
  rcases s with _ | ⟨a, _ | ⟨b, _ | ⟨c, _ | ⟨d, s⟩⟩⟩⟩
  · exact ⟨false, rfl, fun h => absurd h (by decide)⟩
  · exact ⟨false, rfl, fun h => absurd h (by decide)⟩
  · exact ⟨false, rfl, fun h => absurd h (by decide)⟩
  · exact ⟨false, rfl, fun h => absurd h (by decide)⟩
  · refine ⟨_, fourAscii_cons a b c d s, fun h => ⟨?_, by simp only [List.drop_succ_cons, List.drop_zero, List.length_cons]; omega⟩⟩
    obtain ⟨ha, hb, hc, hd⟩ := of_decide_eq_true h
    rw [isValidUtf8_one ha, isValidUtf8_one hb, isValidUtf8_one hc, isValidUtf8_one hd]
    rfl

/-- The loops never read behind the end, and are the recursion over the bytes. -/
theorem utf8Loop_eq (fuel : Nat) : ∀ s : Bytes, s.length < fuel → utf8Loop fuel s = some (isValidUtf8 s) := by
  induction fuel with
  | zero => exact fun s hs => absurd hs (Nat.not_lt_zero _)
  | succ fuel ih =>
    intro s hs
    rw [utf8Loop]
    by_cases hnil : s = []
    · rw [if_pos hnil, hnil]
      rfl
    · obtain ⟨four, hfour, hfast⟩ := fourAscii_spec s
      rw [if_neg hnil, hfour]
      cases four with
      | true =>
        obtain ⟨heq, hlt⟩ := hfast rfl
        rw [heq]
        exact ih _ (by omega)
      | false =>
        obtain ⟨s', hskip, heq, hlen, hhead⟩ := skipAscii_spec hnil
        simp only [Option.bind_eq_bind, Option.bind_some, Bool.false_eq_true, if_false, hskip, heq]
        rcases s' with _ | ⟨a, l⟩
        · rfl
        · obtain ⟨n, hn, hval⟩ := multiByte_spec (hhead a l rfl) l
          simp only [reduceCtorEq, if_false, hn, Option.bind_some, hval]
          split_ifs with h0
          · rfl
          · refine ih _ ?_
            rw [List.length_drop]
            rw [List.length_cons] at hlen ⊢
            omega

/-- The scan looks at no byte behind the end, and comes to what `isValidUtf8` says. -/
theorem utf8Scan_eq (s : Bytes) : utf8Scan s = some (isValidUtf8 s) := utf8Loop_eq _ s (Nat.lt_succ_self _)

/-! ## What is accepted -/

/-- A refusal by masks, as a condition on the bytes. -/
theorem refusal_iff {bad p : Prop} [Decidable bad] {v : Bool} (h : ¬ bad ↔ p) :
    (if bad then false else v) = true ↔ p ∧ v = true := by
  rw [← h]
  by_cases hbad : bad
  · simp [hbad]
  · simp [hbad]

/-- The test of a byte that continues a sequence. -/
theorem tail_iff (b : UInt8) : ¬ b &&& 0xc0 ≠ 0x80 ↔ Utf8.Tail b := by
  rw [not_not]
  exact mask_iff 6 (by decide) b

/-- A sequence of two: its lead is no overlong one. -/
theorem isValidUtf8_two {a : UInt8} (ha : ¬ a < 0x80) (h2 : a &&& 0x60 = 0x40) (l : Bytes) :
    isValidUtf8 (a :: l) = true ↔ ∃ b rest, l = b :: rest ∧ 0xc2 ≤ a.toNat ∧ Utf8.Tail b ∧ isValidUtf8 rest = true := by
  rcases l with _ | ⟨b, l⟩
  · simp [isValidUtf8, ha, h2]
  · have hover : a &&& 0xfe = 0xc0 ↔ 0xc0 ≤ a.toNat ∧ a.toNat ≤ 0xc1 := mask_iff 1 (by decide) a
    have hbad : ¬ (b &&& 0xc0 ≠ 0x80 ∨ a &&& 0xfe = 0xc0) ↔ 0xc2 ≤ a.toNat ∧ Utf8.Tail b := by
      rw [not_or, tail_iff, hover, and_comm]
      refine and_congr_left' ?_
      have := (lead_two ha).mp h2
      omega
    rw [isValidUtf8, if_neg ha, if_pos h2, refusal_iff hbad]
    constructor
    · rintro ⟨⟨h1, hb⟩, hl⟩
      exact ⟨b, l, rfl, h1, hb, hl⟩
    · rintro ⟨b', l', heq, h1, hb, hl⟩
      obtain ⟨rfl, rfl⟩ := List.cons.inj heq
      exact ⟨⟨h1, hb⟩, hl⟩

/-- Bytes are equal if their numbers are. -/
theorem byte_eq_iff (a b : UInt8) : a = b ↔ a.toNat = b.toNat := UInt8.toNat_inj.symm

/-- A sequence of three: neither overlong nor a surrogate. -/
theorem isValidUtf8_three {a : UInt8} (ha : ¬ a < 0x80) (h2 : ¬ a &&& 0x60 = 0x40) (h3 : a &&& 0xf0 = 0xe0) (l : Bytes) :
    isValidUtf8 (a :: l) = true ↔ ∃ b c rest, l = b :: c :: rest ∧ Utf8.Tail b ∧ Utf8.Tail c ∧
      (a.toNat = 0xe0 → 0xa0 ≤ b.toNat) ∧ (a.toNat = 0xed → b.toNat ≤ 0x9f) ∧ isValidUtf8 rest = true := by
  rcases l with _ | ⟨b, _ | ⟨c, l⟩⟩
  · simp [isValidUtf8, ha, h2, h3]
  · simp [isValidUtf8, ha, h2, h3]
  · have hover : b &&& 0xe0 = 0x80 ↔ 0x80 ≤ b.toNat ∧ b.toNat ≤ 0x9f := mask_iff 5 (by decide) b
    have hsurr : b &&& 0xe0 = 0xa0 ↔ 0xa0 ≤ b.toNat ∧ b.toNat ≤ 0xbf := mask_iff 5 (by decide) b
    have hbad : ¬ (b &&& 0xc0 ≠ 0x80 ∨ c &&& 0xc0 ≠ 0x80 ∨ (a = 0xe0 ∧ b &&& 0xe0 = 0x80) ∨ (a = 0xed ∧ b &&& 0xe0 = 0xa0)) ↔
        Utf8.Tail b ∧ Utf8.Tail c ∧ (a.toNat = 0xe0 → 0xa0 ≤ b.toNat) ∧ (a.toNat = 0xed → b.toNat ≤ 0x9f) := by
      rw [not_or, not_or, not_or, tail_iff, tail_iff, hover, hsurr, byte_eq_iff a 0xe0, byte_eq_iff a 0xed]
      refine and_congr_right fun hb => and_congr_right fun _ => ?_
      change 128 ≤ b.toNat ∧ b.toNat ≤ 191 at hb
      change ¬ (a.toNat = 224 ∧ _) ∧ ¬ (a.toNat = 237 ∧ _) ↔ _
      omega
    rw [isValidUtf8, if_neg ha, if_neg h2, if_pos h3, refusal_iff hbad]
    constructor
    · rintro ⟨⟨hb, hc, h0, hd⟩, hl⟩
      exact ⟨b, c, l, rfl, hb, hc, h0, hd, hl⟩
    · rintro ⟨b', c', l', heq, hb, hc, h0, hd, hl⟩
      obtain ⟨rfl, htail⟩ := List.cons.inj heq
      obtain ⟨rfl, rfl⟩ := List.cons.inj htail
      exact ⟨⟨hb, hc, h0, hd⟩, hl⟩

/-- A sequence of four: neither overlong nor beyond the last code point. -/
theorem isValidUtf8_four {a : UInt8} (ha : ¬ a < 0x80) (h2 : ¬ a &&& 0x60 = 0x40) (h3 : ¬ a &&& 0xf0 = 0xe0)
    (h4 : a &&& 0xf8 = 0xf0) (l : Bytes) :
    isValidUtf8 (a :: l) = true ↔ ∃ b c d rest, l = b :: c :: d :: rest ∧ a.toNat ≤ 0xf4 ∧ Utf8.Tail b ∧ Utf8.Tail c ∧ Utf8.Tail d ∧
      (a.toNat = 0xf0 → 0x90 ≤ b.toNat) ∧ (a.toNat = 0xf4 → b.toNat ≤ 0x8f) ∧ isValidUtf8 rest = true := by
  rcases l with _ | ⟨b, _ | ⟨c, _ | ⟨d, l⟩⟩⟩
  · simp [isValidUtf8, ha, h2, h3, h4]
  · simp [isValidUtf8, ha, h2, h3, h4]
  · simp [isValidUtf8, ha, h2, h3, h4]
  · have hover : b &&& 0xf0 = 0x80 ↔ 0x80 ≤ b.toNat ∧ b.toNat ≤ 0x8f := mask_iff 4 (by decide) b
    have hbad : ¬ (b &&& 0xc0 ≠ 0x80 ∨ c &&& 0xc0 ≠ 0x80 ∨ d &&& 0xc0 ≠ 0x80 ∨ (a = 0xf0 ∧ b &&& 0xf0 = 0x80) ∨
          (a = 0xf4 ∧ 0x8f < b) ∨ 0xf4 < a) ↔
        a.toNat ≤ 0xf4 ∧ Utf8.Tail b ∧ Utf8.Tail c ∧ Utf8.Tail d ∧ (a.toNat = 0xf0 → 0x90 ≤ b.toNat) ∧
          (a.toNat = 0xf4 → b.toNat ≤ 0x8f) := by
      rw [not_or, not_or, not_or, not_or, not_or, tail_iff, tail_iff, tail_iff, hover, byte_eq_iff a 0xf0, byte_eq_iff a 0xf4,
        UInt8.lt_iff_toNat_lt, UInt8.lt_iff_toNat_lt]
      change _ ∧ _ ∧ _ ∧ ¬ (a.toNat = 240 ∧ _) ∧ ¬ (a.toNat = 244 ∧ 143 < b.toNat) ∧ ¬ 244 < a.toNat ↔ _
      unfold Utf8.Tail
      omega
    rw [isValidUtf8, if_neg ha, if_neg h2, if_neg h3, if_pos h4, refusal_iff hbad]
    constructor
    · rintro ⟨⟨h, hb, hc, hd, h0, h5⟩, hl⟩
      exact ⟨b, c, d, l, rfl, h, hb, hc, hd, h0, h5, hl⟩
    · rintro ⟨b', c', d', l', heq, h, hb, hc, hd, h0, h5, hl⟩
      obtain ⟨rfl, htail⟩ := List.cons.inj heq
      obtain ⟨rfl, htail'⟩ := List.cons.inj htail
      obtain ⟨rfl, rfl⟩ := List.cons.inj htail'
      exact ⟨⟨h, hb, hc, hd, h0, h5⟩, hl⟩

/-- The recursion accepts what is well formed: by its first byte, as the lemmas on `Utf8.WellFormed` are. -/
theorem isValidUtf8_iff (n : Nat) : ∀ s : Bytes, s.length ≤ n → (isValidUtf8 s = true ↔ Utf8.WellFormed s) := by
  induction n with
  | zero =>
    intro s hs
    rw [List.eq_nil_of_length_eq_zero (Nat.le_zero.mp hs)]
    exact iff_of_true rfl Utf8.wellFormed_nil
  | succ n ih =>
    intro s hs
    rcases s with _ | ⟨a, l⟩
    · exact iff_of_true rfl Utf8.wellFormed_nil
    have hl : l.length ≤ n := Nat.le_of_succ_le_succ hs
    have hrange : a < 0x80 ↔ a.toNat < 128 := UInt8.lt_iff_toNat_lt
    by_cases ha : a < 0x80
    · rw [isValidUtf8_one ha, Utf8.wellFormed_cons_one (by have := hrange.mp ha; omega)]
      exact ih l hl
    by_cases h2 : a &&& 0x60 = 0x40
    · obtain ⟨hlo, hhi⟩ := (lead_two ha).mp h2
      rw [isValidUtf8_two ha h2, Utf8.wellFormed_cons_two hlo hhi]
      refine exists_congr fun b => exists_congr fun rest => and_congr_right fun heq => ?_
      rw [ih rest (by rw [heq, List.length_cons] at hl; omega)]
    by_cases h3 : a &&& 0xf0 = 0xe0
    · obtain ⟨hlo, hhi⟩ := (lead_three a).mp h3
      rw [isValidUtf8_three ha h2 h3, Utf8.wellFormed_cons_three hlo hhi]
      refine exists_congr fun b => exists_congr fun c => exists_congr fun rest => and_congr_right fun heq => ?_
      rw [ih rest (by rw [heq, List.length_cons, List.length_cons] at hl; omega)]
    have h2' := mt (lead_two ha).mpr h2
    have h3' := mt (lead_three a).mpr h3
    have ha' := mt hrange.mpr ha
    by_cases h4 : a &&& 0xf8 = 0xf0
    · rw [isValidUtf8_four ha h2 h3 h4, Utf8.wellFormed_cons_four ((lead_four a).mp h4).1]
      refine exists_congr fun b => exists_congr fun c => exists_congr fun d => exists_congr fun rest => and_congr_right fun heq => ?_
      rw [ih rest (by rw [heq, List.length_cons, List.length_cons, List.length_cons] at hl; omega)]
    · have h4' := mt (lead_four a).mpr h4
      have hfalse : isValidUtf8 (a :: l) = false := by
        rcases l with _ | ⟨b, l⟩ <;> simp [isValidUtf8, ha, h2, h3, h4]
      rw [hfalse]
      refine iff_of_false Bool.false_ne_true ?_
      by_cases hlo : a.toNat < 0xc0
      · exact Utf8.not_wellFormed_cons (by omega) hlo l
      · rw [Utf8.wellFormed_cons_four (by omega)]
        rintro ⟨b, c, d, rest, -, h, -⟩
        omega

/-- **The validation of UTF-8** reads only bytes of the sequence, and accepts what is well formed. -/
theorem utf8Scan_iff (s : Bytes) : ∃ valid, utf8Scan s = some valid ∧ (valid = true ↔ Utf8.WellFormed s) :=
  ⟨isValidUtf8 s, utf8Scan_eq s, isValidUtf8_iff s.length s (Nat.le_refl _)⟩

end Netcore
