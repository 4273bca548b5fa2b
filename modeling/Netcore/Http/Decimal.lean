import Netcore.Http.Text

/-!
# Decimal numbers

What `std::to_string` and `itoa` write, `atoll` reads back. The digits are those of `Nat.toDigits`, one character a byte.
-/

namespace Netcore

theorem decimal_natCast (n : Nat) : decimal n = (Nat.toDigits 10 n).map fun c => UInt8.ofNat c.toNat := by
  have hs : toString (n : Int) = n.repr := rfl
  rw [decimal, bytes, hs, Nat.toList_repr]

/-- A negative number is written with its sign. -/
theorem decimal_negSucc (n : Nat) : decimal (Int.negSucc n) = HYPHEN :: decimal ((n + 1 : Nat) : Int) := by
  have hs : toString (Int.negSucc n) = "-" ++ (n + 1).repr := rfl
  rw [decimal_natCast, decimal, bytes, hs, String.toList_append, Nat.toList_repr]
  rfl

/-- The bytes of a number without a sign are digits. -/
theorem isDigit_of_mem_decimal {n : Nat} {d : UInt8} (h : d ∈ decimal n) : isDigit d = true := by
  rw [decimal_natCast] at h
  obtain ⟨c, hc, rfl⟩ := List.mem_map.mp h
  have hd : 48 ≤ c.toNat ∧ c.toNat ≤ 57 := by
    simpa [Char.isDigit, UInt32.le_iff_toNat_le] using Nat.isDigit_of_mem_toDigits (by decide) (by decide) hc
  have hlt : c.toNat < 2 ^ 8 := by omega
  simp only [isDigit, decide_eq_true_eq, UInt8.le_iff_toNat_le, UInt8.toNat_ofNat', Nat.mod_eq_of_lt hlt]
  exact hd

theorem decimal_ne_nil (n : Int) : decimal n ≠ [] := by
  cases n with
  | ofNat n =>
    have hd := decimal_natCast n
    rw [Int.ofNat_eq_natCast, hd]
    simp [Nat.toDigits_ne_nil]
  | negSucc n =>
    rw [decimal_negSucc]
    simp

/-- The bytes of a number are digits, or its sign. -/
theorem digit_or_sign {n : Int} {d : UInt8} (h : d ∈ decimal n) : isDigit d = true ∨ d = HYPHEN := by
  cases n with
  | ofNat n => exact .inl (isDigit_of_mem_decimal h)
  | negSucc n =>
    rw [decimal_negSucc] at h
    rcases List.mem_cons.mp h with rfl | h
    · exact .inr rfl
    · exact .inl (isDigit_of_mem_decimal h)

/-- A number is written without a CR. -/
theorem cr_not_mem_decimal (n : Nat) : CR ∉ decimal n := by
  intro h
  exact absurd (isDigit_of_mem_decimal h) (by decide)

/-- A number that is written like zero has one digit. -/
theorem lt_ten_of_decimal_eq {n : Nat} (h : decimal n = decimal (0 : Nat)) : n < 10 := by
  have hlen := congrArg List.length h
  rw [decimal_natCast, decimal_natCast, List.length_map, List.length_map, Nat.toDigits_zero] at hlen
  exact (Nat.length_toDigits_le_iff (by decide) (by decide)).mp (Nat.le_of_eq hlen)

/-- The digits of a text of digits, read on from `acc`. -/
theorem digitsValue_map (cs : List Char) : ∀ acc : Nat, (∀ c ∈ cs, c.isDigit = true) →
    digitsValue acc (cs.map fun c => UInt8.ofNat c.toNat) = Nat.ofDigitChars 10 cs acc := by
  induction cs with
  | nil =>
    intro acc _
    rw [Nat.ofDigitChars_nil]
    rfl
  | cons c cs ih =>
    intro acc h
    have hd : 48 ≤ c.toNat ∧ c.toNat ≤ 57 := by simpa [Char.isDigit, UInt32.le_iff_toNat_le] using h c (by simp)
    have hlt : c.toNat < 2 ^ 8 := by omega
    have hval : (UInt8.ofNat c.toNat).toNat = c.toNat := by rw [UInt8.toNat_ofNat', Nat.mod_eq_of_lt hlt]
    have hdigit : isDigit (UInt8.ofNat c.toNat) = true := by
      simp only [isDigit, decide_eq_true_eq, UInt8.le_iff_toNat_le, hval]
      exact hd
    rw [List.map_cons, digitsValue, if_pos hdigit, ih _ fun x hx => h x (List.mem_cons_of_mem c hx), Nat.ofDigitChars_cons, hval,
      Nat.mul_comm]
    rfl

theorem digitsValue_decimal (n : Nat) : digitsValue 0 (decimal n) = n := by
  rw [decimal_natCast, digitsValue_map _ 0 fun c hc => Nat.isDigit_of_mem_toDigits (by decide) (by decide) hc,
    Nat.ofDigitChars_ten_toDigits]

/-- Different numbers are written differently. -/
theorem decimal_injective : Function.Injective decimal := by
  intro a b h
  have hnat : ∀ m n : Nat, decimal m = decimal n → m = n := by
    intro m n he
    rw [← digitsValue_decimal m, he, digitsValue_decimal]
  have hsign : ∀ m n : Nat, decimal m ≠ HYPHEN :: decimal n := by
    intro m n he
    have hmem : HYPHEN ∈ decimal m := by simp [he]
    exact absurd (isDigit_of_mem_decimal hmem) (by decide)
  cases a with
  | ofNat m =>
    cases b with
    | ofNat n => exact congrArg Int.ofNat (hnat m n h)
    | negSucc n => exact absurd (h.trans (decimal_negSucc n)) (hsign m (n + 1))
  | negSucc m =>
    cases b with
    | ofNat n => exact absurd (h.symm.trans (decimal_negSucc m)) (hsign n (m + 1))
    | negSucc n =>
      rw [decimal_negSucc, decimal_negSucc, List.cons.injEq] at h
      exact congrArg Int.negSucc (Nat.succ.inj (hnat _ _ h.2))

/-- A number without a sign. -/
theorem atoll_digit {d : UInt8} (hd : isDigit d = true) (ds : Bytes) :
    atoll (d :: ds) = min 9223372036854775807 (digitsValue 0 (d :: ds) : Int) := by
  simp only [isDigit, decide_eq_true_eq, UInt8.le_iff_toNat_le] at hd
  have hnat : 48 ≤ d.toNat ∧ d.toNat ≤ 57 := hd
  have hspace : isSpace d = false := by
    simp only [isSpace, decide_eq_false_iff_not, UInt8.le_iff_toNat_le, SPACE, ← UInt8.toNat_inj]
    have h32 : (32 : UInt8).toNat = 32 := rfl
    have h9 : (9 : UInt8).toNat = 9 := rfl
    have h13 : (13 : UInt8).toNat = 13 := rfl
    omega
  have h45 : d ≠ 45 := by
    rintro rfl
    exact absurd hnat.1 (by decide)
  have h43 : d ≠ 43 := by
    rintro rfl
    exact absurd hnat.1 (by decide)
  unfold atoll
  rw [List.dropWhile_cons_of_neg (by simp [hspace])]
  split
  · rename_i heq
    exact absurd (List.cons.inj heq).1 h45
  · rename_i heq
    exact absurd (List.cons.inj heq).1 h43
  · rfl

/-- A number with a minus sign. -/
theorem atoll_hyphen (ds : Bytes) : atoll (HYPHEN :: ds) = max (-9223372036854775808) (-(digitsValue 0 ds : Int)) := by
  unfold atoll
  rw [List.dropWhile_cons_of_neg (by decide)]
  rfl

/-- A `long long` is read back. -/
theorem atoll_decimal {n : Int} (h1 : -9223372036854775808 ≤ n) (h2 : n ≤ 9223372036854775807) : atoll (decimal n) = n := by
  cases n with
  | ofNat m =>
    have hvalue := digitsValue_decimal m
    obtain ⟨d, ds, hdec⟩ := List.exists_cons_of_ne_nil (decimal_ne_nil m)
    have hd : isDigit d = true := isDigit_of_mem_decimal (n := m) (by rw [hdec]; exact List.mem_cons_self ..)
    rw [Int.ofNat_eq_natCast, hdec, atoll_digit hd, ← hdec, hvalue]
    exact Int.min_eq_right h2
  | negSucc m =>
    rw [decimal_negSucc, atoll_hyphen, digitsValue_decimal]
    omega

/-- Digits end at the first character that is none. -/
theorem digitsValue_append {s : Bytes} (hs : ∀ d ∈ s, isDigit d = true) {c : UInt8} (hc : isDigit c = false) (rest : Bytes) :
    ∀ acc : Nat, digitsValue acc (s ++ c :: rest) = digitsValue acc s := by
  induction s with
  | nil =>
    intro acc
    rw [List.nil_append]
    simp [digitsValue, hc]
  | cons d s ih =>
    intro acc
    have hd := hs d (List.mem_cons_self ..)
    rw [List.cons_append, digitsValue, digitsValue, if_pos hd, if_pos hd, ih fun x hx => hs x (List.mem_cons_of_mem d hx)]

end Netcore
