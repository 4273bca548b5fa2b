import Mathlib.Data.UInt

/-!
# Well-formed UTF-8

A sequence of bytes is well formed when it is the encoding of a list of characters: a `Char` is a Unicode scalar value, so it is no
surrogate and at most `U+10FFFF`, and `String.utf8EncodeChar` gives its one, shortest encoding. `Encoded` has the encodings of
single characters by the ranges of their bytes, and the `wellFormed_cons` lemmas what may follow each first byte.
-/

namespace Utf8

/-- A byte that continues a character. -/
def Tail (b : UInt8) : Prop := 0x80 ≤ b.toNat ∧ b.toNat ≤ 0xbf

/-- The encodings of single characters, by the ranges of their bytes. -/
inductive Encoded : List UInt8 → Prop where
  | one {a : UInt8} : a.toNat ≤ 0x7f → Encoded [a]
  | two {a b : UInt8} : 0xc2 ≤ a.toNat → a.toNat ≤ 0xdf → Tail b → Encoded [a, b]
  | three {a b c : UInt8} : 0xe0 ≤ a.toNat → a.toNat ≤ 0xef → Tail b → Tail c → (a.toNat = 0xe0 → 0xa0 ≤ b.toNat) →
      (a.toNat = 0xed → b.toNat ≤ 0x9f) → Encoded [a, b, c]
  | four {a b c d : UInt8} : 0xf0 ≤ a.toNat → a.toNat ≤ 0xf4 → Tail b → Tail c → Tail d → (a.toNat = 0xf0 → 0x90 ≤ b.toNat) →
      (a.toNat = 0xf4 → b.toNat ≤ 0x8f) → Encoded [a, b, c, d]

/-- The encoding of a list of characters. -/
def WellFormed (bytes : List UInt8) : Prop := ∃ cs : List Char, bytes = cs.flatMap String.utf8EncodeChar

/-- A character of a value. -/
theorem exists_char {v : Nat} (h : v < 0xd800 ∨ 0xdfff < v ∧ v < 0x110000) : ∃ c : Char, c.val.toNat = v := by
  have hv : v.isValidChar := h
  refine ⟨Char.ofNatAux v hv, ?_⟩
  rfl

theorem byte_eq {b : UInt8} {n : Nat} (h : n = b.toNat) : UInt8.ofNat n = b := by
  rw [h, UInt8.ofNat_toNat]

/-- What is in the ranges is the encoding of a character. -/
theorem Encoded.exists_char {l : List UInt8} (h : Encoded l) : ∃ c : Char, String.utf8EncodeChar c = l := by
  cases h with
  | @one a ha =>
    obtain ⟨c, hc⟩ := Utf8.exists_char (v := a.toNat) (by omega)
    refine ⟨c, ?_⟩
    simp only [String.utf8EncodeChar, hc]
    rw [if_pos (by omega), UInt8.ofNat_toNat]
  | @two a b ha ha' hb =>
    unfold Tail at hb
    obtain ⟨c, hc⟩ := Utf8.exists_char (v := (a.toNat - 0xc0) * 64 + (b.toNat - 0x80)) (by omega)
    refine ⟨c, ?_⟩
    simp only [String.utf8EncodeChar, hc]
    rw [if_neg (by omega), if_pos (by omega), byte_eq (b := a) (by omega), byte_eq (b := b) (by omega)]
  | @three a b c ha ha' hb hc h0 hd =>
    unfold Tail at hb hc
    obtain ⟨ch, hch⟩ := Utf8.exists_char
      (v := (a.toNat - 0xe0) * 4096 + (b.toNat - 0x80) * 64 + (c.toNat - 0x80)) (by omega)
    refine ⟨ch, ?_⟩
    simp only [String.utf8EncodeChar, hch]
    rw [if_neg (by omega), if_neg (by omega), if_pos (by omega), byte_eq (b := a) (by omega), byte_eq (b := b) (by omega),
      byte_eq (b := c) (by omega)]
  | @four a b c d ha ha' hb hc hd h0 h4 =>
    unfold Tail at hb hc hd
    obtain ⟨ch, hch⟩ := Utf8.exists_char
      (v := (a.toNat - 0xf0) * 262144 + (b.toNat - 0x80) * 4096 + (c.toNat - 0x80) * 64 + (d.toNat - 0x80)) (by omega)
    refine ⟨ch, ?_⟩
    simp only [String.utf8EncodeChar, hch]
    rw [if_neg (by omega), if_neg (by omega), if_neg (by omega), byte_eq (b := a) (by omega), byte_eq (b := b) (by omega),
      byte_eq (b := c) (by omega), byte_eq (b := d) (by omega)]

/-- The encoding of a character is in the ranges. -/
theorem encoded_char (c : Char) : Encoded (String.utf8EncodeChar c) := by
  have hv : c.val.toNat < 0xd800 ∨ 0xdfff < c.val.toNat ∧ c.val.toNat < 0x110000 := c.valid
  simp only [String.utf8EncodeChar]
  generalize c.val.toNat = v at hv
  have htail : ∀ n, Tail (UInt8.ofNat (n % 64 + 0x80)) := by
    intro n
    rw [Tail, UInt8.toNat_ofNat']
    omega
  split_ifs
  · exact .one (by rw [UInt8.toNat_ofNat']; omega)
  · exact .two (by rw [UInt8.toNat_ofNat']; omega) (by rw [UInt8.toNat_ofNat']; omega) (htail v)
  · refine .three ?_ ?_ (htail (v / 64)) (htail v) ?_ ?_ <;> simp only [UInt8.toNat_ofNat'] <;> omega
  · refine .four ?_ ?_ (htail (v / 4096)) (htail (v / 64)) (htail v) ?_ ?_ <;> simp only [UInt8.toNat_ofNat'] <;> omega

theorem wellFormed_nil : WellFormed [] := ⟨[], rfl⟩

/-- The first character and the others. -/
theorem wellFormed_cons_iff (a : UInt8) (l : List UInt8) :
    WellFormed (a :: l) ↔ ∃ q rest, Encoded q ∧ a :: l = q ++ rest ∧ WellFormed rest := by
  constructor
  · rintro ⟨cs, hcs⟩
    cases cs with
    | nil => exact absurd hcs (List.cons_ne_nil a l)
    | cons c cs => exact ⟨String.utf8EncodeChar c, _, encoded_char c, hcs, cs, rfl⟩
  · rintro ⟨q, rest, hq, heq, cs, rfl⟩
    obtain ⟨c, rfl⟩ := hq.exists_char
    exact ⟨c :: cs, heq⟩

/-- A byte that is a character of its own. -/
theorem wellFormed_cons_one {a : UInt8} (ha : a.toNat ≤ 0x7f) (l : List UInt8) : WellFormed (a :: l) ↔ WellFormed l := by
  rw [wellFormed_cons_iff]
  constructor
  · rintro ⟨q, rest, hq, heq, hrest⟩
    cases hq with
    | one h => exact (List.cons.inj heq).2 ▸ hrest
    | two h | three h | four h =>
      obtain ⟨rfl, -⟩ := List.cons.inj heq
      omega
  · exact fun h => ⟨[a], l, .one ha, rfl, h⟩

/-- A byte that begins no character. -/
theorem not_wellFormed_cons {a : UInt8} (ha : 0x80 ≤ a.toNat) (ha' : a.toNat < 0xc0) (l : List UInt8) : ¬ WellFormed (a :: l) := by
  rw [wellFormed_cons_iff]
  rintro ⟨q, rest, hq, heq, -⟩
  cases hq with
  | one h | two h | three h | four h =>
    obtain ⟨rfl, -⟩ := List.cons.inj heq
    omega

/-- What follows the first byte of a character of two. -/
theorem wellFormed_cons_two {a : UInt8} (ha : 0xc0 ≤ a.toNat) (ha' : a.toNat ≤ 0xdf) (l : List UInt8) :
    WellFormed (a :: l) ↔ ∃ b rest, l = b :: rest ∧ 0xc2 ≤ a.toNat ∧ Tail b ∧ WellFormed rest := by
  rw [wellFormed_cons_iff]
  constructor
  · rintro ⟨q, rest, hq, heq, hrest⟩
    cases hq with
    | one h | three h | four h =>
      obtain ⟨rfl, -⟩ := List.cons.inj heq
      omega
    | @two _ b h _ hb =>
      obtain ⟨rfl, rfl⟩ := List.cons.inj heq
      exact ⟨b, rest, rfl, h, hb, hrest⟩
  · rintro ⟨b, rest, rfl, h, hb, hrest⟩
    exact ⟨[a, b], rest, .two h ha' hb, rfl, hrest⟩

/-- What follows the first byte of a character of three. -/
theorem wellFormed_cons_three {a : UInt8} (ha : 0xe0 ≤ a.toNat) (ha' : a.toNat ≤ 0xef) (l : List UInt8) :
    WellFormed (a :: l) ↔ ∃ b c rest, l = b :: c :: rest ∧ Tail b ∧ Tail c ∧ (a.toNat = 0xe0 → 0xa0 ≤ b.toNat) ∧
      (a.toNat = 0xed → b.toNat ≤ 0x9f) ∧ WellFormed rest := by
  rw [wellFormed_cons_iff]
  constructor
  · rintro ⟨q, rest, hq, heq, hrest⟩
    cases hq with
    | one h | two _ h | four h =>
      obtain ⟨rfl, -⟩ := List.cons.inj heq
      omega
    | @three _ b c _ _ hb hc h0 hd =>
      obtain ⟨rfl, rfl⟩ := List.cons.inj heq
      exact ⟨b, c, rest, rfl, hb, hc, h0, hd, hrest⟩
  · rintro ⟨b, c, rest, rfl, hb, hc, h0, hd, hrest⟩
    exact ⟨[a, b, c], rest, .three ha ha' hb hc h0 hd, rfl, hrest⟩

/-- What follows the first byte of a character of four, or a larger byte. -/
theorem wellFormed_cons_four {a : UInt8} (ha : 0xf0 ≤ a.toNat) (l : List UInt8) :
    WellFormed (a :: l) ↔ ∃ b c d rest, l = b :: c :: d :: rest ∧ a.toNat ≤ 0xf4 ∧ Tail b ∧ Tail c ∧ Tail d ∧
      (a.toNat = 0xf0 → 0x90 ≤ b.toNat) ∧ (a.toNat = 0xf4 → b.toNat ≤ 0x8f) ∧ WellFormed rest := by
  rw [wellFormed_cons_iff]
  constructor
  · rintro ⟨q, rest, hq, heq, hrest⟩
    cases hq with
    | one h | two _ h | three _ h =>
      obtain ⟨rfl, -⟩ := List.cons.inj heq
      omega
    | @four _ b c d _ h hb hc hd h0 h4 =>
      obtain ⟨rfl, rfl⟩ := List.cons.inj heq
      exact ⟨b, c, d, rest, rfl, h, hb, hc, hd, h0, h4, hrest⟩
  · rintro ⟨b, c, d, rest, rfl, h, hb, hc, hd, h0, h4, hrest⟩
    exact ⟨[a, b, c, d], rest, .four ha h hb hc hd h0 h4, rfl, hrest⟩

end Utf8
