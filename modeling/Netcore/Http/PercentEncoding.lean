import Netcore.Http.Text

/-!
# Percent-encoding

The encoders of `url_encode_decode.hpp` and `utils.hpp` beside the decoder. Each of them writes a byte either as it is or as a
percent sign and two digits, and they differ in what they leave as it is; `quote_plus` also writes a space as a plus sign. Whatever
`Decodes` byte by byte decodes as a whole (`urlDecode_flatMap`), so every encoder is inverted by `url_decode`.
-/

namespace Netcore

/-! ## `url_encode` -/

/-- `hex_chars[n]`. -/
def hexChars (n : UInt8) : UInt8 := ((bytes "0123456789ABCDEF")[n.toNat]?).getD 0

/-- What `url_encode` leaves as it is. -/
def isUrlSafe (c : UInt8) : Bool :=
  decide ((48 ≤ c ∧ c ≤ 57) ∨ (65 ≤ c ∧ c ≤ 90) ∨ (97 ≤ c ∧ c ≤ 122) ∨ c = 45 ∨ c = 46 ∨ c = 95 ∨ c = 126)

/-- One byte of `url_encode`. -/
def urlEncodeChar (c : UInt8) : Bytes := if isUrlSafe c then [c] else [37, hexChars (c >>> 4), hexChars (c &&& 15)]

/-- `url_encode`. -/
def urlEncode (value : Bytes) : Bytes := value.flatMap urlEncodeChar

/-- `is_url_encode`. -/
def isUrlEncode (s : Bytes) : Bool := decide (37 ∈ s ∨ 43 ∈ s)

/-! ## `quote` and `quote_plus` -/

/-- The table `valid_chr`, of which the entries of letters, digits, `_`, `.` and `-` are true. -/
def validChr (c : UInt8) : Bool :=
  decide ((48 ≤ c ∧ c ≤ 57) ∨ (65 ≤ c ∧ c ≤ 90) ∨ (97 ≤ c ∧ c ≤ 122) ∨ c = 95 ∨ c = 46 ∨ c = 45)

/-- `setw(2) << hex << uppercase`, with the fill `'0'`. -/
def hexField (c : UInt8) : Bytes :=
  let digits := (Nat.toDigits 16 c.toNat).map fun d => toUpper (UInt8.ofNat d.toNat)
  List.replicate (2 - digits.length) 48 ++ digits

/-- One byte of `quote_impl`. -/
def quoteChar (safe : Bytes) (c : UInt8) : Bytes :=
  if (c > 127 ∨ ¬validChr c) ∧ c ∉ safe then 37 :: hexField c else [c]

/-- `quote_impl`: the bytes of `safe` stay as they are. -/
def quoteImpl (str safe : Bytes) : Bytes := str.flatMap (quoteChar safe)

/-- `quote`. -/
def quote (str : Bytes) : Bytes := quoteImpl str [SLASH]

/-- `quote_plus`: a string without a space is quoted; in any other the spaces are kept at first and then replaced. -/
def quotePlus (str : Bytes) : Bytes :=
  if SPACE ∈ str then (quoteImpl str [SPACE]).map fun c => if c = SPACE then 43 else c else quote str

/-! ## The decoder reads them back -/

/-- The text `p` stands for the byte `c`, whatever follows it. -/
def Decodes (p : Bytes) (c : UInt8) : Prop := ∀ rest, urlDecode (p ++ rest) = c :: urlDecode rest

/-- A text put together from texts that stand for bytes stands for the string of these bytes. -/
theorem urlDecode_flatMap {f : UInt8 → Bytes} {s : Bytes} (h : ∀ c ∈ s, Decodes (f c) c) : urlDecode (s.flatMap f) = s := by
  induction s with
  | nil => rfl
  | cons c s ih =>
    rw [List.flatMap_cons, h c List.mem_cons_self, ih fun x hx => h x (List.mem_cons_of_mem c hx)]

/-- A byte other than the percent sign and the plus sign stands for itself. -/
theorem decodes_singleton {c : UInt8} (h37 : c ≠ 37) (h43 : c ≠ 43) : Decodes [c] c := by
  intro rest
  rw [List.singleton_append, urlDecode, if_neg h43]
  intro a b tail hc
  exact absurd hc h37

/-- The plus sign stands for a space. -/
theorem decodes_plus : Decodes [43] SPACE := by
  intro rest
  rw [List.singleton_append, urlDecode, if_pos rfl]
  intro a b tail hc
  exact absurd hc (by decide)

/-- The percent sign and the two digits of a byte stand for it. -/
theorem decodes_escape (c : UInt8) : Decodes [37, hexChars (c >>> 4), hexChars (c &&& 15)] c := by
  have hdigits : ∀ c : UInt8, UInt8.ofNat (strtolHex (hexChars (c >>> 4)) (hexChars (c &&& 15)) % 256).toNat = c :=
    forall_byte (by decide +kernel)
  intro rest
  conv_rhs => rw [← hdigits c]
  rfl

theorem decodes_urlEncodeChar (c : UInt8) : Decodes (urlEncodeChar c) c := by
  unfold urlEncodeChar
  split
  · rename_i hc
    exact decodes_singleton (ne_of_class hc (by decide)) (ne_of_class hc (by decide))
  · exact decodes_escape c

/-- `quote_impl` prints the digits that `url_encode` takes from its table. -/
theorem hexField_eq : ∀ c : UInt8, hexField c = [hexChars (c >>> 4), hexChars (c &&& 15)] :=
  forall_byte (by decide +kernel)

/-- What is safe may be any byte but the percent sign and the plus sign. -/
theorem decodes_quoteChar {safe : Bytes} (h : ∀ c ∈ safe, c ≠ 37 ∧ c ≠ 43) (c : UInt8) : Decodes (quoteChar safe c) c := by
  unfold quoteChar
  split
  · rw [hexField_eq]
    exact decodes_escape c
  · rename_i hc
    have hne : c ≠ 37 ∧ c ≠ 43 := by
      by_cases hsafe : c ∈ safe
      · exact h c hsafe
      · have hvalid : validChr c = true := by_contra fun hv => hc ⟨.inr hv, hsafe⟩
        exact ⟨ne_of_class hvalid (by decide), ne_of_class hvalid (by decide)⟩
    exact decodes_singleton hne.1 hne.2

theorem quoteChar_space : quoteChar [SPACE] SPACE = [SPACE] := by decide

/-- With the space as the safe byte nothing else is written as a space. -/
theorem space_notMem_quoteChar {c : UInt8} (h : c ≠ SPACE) : SPACE ∉ quoteChar [SPACE] c := by
  have hall : ∀ c : UInt8, c ≠ SPACE → SPACE ∉ quoteChar [SPACE] c := forall_byte (by decide +kernel)
  exact hall c h

/-- One byte of `quote_plus`, in a string with a space. -/
theorem decodes_plusChar (c : UInt8) : Decodes ((quoteChar [SPACE] c).map fun d => if d = SPACE then 43 else d) c := by
  by_cases hc : c = SPACE
  · rw [hc, quoteChar_space]
    exact decodes_plus
  · have hmap : (quoteChar [SPACE] c).map (fun d => if d = SPACE then 43 else d) = quoteChar [SPACE] c := by
      refine (List.map_congr_left fun d hd => if_neg ?_).trans (List.map_id' _)
      rintro rfl
      exact space_notMem_quoteChar hc hd
    rw [hmap]
    exact decodes_quoteChar (List.forall_mem_singleton.mpr (by decide)) c

theorem urlDecode_urlEncode (value : Bytes) : urlDecode (urlEncode value) = value :=
  urlDecode_flatMap fun c _ => decodes_urlEncodeChar c

theorem urlDecode_quote (str : Bytes) : urlDecode (quote str) = str :=
  urlDecode_flatMap fun c _ => decodes_quoteChar (List.forall_mem_singleton.mpr (by decide)) c

theorem urlDecode_quotePlus (str : Bytes) : urlDecode (quotePlus str) = str := by
  unfold quotePlus
  split
  · rw [quoteImpl, List.map_flatMap]
    exact urlDecode_flatMap fun c _ => decodes_plusChar c
  · exact urlDecode_quote str

/-- Decoding inverts every encoder, for every string of bytes. -/
theorem urlDecode_encoders (s : Bytes) : urlDecode (urlEncode s) = s ∧ urlDecode (quote s) = s ∧ urlDecode (quotePlus s) = s :=
  ⟨urlDecode_urlEncode s, urlDecode_quote s, urlDecode_quotePlus s⟩

end Netcore
