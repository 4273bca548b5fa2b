import Netcore.Lib.ChunkedCoding
import Netcore.Http.ChunkedDecoder

/-!
# The bodies that `phr_decode_chunked` decodes

`Coded` is the coding that the decoder reads, said without a decoder. It is wider than what RFC 7230 has: a line may end with a line
feed alone, any number of carriage returns may come before it where a line end is read, and nothing is asked of an extension or of the
lines of the trailers. `phrDecodeChunked_iff` says that the decoder accepts this coding, gives up where no continuation could belong to
it, and asks for more otherwise.
-/

namespace Netcore

open Transducer PhrChunkedDecoder
open ChunkedCoding (digitValue digitStep sizeValue sizeText chunk)

/-! ## The coding -/

/-- A line with the size of a chunk: at most as many digits as a `size_t` has, an extension, and a line feed. -/
def SizeLine (n : Nat) (line : Bytes) : Prop :=
  ∃ digits ext, line = digits ++ (ext ++ [LF]) ∧ sizeValue digits = some n ∧ digits.length ≤ 16 ∧
    (∀ c, ext.head? = some c → digitValue c = none) ∧ LF ∉ ext

/-- Carriage returns, and a line feed. -/
def lineEndAfter (n : Nat) : Bytes := List.replicate n CR ++ [LF]

/-- The trailers: lines, and an empty line. -/
inductive Trailers : Bytes → Prop where
  | done (n : Nat) : Trailers (lineEndAfter n)
  | line (n : Nat) {c : UInt8} {cs text : Bytes} (hcr : c ≠ CR) (hlf : c ≠ LF) (hcs : LF ∉ cs) (rest : Trailers text) :
      Trailers (List.replicate n CR ++ c :: (cs ++ LF :: text))

/-- A body in the chunked coding, and its data. With `trailer` the trailers belong to it; without, it ends with the line of the last
chunk. -/
inductive Coded (trailer : Bool) : Bytes → Bytes → Prop where
  | last {line : Bytes} (h : trailer = false) (hline : SizeLine 0 line) : Coded trailer line []
  | trailers {line text : Bytes} (h : trailer = true) (hline : SizeLine 0 line) (htext : Trailers text) : Coded trailer (line ++ text) []
  | chunk (n : Nat) {line part text data : Bytes} (hline : SizeLine part.length line) (hpart : part ≠ [])
      (htext : Coded trailer text data) :
      Coded trailer (line ++ (part ++ (lineEndAfter n ++ text))) (part ++ data)

/-! ## What remains to be read -/

/-- What follows the data of a chunk. -/
def AfterPart (trailer : Bool) (text data : Bytes) : Prop := ∃ n rest, text = lineEndAfter n ++ rest ∧ Coded trailer rest data

/-- What follows the line with a size. -/
def AfterSize (trailer : Bool) (n : Nat) (text data : Bytes) : Prop :=
  if n = 0 then data = [] ∧ if trailer then Trailers text else text = []
  else ∃ part rest data', text = part ++ rest ∧ data = part ++ data' ∧ part.length = n ∧ AfterPart trailer rest data'

/-- The rest of a line, and `P` of what follows it. -/
def RestOfLine (P : Bytes → Prop) (text : Bytes) : Prop := ∃ cs rest, text = cs ++ LF :: rest ∧ LF ∉ cs ∧ P rest

/-- What follows the digits of a size. -/
def AfterExt (trailer : Bool) (n : Nat) (text data : Bytes) : Prop := RestOfLine (AfterSize trailer n · data) text

/-- What a decoder has still to read, and the data in it. -/
def Remains (d : PhrChunkedDecoder) (text data : Bytes) : Prop :=
  match d.state with
  | .inChunkSize => ∃ digits rest n, text = digits ++ rest ∧ digits.foldlM digitStep d.bytesLeftInChunk = some n ∧
      0 < d.hexCount + digits.length ∧ d.hexCount + digits.length ≤ 16 ∧
      (∀ c, rest.head? = some c → digitValue c = none) ∧ AfterExt d.consumeTrailer n rest data
  | .inChunkExt => AfterExt d.consumeTrailer d.bytesLeftInChunk text data
  | .inChunkData => AfterSize d.consumeTrailer d.bytesLeftInChunk text data
  | .inChunkCrlf => AfterPart d.consumeTrailer text data
  | .inTrailersLineHead => data = [] ∧ Trailers text
  | .inTrailersLineMiddle => data = [] ∧ RestOfLine Trailers text

/-- `decode_hex` gives the value of a hexadecimal digit, and -1 for every other character. -/
theorem decodeHex_eq (c : UInt8) : decodeHex c = digitValue c := by
  unfold decodeHex digitValue
  split_ifs with h1 h2 h3
  · rfl
  · rw [UInt8.le_iff_toNat_le, UInt8.le_iff_toNat_le] at h2
    simp only [UInt8.reduceToNat] at h2
    congr 1
    omega
  · rw [UInt8.le_iff_toNat_le, UInt8.le_iff_toNat_le] at h3
    simp only [UInt8.reduceToNat] at h3
    congr 1
    omega
  · rfl

/-! ## A byte less -/

/-- The first byte of the end of a line is one of its `CR`s, or the `LF` that closes it. -/
theorem cons_eq_lineEnd {c : UInt8} {text rest : Bytes} {n : Nat} :
    c :: text = lineEndAfter n ++ rest ↔ (c = CR ∧ ∃ m, n = m + 1 ∧ text = lineEndAfter m ++ rest) ∨ (c = LF ∧ n = 0 ∧ text = rest) := by
  cases n with
  | zero => simp [lineEndAfter]
  | succ n => simp [lineEndAfter, List.replicate_succ]

/-- Behind the data of a chunk there is a line to end. -/
theorem afterPart_nil {t : Bool} {data : Bytes} : ¬AfterPart t [] data := by
  rintro ⟨n, rest, h, -⟩
  simp [lineEndAfter] at h

/-- Behind the data of a chunk: a `CR`, which is skipped, or the `LF`, with the next chunk behind it. -/
theorem afterPart_cons {t : Bool} {c : UInt8} {text data : Bytes} :
    AfterPart t (c :: text) data ↔ (c = CR ∧ AfterPart t text data) ∨ (c = LF ∧ Coded t text data) := by
  constructor
  · rintro ⟨n, rest, h, hrest⟩
    rcases cons_eq_lineEnd.mp h with ⟨hc, m, rfl, htext⟩ | ⟨hc, rfl, rfl⟩
    · exact .inl ⟨hc, m, rest, htext, hrest⟩
    · exact .inr ⟨hc, hrest⟩
  · rintro (⟨hc, n, rest, htext, hrest⟩ | ⟨hc, hrest⟩)
    · exact ⟨n + 1, rest, cons_eq_lineEnd.mpr (.inl ⟨hc, n, rfl, htext⟩), hrest⟩
    · exact ⟨0, text, cons_eq_lineEnd.mpr (.inr ⟨hc, rfl, rfl⟩), hrest⟩

/-- A line is not over before its `LF`. -/
theorem restOfLine_nil {P : Bytes → Prop} : ¬RestOfLine P [] := by
  rintro ⟨cs, rest, h, -⟩
  simp at h

/-- The `LF` ends the line. -/
theorem restOfLine_lf {P : Bytes → Prop} {text : Bytes} : RestOfLine P (LF :: text) ↔ P text := by
  constructor
  · rintro ⟨cs, rest, h, hcs, hrest⟩
    cases cs with
    | nil =>
      obtain ⟨-, rfl⟩ := List.cons.inj h
      exact hrest
    | cons x cs => exact absurd (List.cons.inj h).1 fun hx => hcs (by rw [hx]; exact List.mem_cons_self ..)
  · intro h
    exact ⟨[], text, rfl, List.not_mem_nil, h⟩

/-- Every other byte belongs to the line. -/
theorem restOfLine_cons {P : Bytes → Prop} {c : UInt8} (hc : c ≠ LF) {text : Bytes} : RestOfLine P (c :: text) ↔ RestOfLine P text := by
  constructor
  · rintro ⟨cs, rest, h, hcs, hrest⟩
    cases cs with
    | nil => exact absurd (List.cons.inj h).1 hc
    | cons x cs => exact ⟨cs, rest, (List.cons.inj h).2, fun hx => hcs (List.mem_cons_of_mem _ hx), hrest⟩
  · rintro ⟨cs, rest, rfl, hcs, hrest⟩
    refine ⟨c :: cs, rest, rfl, fun h => ?_, hrest⟩
    rcases List.mem_cons.mp h with h | h
    · exact hc h.symm
    · exact hcs h

/-- The next byte of the data of a chunk. -/
theorem afterSize_cons {t : Bool} {n : Nat} (hn : 0 < n) {c : UInt8} {text data : Bytes} :
    AfterSize t n (c :: text) data ↔
      ∃ data', data = c :: data' ∧ if n = 1 then AfterPart t text data' else AfterSize t (n - 1) text data' := by
  rw [AfterSize, if_neg (by omega)]
  constructor
  · rintro ⟨part, rest, data', h, rfl, rfl, hrest⟩
    obtain ⟨x, part, rfl⟩ := List.exists_cons_of_ne_nil (List.ne_nil_of_length_pos hn)
    obtain ⟨rfl, rfl⟩ := List.cons.inj h
    refine ⟨part ++ data', rfl, ?_⟩
    split_ifs with hone
    · obtain rfl : part = [] := List.length_eq_zero_iff.mp (by rw [List.length_cons] at hone; omega)
      exact hrest
    · rw [AfterSize, if_neg (by rw [List.length_cons] at hone ⊢; omega)]
      exact ⟨part, rest, data', rfl, rfl, by simp, hrest⟩
  · rintro ⟨data', rfl, h⟩
    split_ifs at h with hone
    · exact ⟨[c], text, data', rfl, rfl, by rw [hone]; rfl, h⟩
    · rw [AfterSize, if_neg (by omega)] at h
      obtain ⟨part, rest, data', rfl, rfl, hlen, hrest⟩ := h
      exact ⟨c :: part, rest, data', rfl, rfl, by rw [List.length_cons]; omega, hrest⟩

/-- The first byte of the trailer: a `CR` before the empty line, its `LF`, or the beginning of a line. -/
theorem trailers_cons {c : UInt8} {text : Bytes} :
    Trailers (c :: text) ↔ (c = CR ∧ Trailers text) ∨ (c = LF ∧ text = []) ∨
      (c ≠ CR ∧ c ≠ LF ∧ RestOfLine Trailers text) := by
  constructor
  · intro h
    generalize htext : c :: text = s at h
    cases h with
    | done n =>
      rw [← List.append_nil (lineEndAfter n)] at htext
      rcases cons_eq_lineEnd.mp htext with ⟨hc, m, rfl, rfl⟩ | ⟨hc, rfl, rfl⟩
      · rw [List.append_nil]
        exact .inl ⟨hc, .done m⟩
      · exact .inr (.inl ⟨hc, rfl⟩)
    | line n hcr hlf hcs rest =>
      cases n with
      | zero =>
        obtain ⟨rfl, rfl⟩ := List.cons.inj htext
        exact .inr (.inr ⟨hcr, hlf, _, _, rfl, hcs, rest⟩)
      | succ n =>
        obtain ⟨rfl, rfl⟩ := List.cons.inj htext
        exact .inl ⟨rfl, .line n hcr hlf hcs rest⟩
  · rintro (⟨rfl, h⟩ | ⟨rfl, rfl⟩ | ⟨hcr, hlf, cs, rest, rfl, hcs, hrest⟩)
    · cases h with
      | done n => exact .done (n + 1)
      | line n hcr hlf hcs rest => exact .line (n + 1) hcr hlf hcs rest
    · exact .done 0
    · exact .line 0 hcr hlf hcs hrest

/-- The trailer has its empty line at least. -/
theorem trailers_ne_nil {text : Bytes} (h : Trailers text) : text ≠ [] := by
  cases h with
  | done n => simp [lineEndAfter]
  | line n hcr hlf hcs rest => simp

/-- A body is the line with a size, and what follows it. -/
theorem coded_iff {trailer : Bool} {text data : Bytes} : Coded trailer text data ↔
    ∃ n line rest, text = line ++ rest ∧ SizeLine n line ∧ AfterSize trailer n rest data := by
  constructor
  · intro h
    cases h with
    | last h hline => exact ⟨0, text, [], by simp, hline, by simp [AfterSize, h]⟩
    | trailers h hline htext => exact ⟨0, _, _, rfl, hline, by simp [AfterSize, h, htext]⟩
    | chunk n hline hpart htext =>
      refine ⟨_, _, _, rfl, hline, ?_⟩
      rw [AfterSize, if_neg (by simpa using hpart)]
      exact ⟨_, _, _, rfl, rfl, rfl, n, _, rfl, htext⟩
  · rintro ⟨n, line, rest, rfl, hline, h⟩
    unfold AfterSize at h
    split_ifs at h with hn ht
    · subst hn
      obtain ⟨rfl, htext⟩ := h
      exact .trailers ht hline htext
    · subst hn
      obtain ⟨rfl, rfl⟩ := h
      rw [List.append_nil]
      exact .last (Bool.eq_false_iff.mpr ht) hline
    · obtain ⟨part, rest, data, rfl, rfl, rfl, m, rest, rfl, hrest⟩ := h
      exact .chunk m hline (by simpa using hn) hrest

/-- The digits of a size are followed by an extension or by the line feed, which is no digit either. -/
theorem head_ext {ext rest : Bytes} :
    (∀ c, (ext ++ LF :: rest).head? = some c → digitValue c = none) ↔ ∀ c, ext.head? = some c → digitValue c = none := by
  cases ext with
  | nil =>
    have hlf : digitValue LF = none := by decide
    simp [hlf]
  | cons x ext => simp

/-- A body is what a decoder has to read at the start. -/
theorem remains_zero (trailer : Bool) (text data : Bytes) : Remains { consumeTrailer := trailer } text data ↔ Coded trailer text data := by
  rw [coded_iff]
  constructor
  · rintro ⟨digits, -, n, rfl, hvalue, hpos, hlen, hhead, ext, rest, rfl, hext, hrest⟩
    have hne : digits ≠ [] := List.ne_nil_of_length_pos (by simpa using hpos)
    refine ⟨n, digits ++ (ext ++ [LF]), rest, by simp, ⟨digits, ext, rfl, ?_, by simpa using hlen, head_ext.mp hhead, hext⟩, hrest⟩
    rw [sizeValue, if_neg hne]
    exact hvalue
  · rintro ⟨n, -, rest, rfl, ⟨digits, ext, rfl, hvalue, hlen, hhead, hext⟩, hrest⟩
    unfold sizeValue at hvalue
    split_ifs at hvalue with hne
    have hpos : 0 < digits.length := List.length_pos_iff.mpr hne
    exact ⟨digits, ext ++ LF :: rest, n, by simp, hvalue, by simpa using hpos, by simpa using hlen, head_ext.mpr hhead, ext, rest, rfl,
      hext, hrest⟩

/-! ## The decoder reads the coding -/

/-- Another digit of a size. -/
theorem remains_digit {d : PhrChunkedDecoder} (hd : d.Proper) (hstate : d.state = .inChunkSize) {c : UInt8} {v : Nat}
    (hv : decodeHex c = some v) (text data : Bytes) :
    Remains d (c :: text) data ↔ d.hexCount ≠ 16 ∧ Remains (d.addDigit v) text data := by
  have hstep : d.hexCount ≠ 16 → digitStep d.bytesLeftInChunk c = some (d.addDigit v).bytesLeftInChunk := by
    intro hcount
    rw [(hd.addDigit hstate hcount (decodeHex_lt hv)).2, digitStep, ← decodeHex_eq, hv, Option.map_some, Nat.mul_comm]
  have hkept : (d.addDigit v).state = .inChunkSize := hstate
  have hcount' : (d.addDigit v).hexCount = d.hexCount + 1 := rfl
  unfold Remains
  rw [hstate, hkept]
  simp only
  constructor
  · rintro ⟨digits, rest, n, htext, hvalue, hpos, hlen, hhead, hrest⟩
    cases digits with
    | nil =>
      rw [List.nil_append] at htext
      rw [← htext] at hhead
      exact absurd ((decodeHex_eq c).symm.trans (by rw [hv])) (by rw [hhead c rfl]; simp)
    | cons x digits =>
      obtain ⟨rfl, rfl⟩ := List.cons.inj htext
      rw [List.length_cons] at hlen
      have hcount : d.hexCount ≠ 16 := by omega
      rw [List.foldlM_cons, hstep hcount] at hvalue
      exact ⟨hcount, digits, rest, n, rfl, hvalue, by omega, by omega, hhead, hrest⟩
  · rintro ⟨hcount, digits, rest, n, rfl, hvalue, hpos, hlen, hhead, hrest⟩
    refine ⟨c :: digits, rest, n, rfl, ?_, by rw [List.length_cons]; omega, by rw [List.length_cons]; omega, hhead, hrest⟩
    rw [List.foldlM_cons, hstep hcount]
    exact hvalue

/-- A byte after the digits of a size. -/
theorem remains_noDigit {d : PhrChunkedDecoder} (hstate : d.state = .inChunkSize) (hle : d.hexCount ≤ 16) {c : UInt8}
    (hv : decodeHex c = none) (text data : Bytes) :
    Remains d (c :: text) data ↔ d.hexCount ≠ 0 ∧ AfterExt d.consumeTrailer d.bytesLeftInChunk (c :: text) data := by
  rw [decodeHex_eq] at hv
  unfold Remains
  rw [hstate]
  simp only
  constructor
  · rintro ⟨digits, rest, n, htext, hvalue, hpos, hlen, hhead, hrest⟩
    cases digits with
    | nil =>
      rw [List.nil_append] at htext
      obtain rfl := Option.some.inj hvalue
      rw [htext]
      exact ⟨by rw [List.length_nil] at hpos; omega, hrest⟩
    | cons x digits =>
      obtain ⟨rfl, -⟩ := List.cons.inj htext
      rw [List.foldlM_cons, digitStep, hv] at hvalue
      cases hvalue
  · rintro ⟨hcount, hrest⟩
    refine ⟨[], c :: text, _, rfl, rfl, by rw [List.length_nil]; omega, by rw [List.length_nil]; omega, ?_, hrest⟩
    intro x hx
    obtain rfl := Option.some.inj hx
    exact hv

/-- What remains to be read after a byte is what remained before it, less the byte. -/
def LessByte (turn : Turn PhrChunkedDecoder UInt8) (text data : Bytes) (before : Prop) : Prop :=
  match turn with
  | .skip t => before ↔ Remains t text data
  | .deliver b t => before ↔ ∃ data', data = b :: data' ∧ Remains t text data'
  | .last _ => before ↔ text = [] ∧ data = []
  | .refuse => ¬before

/-- A byte of an extension is skipped until the `LF`, which decides by the size that was read. -/
theorem extByte_lessByte {d : PhrChunkedDecoder} (hstate : d.state = .inChunkExt) (c : UInt8) (text data : Bytes) :
    LessByte (extByte d c) text data (AfterExt d.consumeTrailer d.bytesLeftInChunk (c :: text) data) := by
  unfold extByte
  by_cases hc : c = LF
  · subst hc
    simp only [if_true, AfterExt, restOfLine_lf]
    split_ifs with hleft htrailer
    · simp [LessByte, Remains, AfterSize, hleft, htrailer]
    · simp [LessByte, AfterSize, hleft, htrailer, and_comm]
    · simp [LessByte, Remains]
  · rw [if_neg hc, LessByte, Remains, hstate, AfterExt, restOfLine_cons hc]
    rfl

/-- In the size of a chunk: a digit is added to it, any other byte ends it, and the seventeenth digit is refused. -/
theorem size_lessByte {d : PhrChunkedDecoder} (hd : d.Proper) (hstate : d.state = .inChunkSize) (c : UInt8) (text data : Bytes) :
    LessByte (react d c) text data (Remains d (c :: text) data) := by
  have hproper := hd
  rw [Proper, hstate] at hd
  rw [react, hstate]
  simp only
  cases hv : decodeHex c with
  | none =>
    simp only [remains_noDigit hstate hd.1 hv]
    by_cases hcount : d.hexCount = 0
    · simp [LessByte, hcount]
    · simp only [hcount, if_false, ne_eq, not_false_eq_true, true_and]
      exact extByte_lessByte (d := { d with hexCount := 0, state := .inChunkExt }) rfl c text data
  | some v =>
    rw [remains_digit hproper hstate hv text data]
    by_cases hcount : d.hexCount = 16
    · simp [LessByte, hcount]
    · simp [LessByte, hcount]

/-- In the data of a chunk: the byte is data, and one less is left. -/
theorem data_lessByte {d : PhrChunkedDecoder} (hd : d.Proper) (hstate : d.state = .inChunkData) (c : UInt8) (text data : Bytes) :
    LessByte (react d c) text data (Remains d (c :: text) data) := by
  rw [Proper, hstate] at hd
  have hbefore : Remains d (c :: text) data ↔ AfterSize d.consumeTrailer d.bytesLeftInChunk (c :: text) data := by rw [Remains, hstate]
  rw [react, hstate, hbefore, afterSize_cons hd.2.1]
  by_cases hone : d.bytesLeftInChunk = 1
  · simp [LessByte, hone, Remains]
  · simp [LessByte, hone, Remains]

/-- Behind the data of a chunk: only the end of a line will do. -/
theorem crlf_lessByte {d : PhrChunkedDecoder} (hd : d.Proper) (hstate : d.state = .inChunkCrlf) (c : UInt8) (text data : Bytes) :
    LessByte (react d c) text data (Remains d (c :: text) data) := by
  have hbefore : Remains d (c :: text) data ↔ AfterPart d.consumeTrailer (c :: text) data := by rw [Remains, hstate]
  rw [Proper, hstate] at hd
  rw [react, hstate]
  simp only
  by_cases hcr : c = CR
  · simp [LessByte, hcr, afterPart_cons, Remains, hstate]
  · by_cases hlf : c = LF
    · obtain ⟨left, trailer, count, state⟩ := d
      obtain ⟨rfl, rfl⟩ : count = 0 ∧ left = 0 := hd
      rw [if_neg hcr, if_pos hlf, hbefore, afterPart_cons]
      have hne : LF ≠ CR := by decide
      simp [LessByte, remains_zero, hlf, hne]
    · simp [LessByte, hcr, hlf, hbefore, afterPart_cons]

/-- At the beginning of a line of the trailer. -/
theorem trailersHead_lessByte {d : PhrChunkedDecoder} (hstate : d.state = .inTrailersLineHead) (c : UInt8) (text data : Bytes) :
    LessByte (react d c) text data (Remains d (c :: text) data) := by
  have hbefore : Remains d (c :: text) data ↔ data = [] ∧ Trailers (c :: text) := by rw [Remains, hstate]
  rw [react, hstate]
  simp only
  by_cases hcr : c = CR
  · simp [LessByte, hcr, trailers_cons, Remains, hstate]
  · by_cases hlf : c = LF
    · simp [LessByte, hlf ▸ hcr, hlf, hlf ▸ hbefore, trailers_cons, and_comm]
    · simp only [hcr, hlf, if_false]
      rw [hbefore, trailers_cons, LessByte, Remains]
      simp [hcr, hlf]

/-- Within a line of the trailer, of which all is skipped. -/
theorem trailersMiddle_lessByte {d : PhrChunkedDecoder} (hstate : d.state = .inTrailersLineMiddle) (c : UInt8) (text data : Bytes) :
    LessByte (react d c) text data (Remains d (c :: text) data) := by
  have hbefore : Remains d (c :: text) data ↔ data = [] ∧ RestOfLine Trailers (c :: text) := by rw [Remains, hstate]
  rw [react, hstate, LessByte, hbefore]
  split_ifs with hlf
  · rw [hlf, restOfLine_lf, Remains]
  · rw [restOfLine_cons hlf, Remains, hstate]

/-- In every state the decoder takes one byte off what it has still to read. -/
theorem remains_react {d : PhrChunkedDecoder} (hd : d.Proper) (c : UInt8) (text data : Bytes) :
    LessByte (react d c) text data (Remains d (c :: text) data) := by
  cases hstate : d.state with
  | inChunkSize => exact size_lessByte hd hstate c text data
  | inChunkExt =>
    have hbefore : Remains d (c :: text) data ↔ AfterExt d.consumeTrailer d.bytesLeftInChunk (c :: text) data := by rw [Remains, hstate]
    rw [react, hstate, hbefore]
    exact extByte_lessByte hstate c text data
  | inChunkData => exact data_lessByte hd hstate c text data
  | inChunkCrlf => exact crlf_lessByte hd hstate c text data
  | inTrailersLineHead => exact trailersHead_lessByte hstate c text data
  | inTrailersLineMiddle => exact trailersMiddle_lessByte hstate c text data

/-- A proper decoder has something to read still. -/
theorem remains_nil {d : PhrChunkedDecoder} (hd : d.Proper) {data : Bytes} : ¬Remains d [] data := by
  intro h
  rw [Proper] at hd
  cases hstate : d.state with
  | inChunkSize =>
    rw [Remains, hstate] at h
    obtain ⟨digits, rest, n, htext, -, -, -, -, hrest⟩ := h
    rw [(List.append_eq_nil_iff.mp htext.symm).2] at hrest
    exact restOfLine_nil hrest
  | inChunkExt =>
    rw [Remains, hstate] at h
    exact restOfLine_nil h
  | inChunkData =>
    rw [hstate] at hd
    rw [Remains, hstate] at h
    simp only at h
    rw [AfterSize, if_neg (Nat.ne_of_gt hd.2.1)] at h
    obtain ⟨part, rest, data', htext, -, hlen, -⟩ := h
    rw [(List.append_eq_nil_iff.mp htext.symm).1] at hlen
    exact absurd hlen (Nat.ne_of_lt hd.2.1)
  | inChunkCrlf =>
    rw [Remains, hstate] at h
    exact afterPart_nil h
  | inTrailersLineHead =>
    rw [Remains, hstate] at h
    exact trailers_ne_nil h.2 rfl
  | inTrailersLineMiddle =>
    rw [Remains, hstate] at h
    exact restOfLine_nil h.2

/-- The decoder takes what remains to be read to what remains after a byte. -/
theorem remains_derives : Derives react Proper Remains where
  keeps hd h := hd.react h
  nil hd := remains_nil hd
  skip {d c t} hd h xs out := by
    have hreact := remains_react hd c xs out
    rwa [h] at hreact
  deliver {d c b t} hd h xs out := by
    have hreact := remains_react hd c xs out
    rwa [h] at hreact
  last {d c t} hd h xs out := by
    have hreact := remains_react hd c xs out
    rwa [h] at hreact
  refuse {d c} hd h xs out := by
    have hreact := remains_react hd c xs out
    rwa [h] at hreact

/-! ## Every decoder can come to an end -/

/-- A body without data. -/
theorem coded_empty (trailer : Bool) : ∃ text, Coded trailer text [] := by
  have hzero : SizeLine 0 (bytes "0\n") :=
    ⟨bytes "0", [], by decide, by decide, by decide, fun c h => (by cases h), List.not_mem_nil⟩
  cases trailer with
  | false => exact ⟨_, .last rfl hzero⟩
  | true => exact ⟨_, .trailers rfl hzero (.done 0)⟩

/-- Every size has a body that goes on from it. -/
theorem exists_afterSize (trailer : Bool) (n : Nat) : ∃ text data, AfterSize trailer n text data := by
  obtain ⟨rest, hrest⟩ := coded_empty trailer
  by_cases hn : n = 0
  · cases trailer with
    | false => exact ⟨[], [], by simp [AfterSize, hn]⟩
    | true => exact ⟨_, [], by simpa [AfterSize, hn] using Trailers.done 0⟩
  · refine ⟨List.replicate n 0 ++ (lineEndAfter 0 ++ rest), List.replicate n 0 ++ [], ?_⟩
    rw [AfterSize, if_neg hn]
    exact ⟨_, _, _, rfl, rfl, List.length_replicate, 0, rest, rfl, hrest⟩

/-- A decoder in any state can still come to the end of a body. -/
theorem exists_remains {d : PhrChunkedDecoder} (hd : d.Proper) : ∃ text data, Remains d text data := by
  obtain ⟨text, data, hsize⟩ := exists_afterSize d.consumeTrailer d.bytesLeftInChunk
  obtain ⟨body, hbody⟩ := coded_empty d.consumeTrailer
  have hline : AfterExt d.consumeTrailer d.bytesLeftInChunk (LF :: text) data := restOfLine_lf.mpr hsize
  have hproper := hd
  rw [Proper] at hd
  cases hstate : d.state with
  | inChunkSize =>
    rw [hstate] at hd
    by_cases hcount : d.hexCount = 0
    · obtain ⟨left, trailer, count, state⟩ := d
      obtain rfl : state = .inChunkSize := hstate
      obtain rfl : count = 0 := hcount
      have hleft : left < 1 := hd.2
      obtain rfl : left = 0 := by omega
      exact ⟨body, [], (remains_zero _ _ _).mpr hbody⟩
    · have hlf : decodeHex LF = none := by decide
      exact ⟨LF :: text, data, (remains_noDigit hstate hd.1 hlf text data).mpr ⟨hcount, hline⟩⟩
  | inChunkExt => exact ⟨LF :: text, data, by rwa [Remains, hstate]⟩
  | inChunkData => exact ⟨text, data, by rwa [Remains, hstate]⟩
  | inChunkCrlf => exact ⟨lineEndAfter 0 ++ body, [], by rw [Remains, hstate]; exact ⟨0, body, rfl, hbody⟩⟩
  | inTrailersLineHead => exact ⟨lineEndAfter 0, [], by rw [Remains, hstate]; exact ⟨rfl, .done 0⟩⟩
  | inTrailersLineMiddle =>
    exact ⟨LF :: lineEndAfter 0, [], by rw [Remains, hstate]; exact ⟨rfl, restOfLine_lf.mpr (.done 0)⟩⟩

/-! ## What a call says of its buffer -/

/-- The decoder is done when its last state took the byte, and the rest is what it left unread. -/
theorem PhrChunkedDecoder.endOf_eq_complete {r : Run PhrChunkedDecoder UInt8 UInt8} {rest : Bytes} :
    endOf r = .complete rest ↔ r.verdict = .last ∧ r.rest = rest := by
  unfold endOf
  cases hv : r.verdict <;> simp

/-- The decoder fails when a byte is refused. -/
theorem PhrChunkedDecoder.endOf_eq_failed {r : Run PhrChunkedDecoder UInt8 UInt8} : endOf r = .failed ↔ r.verdict = .refused := by
  unfold endOf
  cases hv : r.verdict <;> simp

/-- The decoder is not done when the text ends first. -/
theorem PhrChunkedDecoder.endOf_eq_incomplete {r : Run PhrChunkedDecoder UInt8 UInt8} : endOf r = .incomplete ↔ r.verdict = .more := by
  unfold endOf
  cases hv : r.verdict <;> simp

/-- **What the decoder accepts.** A call comes to the end of a body exactly where one ends in the buffer, and then leaves its data and
what follows it; it fails exactly when no continuation of the buffer begins with a body, and asks for more in between. -/
theorem phrDecodeChunked_iff (trailer : Bool) (buf : Bytes) : ∃ r, phrDecodeChunked { consumeTrailer := trailer } buf = some r ∧
    (∀ data rest, r.data = data ∧ r.bodyEnd = .complete rest ↔ ∃ text, buf = text ++ rest ∧ Coded trailer text data) ∧
    (r.bodyEnd = .failed ↔ ∀ more text rest data, buf ++ more = text ++ rest → ¬Coded trailer text data) ∧
    (r.bodyEnd = .incomplete ↔ (∀ text rest data, buf = text ++ rest → ¬Coded trailer text data) ∧
      ∃ more text rest data, buf ++ more = text ++ rest ∧ Coded trailer text data) := by
  have hzero := proper_zero trailer
  obtain ⟨r, hcall, hshows⟩ := phrDecodeChunked_eq hzero buf
  refine ⟨r, hcall, fun data rest => ?_, ?_, ?_⟩
  · rw [hshows.data, hshows.bodyEnd, endOf_eq_complete]
    simp only [← remains_zero, ← remains_derives.run_iff buf hzero]
    exact ⟨fun h => ⟨h.2.1, h.1, h.2.2⟩, fun h => ⟨h.2.1, h.1, h.2.2⟩⟩
  · rw [hshows.bodyEnd, endOf_eq_failed, remains_derives.refused_iff (fun d hd => exists_remains hd) hzero]
    simp only [remains_zero]
  · rw [hshows.bodyEnd, endOf_eq_incomplete, remains_derives.more_iff (fun d hd => exists_remains hd) hzero]
    simp only [remains_zero]

/-! ## Bodies that are written -/

/-- The calls for a stream are the machine on it. -/
theorem decodeAll_eq_run (trailer : Bool) (ps : List Bytes) : decodeAll { consumeTrailer := trailer } ps =
    some ((run react { consumeTrailer := trailer } ps.flatten).out, endOf (run react { consumeTrailer := trailer } ps.flatten)) := by
  rw [decodeAll_eq_feed ps (proper_zero trailer), feed_eq_run]

section Coded

variable {trailer : Bool} {text data : Bytes} (h : Coded trailer text data) {ps : List Bytes}

include h

/-- The data of a body are decoded from the pieces of a stream that begins with it. -/
theorem Coded.decodes {next : Bytes} (hps : ps.flatten = text ++ next) :
    decodeAll { consumeTrailer := trailer } ps = some (data, .complete next) := by
  obtain ⟨hlast, hout, hrest⟩ := (remains_derives.run_iff ps.flatten (proper_zero trailer)).mpr
    ⟨text, hps, (remains_zero trailer text data).mpr h⟩
  rw [decodeAll_eq_run, hout, endOf_eq_complete.mpr ⟨hlast, hrest⟩]

/-- Where a body is cut off, more is asked for, and what has been decoded is the beginning of the data. -/
theorem Coded.cut_off {missing : Bytes} (hne : missing ≠ []) (hps : ps.flatten ++ missing = text) :
    ∃ part, decodeAll { consumeTrailer := trailer } ps = some (part, .incomplete) ∧ part <+: data := by
  obtain ⟨hlast, hout, hrest⟩ := (remains_derives.run_iff text (proper_zero trailer)).mpr
    ⟨text, (List.append_nil text).symm, (remains_zero trailer text data).mpr h⟩
  rw [← hps] at hlast hout hrest
  rw [decodeAll_eq_run]
  cases hv : (run react { consumeTrailer := trailer } ps.flatten).verdict with
  | more =>
    rw [run_append_more hv, Run.after_out] at hout
    refine ⟨_, by rw [endOf_eq_incomplete.mpr hv], ?_⟩
    rw [← hout]
    exact List.prefix_append _ _
  | last =>
    rw [run_append_stop (by rw [hv]; decide)] at hrest
    exact absurd (List.append_eq_nil_iff.mp hrest).2 hne
  | refused =>
    rw [run_append_stop (by rw [hv]; decide)] at hlast
    exact absurd (hv.symm.trans hlast) (by decide)

end Coded

/-- The size as the server writes it is the line of a chunk, for every `size_t`. -/
theorem sizeLine_sizeText {n : Nat} (hn : n < 18446744073709551616) : SizeLine n (sizeText n ++ [CR, LF]) := by
  refine ⟨sizeText n, [CR], rfl, ChunkedCoding.sizeValue_sizeText n, ?_, fun c hc => ?_, by decide⟩
  · rw [sizeText, List.length_map]
    exact (Nat.length_toDigits_le_iff (by decide) (by decide)).mpr hn
  · obtain rfl := Option.some.inj hc
    decide

/-- A chunk with data before a body. -/
theorem Coded.chunk_append {trailer : Bool} {text data part : Bytes} (hpart : part ≠ []) (hlen : part.length < 18446744073709551616)
    (h : Coded trailer text data) : Coded trailer (ChunkedCoding.chunk part ++ text) (part ++ data) := by
  have hchunk := Coded.chunk 1 (sizeLine_sizeText hlen) hpart h
  have htext : ChunkedCoding.chunk part ++ text = sizeText part.length ++ [CR, LF] ++ (part ++ (lineEndAfter 1 ++ text)) := by
    simp [ChunkedCoding.chunk, lineEndAfter, CR, LF]
  rwa [htext]

/-- Chunks before a coded body make a longer one, with their data before its data. -/
theorem Coded.flatMap_chunk {trailer : Bool} {text data : Bytes} (h : Coded trailer text data) {parts : List Bytes}
    (hparts : ∀ part ∈ parts, part ≠ [] ∧ part.length < 18446744073709551616) :
    Coded trailer (parts.flatMap ChunkedCoding.chunk ++ text) (parts.flatten ++ data) := by
  induction parts with
  | nil => exact h
  | cons part parts ih =>
    obtain ⟨hne, hlen⟩ := hparts part (List.mem_cons_self ..)
    rw [List.flatMap_cons, List.flatten_cons, List.append_assoc, List.append_assoc]
    exact (ih fun p hp => hparts p (List.mem_cons_of_mem _ hp)).chunk_append hne hlen

/-- The last chunk is a body without data; the line end after it belongs to the trailers. -/
theorem coded_lastChunk : Coded true (ChunkedCoding.chunk []) [] := by
  have htext : ChunkedCoding.chunk [] = (sizeText 0 ++ [CR, LF]) ++ lineEndAfter 1 := by decide
  rw [htext]
  exact .trailers rfl (sizeLine_sizeText (by decide)) (.done 1)

/-- The line of size zero ends a body without trailer. -/
theorem coded_lastLine : Coded false (sizeText 0 ++ [CR, LF]) [] := .last rfl (sizeLine_sizeText (by decide))

end Netcore
