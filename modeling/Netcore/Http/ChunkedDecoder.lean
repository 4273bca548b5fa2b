import Netcore.Basic
import Netcore.Lib.Loops
import Netcore.Lib.Transducer

/-!
# `phr_decode_chunked`

The decoder of `picohttpparser.h` for bodies in the chunked coding. It rewrites the buffer it is given: the data of the chunks are moved
to its beginning, and what is left undecoded behind them. It is meant to be called again with newly arrived data while it returns -2.

`react` is the same decoder as a machine that looks at one byte at a time and has no buffer. `phrDecodeChunked_eq` says that a call
computes the machine on its buffer, so that the calls for the pieces of a stream are one call for the stream (`decodeAll_flatten`).
-/

namespace Netcore

open Slices Loops Transducer

/-! ## The model -/

/-- `_state`. -/
inductive ChunkedState where
  | inChunkSize
  | inChunkExt
  | inChunkData
  | inChunkCrlf
  | inTrailersLineHead
  | inTrailersLineMiddle
  deriving DecidableEq, Repr

/-- `phr_chunked_decoder`. The defaults are the zeros that it is filled with before the start. -/
structure PhrChunkedDecoder where
  bytesLeftInChunk : Nat := 0
  consumeTrailer : Bool := false
  hexCount : Nat := 0
  state : ChunkedState := .inChunkSize
  deriving DecidableEq, Repr

/-- `decode_hex`, with `none` for -1. -/
def decodeHex (c : UInt8) : Option Nat :=
  if 48 ≤ c ∧ c ≤ 57 then some (c.toNat - 48)
  else if 65 ≤ c ∧ c ≤ 70 then some (c.toNat - 65 + 10)
  else if 97 ≤ c ∧ c ≤ 102 then some (c.toNat - 97 + 10)
  else none

namespace PhrChunkedDecoder

/-- A digit of the size, added to the `size_t`. -/
def addDigit (d : PhrChunkedDecoder) (v : Nat) : PhrChunkedDecoder :=
  { d with bytesLeftInChunk := (d.bytesLeftInChunk * 16 + v) % 18446744073709551616, hexCount := d.hexCount + 1 }

/-- The loop over the digits of a size, on the bytes from `src` on: the decoder and `src` at its end, and `ret` when it leaves for
`Exit`. -/
def sizeLoop : Bytes → PhrChunkedDecoder → Nat → PhrChunkedDecoder × Nat × Option Int
  | [], d, src => (d, src, some (-2))
  | c :: cs, d, src =>
    match decodeHex c with
    | none => if d.hexCount = 0 then (d, src, some (-1)) else (d, src, none)
    | some v => if d.hexCount = 16 then (d, src, some (-1)) else sizeLoop cs (d.addDigit v) (src + 1)

/-- A loop `for (;; ++src)` to the first byte with `stop`, on the bytes from `src` on; `none` at the end of the buffer. -/
def seek (stop : UInt8 → Bool) : Bytes → Nat → Option Nat
  | [], _ => none
  | c :: cs, src => if stop c then some src else seek stop cs (src + 1)

/-- The variables of `phr_decode_chunked`; the buffer is as long as `bufsz` says. -/
structure Cursor where
  decoder : PhrChunkedDecoder
  buf : Bytes
  dst : Nat := 0
  src : Nat := 0
  deriving DecidableEq, Repr

/-- What a call leaves: its value, the decoder, `*_bufsz` and the buffer. -/
structure Decoded where
  ret : Int
  decoder : PhrChunkedDecoder
  bufsz : Nat
  buf : Bytes
  deriving DecidableEq, Repr

namespace Cursor

/-- `memmove(buf + dst, buf + src, n)`, which is left out where nothing would move. -/
def moved (k : Cursor) (n : Nat) : Bytes :=
  if k.dst = k.src then k.buf else overwrite k.buf k.dst (slice k.buf k.src (k.src + n))

/-- `Exit`. -/
def exit (k : Cursor) (ret : Int) : Decoded := ⟨ret, k.decoder, k.dst, k.moved (k.buf.length - k.src)⟩

/-- `Complete`. -/
def complete (k : Cursor) : Decoded := k.exit (k.buf.length - k.src : Nat)

/-- On to another state, with `src` at another byte. -/
def goTo (k : Cursor) (state : ChunkedState) (src : Nat) : Cursor :=
  { k with decoder := { k.decoder with state := state }, src := src }

/-- The first `n` of the bytes at `src` are data of the chunk. -/
def take (k : Cursor) (n : Nat) : Cursor :=
  { decoder := { k.decoder with bytesLeftInChunk := k.decoder.bytesLeftInChunk - n }
    buf := k.moved n
    dst := k.dst + n
    src := k.src + n }

/-- The end of the buffer. -/
def atEnd (k : Cursor) : Decoded := { k with src := k.buf.length }.exit (-2)

/-- The `switch`, once. A case that falls through has set the state to that of the next case before. -/
def step (k : Cursor) : Cursor ⊕ Decoded :=
  match k.decoder.state with
  | .inChunkSize =>
    match sizeLoop (k.buf.drop k.src) k.decoder k.src with
    | (d, src, some ret) => .inr ({ k with decoder := d, src := src }.exit ret)
    | (d, src, none) => .inl { k with decoder := { d with hexCount := 0, state := .inChunkExt }, src := src }
  | .inChunkExt =>
    match seek (· = LF) (k.buf.drop k.src) k.src with
    | none => .inr k.atEnd
    | some src =>
      if k.decoder.bytesLeftInChunk = 0 then
        if k.decoder.consumeTrailer then .inl (k.goTo .inTrailersLineHead (src + 1))
        else .inr { k with src := src + 1 }.complete
      else .inl (k.goTo .inChunkData (src + 1))
  | .inChunkData =>
    if k.buf.length - k.src < k.decoder.bytesLeftInChunk then .inr ((k.take (k.buf.length - k.src)).exit (-2))
    else .inl ((k.take k.decoder.bytesLeftInChunk).goTo .inChunkCrlf (k.src + k.decoder.bytesLeftInChunk))
  | .inChunkCrlf =>
    match seek (· ≠ CR) (k.buf.drop k.src) k.src with
    | none => .inr k.atEnd
    | some src => if k.buf.getD src 0 ≠ LF then .inr ({ k with src := src }.exit (-1)) else .inl (k.goTo .inChunkSize (src + 1))
  | .inTrailersLineHead =>
    match seek (· ≠ CR) (k.buf.drop k.src) k.src with
    | none => .inr k.atEnd
    | some src =>
      if k.buf.getD src 0 = LF then .inr { k with src := src + 1 }.complete else .inl (k.goTo .inTrailersLineMiddle (src + 1))
  | .inTrailersLineMiddle =>
    match seek (· = LF) (k.buf.drop k.src) k.src with
    | none => .inr k.atEnd
    | some src => .inl (k.goTo .inTrailersLineHead (src + 1))

end Cursor

end PhrChunkedDecoder

open PhrChunkedDecoder

/-- `phr_decode_chunked`. The loop ends before it has been run so often (`phrDecodeChunked_eq`). -/
def phrDecodeChunked (d : PhrChunkedDecoder) (buf : Bytes) : Option Decoded :=
  iterate Cursor.step (2 * buf.length + 2) { decoder := d, buf := buf }

/-! ## The decoder as a machine -/

namespace PhrChunkedDecoder

/-- A byte of an extension, or the line feed after it. -/
def extByte (d : PhrChunkedDecoder) (c : UInt8) : Turn PhrChunkedDecoder UInt8 :=
  if c = LF then
    if d.bytesLeftInChunk = 0 then
      if d.consumeTrailer then .skip { d with state := .inTrailersLineHead } else .last d
    else .skip { d with state := .inChunkData }
  else .skip d

/-- What the decoder does with a byte. -/
def react (d : PhrChunkedDecoder) (c : UInt8) : Turn PhrChunkedDecoder UInt8 :=
  match d.state with
  | .inChunkSize =>
    match decodeHex c with
    | none => if d.hexCount = 0 then .refuse else extByte { d with hexCount := 0, state := .inChunkExt } c
    | some v => if d.hexCount = 16 then .refuse else .skip (d.addDigit v)
  | .inChunkExt => extByte d c
  | .inChunkData =>
    .deliver c { d with
      bytesLeftInChunk := d.bytesLeftInChunk - 1
      state := if d.bytesLeftInChunk = 1 then .inChunkCrlf else .inChunkData }
  | .inChunkCrlf => if c = CR then .skip d else if c = LF then .skip { d with state := .inChunkSize } else .refuse
  | .inTrailersLineHead => if c = CR then .skip d else if c = LF then .last d else .skip { d with state := .inTrailersLineMiddle }
  | .inTrailersLineMiddle => .skip (if c = LF then { d with state := .inTrailersLineHead } else d)

/-- What holds of a decoder between two bytes: a size that is being read has the digits that have been counted, there are data to come
in the middle of a chunk, and none between two chunks and in the trailers. -/
def Proper (d : PhrChunkedDecoder) : Prop :=
  match d.state with
  | .inChunkSize => d.hexCount ≤ 16 ∧ d.bytesLeftInChunk < 16 ^ d.hexCount
  | .inChunkExt => d.hexCount = 0 ∧ d.bytesLeftInChunk < 18446744073709551616
  | .inChunkData => d.hexCount = 0 ∧ 0 < d.bytesLeftInChunk ∧ d.bytesLeftInChunk < 18446744073709551616
  | _ => d.hexCount = 0 ∧ d.bytesLeftInChunk = 0

/-- Before the start. -/
theorem proper_zero (trailer : Bool) : Proper { consumeTrailer := trailer } := ⟨Nat.zero_le _, Nat.one_pos⟩

theorem decodeHex_lt {c : UInt8} {v : Nat} (h : decodeHex c = some v) : v < 16 := by
  unfold decodeHex at h
  split_ifs at h with h1 h2 h3
  all_goals
    simp only [Option.some.injEq] at h
    rw [UInt8.le_iff_toNat_le, UInt8.le_iff_toNat_le] at *
    simp only [UInt8.reduceToNat] at *
    omega

/-- As many digits as are read at most do not make the size too large for a `size_t`. -/
theorem Proper.size_lt {d : PhrChunkedDecoder} (hd : d.Proper) (hstate : d.state = .inChunkSize) :
    d.bytesLeftInChunk < 18446744073709551616 := by
  rw [Proper, hstate] at hd
  have hpow : 16 ^ d.hexCount ≤ 16 ^ 16 := Nat.pow_le_pow_right (by decide) hd.1
  exact Nat.lt_of_lt_of_le hd.2 hpow

/-- A digit more, where there is room for it. -/
theorem Proper.addDigit {d : PhrChunkedDecoder} (hd : d.Proper) (hstate : d.state = .inChunkSize) (hcount : d.hexCount ≠ 16) {v : Nat}
    (hv : v < 16) : (d.addDigit v).Proper ∧ (d.addDigit v).bytesLeftInChunk = d.bytesLeftInChunk * 16 + v := by
  rw [Proper, hstate] at hd
  obtain ⟨hle, hlt⟩ := hd
  have hnext : d.bytesLeftInChunk * 16 + v < 16 ^ (d.hexCount + 1) := by
    rw [Nat.pow_succ]
    omega
  have hpow : 16 ^ (d.hexCount + 1) ≤ 16 ^ 16 := Nat.pow_le_pow_right (by decide) (by omega)
  have hsum : (d.addDigit v).bytesLeftInChunk = d.bytesLeftInChunk * 16 + v := Nat.mod_eq_of_lt (Nat.lt_of_lt_of_le hnext hpow)
  have hkept : (d.addDigit v).state = .inChunkSize := hstate
  have hdigits : (d.addDigit v).hexCount = d.hexCount + 1 := rfl
  refine ⟨?_, hsum⟩
  rw [Proper, hkept, hsum, hdigits]
  exact ⟨by omega, hnext⟩

/-- The size has been read. -/
theorem Proper.ext {d : PhrChunkedDecoder} (hd : d.Proper) (hstate : d.state = .inChunkSize) :
    ({ d with hexCount := 0, state := .inChunkExt } : PhrChunkedDecoder).Proper := ⟨rfl, hd.size_lt hstate⟩

theorem Proper.extByte {d t : PhrChunkedDecoder} (hd : d.Proper) (hstate : d.state = .inChunkExt) {c : UInt8}
    (h : (extByte d c).next = some t) : t.Proper := by
  have hproper := hd
  rw [Proper, hstate] at hd
  obtain ⟨hcount, hlt⟩ := hd
  unfold PhrChunkedDecoder.extByte at h
  split_ifs at h with hc hleft htrailer
  · cases h
    exact ⟨hcount, hleft⟩
  · cases h
    exact hproper
  · cases h
    exact ⟨hcount, Nat.pos_of_ne_zero hleft, hlt⟩
  · cases h
    exact hproper

/-- Every byte keeps the decoder proper. -/
theorem Proper.react {d t : PhrChunkedDecoder} (hd : d.Proper) {c : UInt8} (h : (react d c).next = some t) : t.Proper := by
  have hproper := hd
  unfold PhrChunkedDecoder.react at h
  cases hstate : d.state with
  | inChunkSize =>
    rw [hstate] at h
    simp only at h
    cases hv : decodeHex c with
    | none =>
      rw [hv] at h
      simp only at h
      split_ifs at h with hcount
      · cases h
      · exact (hd.ext hstate).extByte rfl h
    | some v =>
      rw [hv] at h
      simp only at h
      split_ifs at h with hcount
      · cases h
      · cases h
        exact (hd.addDigit hstate hcount (decodeHex_lt hv)).1
  | inChunkExt =>
    rw [hstate] at h
    exact hd.extByte hstate h
  | inChunkData =>
    rw [hstate] at h
    rw [Proper, hstate] at hd
    obtain ⟨hcount, hpos, hlt⟩ := hd
    cases h
    by_cases hone : d.bytesLeftInChunk = 1
    · simp only [hone, if_true]
      exact ⟨hcount, rfl⟩
    · simp only [hone, if_false]
      exact ⟨hcount, by simp only; omega, by simp only; omega⟩
  | inChunkCrlf =>
    rw [hstate] at h
    rw [Proper, hstate] at hd
    obtain ⟨hcount, hleft⟩ := hd
    simp only at h
    split_ifs at h with hcr hlf
    · cases h
      exact hproper
    · cases h
      exact ⟨by simp only; omega, by simp [hcount, hleft]⟩
    · cases h
  | inTrailersLineHead =>
    rw [hstate] at h
    rw [Proper, hstate] at hd
    simp only at h
    split_ifs at h with hcr hlf
    · cases h
      exact hproper
    · cases h
      exact hproper
    · cases h
      exact hd
  | inTrailersLineMiddle =>
    rw [hstate] at h
    rw [Proper, hstate] at hd
    cases h
    split_ifs with hlf
    · exact hd
    · exact hproper

/-! ## The loops -/

theorem seek_none {stop : UInt8 → Bool} {bs : Bytes} : ∀ {src : Nat}, seek stop bs src = none → ∀ c ∈ bs, stop c = false := by
  induction bs with
  | nil => intro _ _ c hc; exact absurd hc List.not_mem_nil
  | cons b bs ih =>
    intro src h c hc
    rw [seek] at h
    split_ifs at h with hb
    rcases List.mem_cons.mp hc with rfl | hc
    · exact Bool.eq_false_iff.mpr hb
    · exact ih h c hc

theorem seek_some {stop : UInt8 → Bool} {bs : Bytes} : ∀ {src i : Nat}, seek stop bs src = some i →
    ∃ pre c post, bs = pre ++ c :: post ∧ (∀ x ∈ pre, stop x = false) ∧ stop c = true ∧ i = src + pre.length := by
  induction bs with
  | nil => intro src i h; cases h
  | cons b bs ih =>
    intro src i h
    rw [seek] at h
    split_ifs at h with hb
    · cases h
      exact ⟨[], b, bs, rfl, fun x hx => absurd hx List.not_mem_nil, hb, rfl⟩
    · obtain ⟨pre, c, post, rfl, hpre, hc, rfl⟩ := ih h
      refine ⟨b :: pre, c, post, rfl, fun x hx => ?_, hc, by rw [List.length_cons]; omega⟩
      rcases List.mem_cons.mp hx with rfl | hx
      · exact Bool.eq_false_iff.mpr hb
      · exact hpre x hx

/-- Where a loop from `src` on stops in a buffer. -/
theorem seek_drop {stop : UInt8 → Bool} {buf : Bytes} {src i : Nat} (h : seek stop (buf.drop src) src = some i) :
    ∃ pre c, buf.drop src = pre ++ c :: buf.drop (i + 1) ∧ buf.drop i = c :: buf.drop (i + 1) ∧ (∀ x ∈ pre, stop x = false) ∧
      stop c = true ∧ src ≤ i ∧ i < buf.length ∧ buf.getD i 0 = c := by
  obtain ⟨pre, c, post, hdrop, hpre, hc, rfl⟩ := seek_some h
  have hlen := congrArg List.length hdrop
  rw [List.length_drop, List.length_append, List.length_cons] at hlen
  have hat : buf.drop (src + pre.length) = c :: post := by
    rw [← List.drop_drop, hdrop, List.drop_left]
  have hnext : buf.drop (src + pre.length + 1) = post := by
    rw [← List.drop_drop, hat]
    rfl
  refine ⟨pre, c, by rw [hnext, hdrop], by rw [hnext, hat], hpre, hc, by omega, by omega, ?_⟩
  rw [List.getD_eq_getElem?_getD, ← List.head?_drop, hat]
  rfl

theorem extByte_ne_refuse (d : PhrChunkedDecoder) (c : UInt8) : extByte d c ≠ .refuse := by
  unfold extByte
  split_ifs <;> simp

/-- The loop over the digits of a size is the machine on them. -/
theorem sizeLoop_run {bs : Bytes} : ∀ {d : PhrChunkedDecoder} {src : Nat}, d.state = .inChunkSize →
    src ≤ (sizeLoop bs d src).2.1 ∧ (sizeLoop bs d src).2.1 ≤ src + bs.length ∧
      match sizeLoop bs d src with
      | (d', src', none) => run react d bs = run react { d' with hexCount := 0, state := .inChunkExt } (bs.drop (src' - src))
      | (d', src', some ret) =>
        (ret = -2 ∧ src' = src + bs.length ∧ run react d bs = ⟨[], d', .more, []⟩) ∨
          (ret = -1 ∧ run react d bs = ⟨[], d', .refused, bs.drop (src' - src)⟩) := by
  induction bs with
  | nil =>
    intro d src _
    exact ⟨Nat.le_refl _, Nat.le_refl _, .inl ⟨rfl, rfl, rfl⟩⟩
  | cons c cs ih =>
    intro d src hstate
    have hreact : react d c = match decodeHex c with
        | none => if d.hexCount = 0 then .refuse else extByte { d with hexCount := 0, state := .inChunkExt } c
        | some v => if d.hexCount = 16 then .refuse else .skip (d.addDigit v) := by
      rw [react, hstate]
    unfold sizeLoop
    cases hv : decodeHex c with
    | none =>
      rw [hv] at hreact
      simp only at hreact ⊢
      by_cases hcount : d.hexCount = 0
      · rw [if_pos hcount] at hreact
        rw [if_pos hcount]
        refine ⟨Nat.le_refl _, Nat.le_add_right _ _, .inr ⟨rfl, ?_⟩⟩
        rw [Nat.sub_self, List.drop_zero]
        exact run_refuse hreact cs
      · rw [if_neg hcount] at hreact
        simp only [hcount, if_false, Nat.sub_self, List.drop_zero]
        refine ⟨Nat.le_refl _, Nat.le_add_right _ _, ?_⟩
        have hext : react { d with hexCount := 0, state := .inChunkExt } c = extByte { d with hexCount := 0, state := .inChunkExt } c := rfl
        exact run_congr (hreact.trans hext.symm) (extByte_ne_refuse _ c) cs
    | some v =>
      rw [hv] at hreact
      simp only at hreact ⊢
      by_cases hcount : d.hexCount = 16
      · rw [if_pos hcount] at hreact
        rw [if_pos hcount]
        refine ⟨Nat.le_refl _, Nat.le_add_right _ _, .inr ⟨rfl, ?_⟩⟩
        rw [Nat.sub_self, List.drop_zero]
        exact run_refuse hreact cs
      · rw [if_neg hcount] at hreact
        rw [if_neg hcount]
        obtain ⟨hle, hlen, hrun⟩ := @ih (d.addDigit v) (src + 1) hstate
        rw [run_skip hreact]
        refine ⟨by omega, by rw [List.length_cons]; omega, ?_⟩
        revert hrun hle
        obtain ⟨d', src', ret⟩ := sizeLoop cs (d.addDigit v) (src + 1)
        intro hle hrun
        have hsucc : src' - src = (src' - (src + 1)) + 1 := by simp only at hle; omega
        have hdrop : (c :: cs).drop (src' - src) = cs.drop (src' - (src + 1)) := by rw [hsucc, List.drop_succ_cons]
        cases ret with
        | none =>
          simp only [hdrop]
          exact hrun
        | some ret =>
          simp only [hdrop, List.length_cons]
          rcases hrun with ⟨hret, hsrc, hrun⟩ | ⟨hret, hrun⟩
          · exact .inl ⟨hret, by omega, hrun⟩
          · exact .inr ⟨hret, hrun⟩

theorem sizeLoop_proper {bs : Bytes} : ∀ {d : PhrChunkedDecoder} {src : Nat}, d.Proper → d.state = .inChunkSize →
    (sizeLoop bs d src).1.Proper ∧ (sizeLoop bs d src).1.state = .inChunkSize := by
  induction bs with
  | nil => intro d src hd hstate; exact ⟨hd, hstate⟩
  | cons c cs ih =>
    intro d src hd hstate
    unfold sizeLoop
    cases hv : decodeHex c with
    | none =>
      simp only
      split_ifs
      · exact ⟨hd, hstate⟩
      · exact ⟨hd, hstate⟩
    | some v =>
      simp only
      split_ifs with hcount
      · exact ⟨hd, hstate⟩
      · exact ih (hd.addDigit hstate hcount (decodeHex_lt hv)).1 hstate

/-- The data of a chunk, as far as they are there. -/
theorem run_data {data : Bytes} : ∀ {d : PhrChunkedDecoder}, d.state = .inChunkData → data.length ≤ d.bytesLeftInChunk →
    0 < d.bytesLeftInChunk → ∀ rest, run react d (data ++ rest) =
      (run react { d with
        bytesLeftInChunk := d.bytesLeftInChunk - data.length
        state := if data.length = d.bytesLeftInChunk then .inChunkCrlf else .inChunkData } rest).after data := by
  induction data with
  | nil =>
    intro d hstate _ hpos rest
    obtain ⟨left, trailer, count, state⟩ := d
    obtain rfl : state = .inChunkData := hstate
    have hne : ¬0 = left := by simp only at hpos; omega
    simp only [List.length_nil, hne, if_false, Nat.sub_zero, List.nil_append, Run.after_nil]
  | cons c cs ih =>
    intro d hstate hle hpos rest
    rw [List.length_cons] at hle
    have hreact : react d c = .deliver c { d with
        bytesLeftInChunk := d.bytesLeftInChunk - 1
        state := if d.bytesLeftInChunk = 1 then .inChunkCrlf else .inChunkData } := by
      rw [react, hstate]
    rw [List.cons_append, run_deliver hreact]
    by_cases hone : d.bytesLeftInChunk = 1
    · obtain rfl : cs = [] := List.length_eq_zero_iff.mp (by omega)
      simp [hone]
    · simp only [hone, if_false]
      rw [ih rfl (by simp only; omega) (by simp only; omega), Run.after_after, List.length_cons]
      have hleft : d.bytesLeftInChunk - 1 - cs.length = d.bytesLeftInChunk - (cs.length + 1) := by omega
      have hlast : cs.length = d.bytesLeftInChunk - 1 ↔ cs.length + 1 = d.bytesLeftInChunk := by omega
      simp only [hleft, hlast, List.singleton_append]

/-! ## A call -/

/-- Where the loop has read to is not before where it has written to. -/
structure Cursor.Inv (k : Cursor) : Prop where
  le : k.dst ≤ k.src
  bound : k.src ≤ k.buf.length
  proper : k.decoder.Proper

/-- The machine on what is to be read, after the data in the buffer. -/
def Cursor.outcome (k : Cursor) : Run PhrChunkedDecoder UInt8 UInt8 :=
  (run react k.decoder (k.buf.drop k.src)).after (k.buf.take k.dst)

/-- The value that stands for a run. -/
def retOf (r : Run PhrChunkedDecoder UInt8 UInt8) : Int :=
  match r.verdict with
  | .more => -2
  | .refused => -1
  | .last => r.rest.length

/-- What a call leaves is the outcome of a run: the decoder, the data, and what has not been decoded behind them. -/
structure Decoded.Shows (d : Decoded) (r : Run PhrChunkedDecoder UInt8 UInt8) : Prop where
  ret : d.ret = retOf r
  decoder : d.decoder = r.state
  bufsz : d.bufsz = r.out.length
  buf : d.buf.take (r.out.length + r.rest.length) = r.out ++ r.rest

namespace Cursor

variable {k : Cursor}

/-- After a move. -/
theorem moved_spec (hle : k.dst ≤ k.src) {n : Nat} (hn : k.src + n ≤ k.buf.length) :
    (k.moved n).length = k.buf.length ∧ (k.moved n).take (k.dst + n) = k.buf.take k.dst ++ slice k.buf k.src (k.src + n) ∧
      (k.moved n).drop (k.src + n) = k.buf.drop (k.src + n) := by
  have hlen : (slice k.buf k.src (k.src + n)).length = n := by
    rw [length_slice hn]
    omega
  unfold moved
  split_ifs with heq
  · refine ⟨rfl, ?_, rfl⟩
    rw [heq, ← slice_zero, ← slice_zero, slice_append _ (Nat.zero_le _) (Nat.le_add_right _ _)]
  · have hfits : k.dst + (slice k.buf k.src (k.src + n)).length ≤ k.buf.length := by omega
    refine ⟨length_overwrite hfits, ?_, drop_overwrite (by omega) hn⟩
    have htake := @take_overwrite _ k.buf (slice k.buf k.src (k.src + n)) k.dst (by omega)
    rwa [hlen] at htake

/-- At `Exit` the buffer shows the data, and what has not been read. -/
theorem exit_shows (hle : k.dst ≤ k.src) (hbound : k.src ≤ k.buf.length) {ret : Int} {r : Run PhrChunkedDecoder UInt8 UInt8}
    (hstate : r.state = k.decoder) (hout : r.out = k.buf.take k.dst) (hrest : r.rest = k.buf.drop k.src) (hret : ret = retOf r) :
    (k.exit ret).Shows r := by
  have hlen : r.out.length = k.dst := by
    rw [hout, List.length_take]
    omega
  refine ⟨hret, hstate.symm, hlen.symm, ?_⟩
  rw [hlen, hrest, hout, List.length_drop]
  have hend : k.src + (k.buf.length - k.src) = k.buf.length := by omega
  obtain ⟨-, htake, -⟩ := moved_spec hle (Nat.le_of_eq hend)
  rw [hend, slice_of_length_le _ (Nat.le_refl _)] at htake
  exact htake

/-- What is left to do. -/
def measure (k : Cursor) : Nat :=
  2 * (k.buf.length - k.src) + if k.decoder.state = .inChunkSize ∨ k.decoder.state = .inChunkData then 1 else 0

/-- A step that goes on. -/
structure Next (k k' : Cursor) : Prop where
  inv : k'.Inv
  measure : k'.measure < k.measure
  outcome : k'.outcome = k.outcome

section Bytes

variable (hk : k.Inv) {pre : Bytes} {c : UInt8} {i : Nat} (hdrop : k.buf.drop k.src = pre ++ c :: k.buf.drop (i + 1))
  (hpre : ∀ x ∈ pre, react k.decoder x = .skip k.decoder) (hsrc : k.src ≤ i) (hi : i < k.buf.length)

include hk hdrop hpre hsrc hi

/-- Past a byte, to another state. -/
theorem next_goTo {s : ChunkedState} (hc : react k.decoder c = .skip { k.decoder with state := s }) : Next k (k.goTo s (i + 1)) where
  inv := by
    have hle := hk.le
    refine ⟨?_, hi, hk.proper.react (c := c) (by rw [hc]; rfl)⟩
    show k.dst ≤ i + 1
    omega
  measure := by
    have hsrc' : (k.goTo s (i + 1)).src = i + 1 := rfl
    have hbuf : (k.goTo s (i + 1)).buf = k.buf := rfl
    unfold measure
    rw [hsrc', hbuf]
    split_ifs <;> omega
  outcome := by
    unfold outcome
    rw [hdrop, run_skips hpre, run_skip hc]
    rfl

/-- Past the byte that ends the body. -/
theorem complete_shows (hc : react k.decoder c = .last k.decoder) : ({ k with src := i + 1 } : Cursor).complete.Shows k.outcome := by
  have hle := hk.le
  have hrun : k.outcome = (⟨[], k.decoder, .last, k.buf.drop (i + 1)⟩ : Run PhrChunkedDecoder UInt8 UInt8).after (k.buf.take k.dst) := by
    rw [outcome, hdrop, run_skips hpre, run_last hc]
  rw [hrun]
  refine exit_shows (k := { k with src := i + 1 }) (by simp only; omega) hi rfl (by simp) rfl ?_
  simp [retOf]

/-- At a byte that is refused. -/
theorem refused_shows (hc : react k.decoder c = .refuse) (hat : k.buf.drop i = c :: k.buf.drop (i + 1)) :
    (({ k with src := i } : Cursor).exit (-1)).Shows k.outcome := by
  have hle := hk.le
  have hrun : k.outcome = (⟨[], k.decoder, .refused, k.buf.drop i⟩ : Run PhrChunkedDecoder UInt8 UInt8).after (k.buf.take k.dst) := by
    rw [outcome, hdrop, run_skips hpre, run_refuse hc, hat]
  rw [hrun]
  exact exit_shows (by simp only; omega) (Nat.le_of_lt hi) rfl (by simp) rfl rfl

end Bytes

/-- At the end of the buffer. -/
theorem atEnd_shows (hk : k.Inv) (hpre : ∀ x ∈ k.buf.drop k.src, react k.decoder x = .skip k.decoder) : k.atEnd.Shows k.outcome := by
  have hle := hk.le
  have hbound := hk.bound
  have hrun : k.outcome = (⟨[], k.decoder, .more, []⟩ : Run PhrChunkedDecoder UInt8 UInt8).after (k.buf.take k.dst) := by
    rw [outcome, ← List.append_nil (k.buf.drop k.src), run_skips hpre, run_nil]
  rw [hrun]
  exact exit_shows (by simp only; omega) (Nat.le_refl _) rfl (by simp) (by simp) rfl

/-- The case of a size. -/
theorem step_size (hk : k.Inv) (hstate : k.decoder.state = .inChunkSize) :
    match k.step with
    | .inl k' => Next k k'
    | .inr d => d.Shows k.outcome := by
  have hle := hk.le
  have hbound := hk.bound
  obtain ⟨hsrc, hend, hrun⟩ := @sizeLoop_run (k.buf.drop k.src) k.decoder k.src hstate
  obtain ⟨hproper, hkept⟩ := @sizeLoop_proper (k.buf.drop k.src) k.decoder k.src hk.proper hstate
  unfold step outcome
  rw [hstate]
  simp only
  rw [List.length_drop] at hend
  revert hrun hsrc hend hproper hkept
  obtain ⟨d, src, ret⟩ := sizeLoop (k.buf.drop k.src) k.decoder k.src
  intro hsrc hend hrun hproper hkept
  simp only at hsrc hend hproper hkept
  have hdrop : (k.buf.drop k.src).drop (src - k.src) = k.buf.drop src := by rw [List.drop_drop, Nat.add_sub_cancel' hsrc]
  cases ret with
  | none =>
    simp only [hdrop] at hrun ⊢
    refine ⟨⟨by simp only; omega, by simp only; omega, hproper.ext hkept⟩, ?_, ?_⟩
    · unfold measure
      simp only [hstate, true_or, if_true]
      rw [if_neg (by decide)]
      omega
    · unfold outcome
      rw [hrun]
  | some ret =>
    simp only [hdrop] at hrun ⊢
    rcases hrun with ⟨rfl, hat, hrun⟩ | ⟨rfl, hrun⟩
    · rw [hrun]
      rw [List.length_drop] at hat
      exact exit_shows (k := { k with decoder := d, src := src }) (by simp only; omega) (by simp only; omega) rfl (by simp)
        (List.drop_eq_nil_of_le (by simp only; omega)).symm rfl
    · rw [hrun]
      exact exit_shows (k := { k with decoder := d, src := src }) (by simp only; omega) (by simp only; omega) rfl (by simp) rfl rfl

/-- The case of an extension. -/
theorem step_ext (hk : k.Inv) (hstate : k.decoder.state = .inChunkExt) :
    match k.step with
    | .inl k' => Next k k'
    | .inr d => d.Shows k.outcome := by
  have hreact : ∀ c, react k.decoder c = extByte k.decoder c := fun c => by rw [react, hstate]
  unfold step
  rw [hstate]
  simp only
  cases hseek : seek (· = LF) (k.buf.drop k.src) k.src with
  | none =>
    refine atEnd_shows hk fun c hc => ?_
    have hne := of_decide_eq_false (seek_none hseek c hc)
    rw [hreact, extByte, if_neg hne]
  | some i =>
    obtain ⟨pre, c, hdrop, -, hpre, hc, hsrc, hi, -⟩ := seek_drop hseek
    have hskips : ∀ x ∈ pre, react k.decoder x = .skip k.decoder := fun x hx => by
      rw [hreact, extByte, if_neg (of_decide_eq_false (hpre x hx))]
    have hlf := hreact c
    rw [extByte, if_pos (of_decide_eq_true hc)] at hlf
    simp only
    by_cases hleft : k.decoder.bytesLeftInChunk = 0
    · rw [if_pos hleft] at hlf
      rw [if_pos hleft]
      by_cases htrailer : k.decoder.consumeTrailer = true
      · rw [if_pos htrailer] at hlf
        rw [if_pos htrailer]
        exact next_goTo hk hdrop hskips hsrc hi hlf
      · rw [if_neg htrailer] at hlf
        rw [if_neg htrailer]
        exact complete_shows hk hdrop hskips hsrc hi hlf
    · rw [if_neg hleft] at hlf
      rw [if_neg hleft]
      exact next_goTo hk hdrop hskips hsrc hi hlf

/-- The case of the data. -/
theorem step_data (hk : k.Inv) (hstate : k.decoder.state = .inChunkData) :
    match k.step with
    | .inl k' => Next k k'
    | .inr d => d.Shows k.outcome := by
  have hle := hk.le
  have hbound := hk.bound
  obtain ⟨hcount, hpos, hlt⟩ : k.decoder.hexCount = 0 ∧ 0 < k.decoder.bytesLeftInChunk ∧
      k.decoder.bytesLeftInChunk < 18446744073709551616 := by
    have hproper := hk.proper
    rwa [Proper, hstate] at hproper
  unfold step
  rw [hstate]
  simp only
  split_ifs with hshort
  · have hrun := run_data hstate (Nat.le_of_lt (by rwa [List.length_drop])) hpos []
    rw [List.append_nil, List.length_drop, if_neg (Nat.ne_of_lt hshort), run_nil] at hrun
    have hend : k.src + (k.buf.length - k.src) = k.buf.length := by omega
    obtain ⟨hlen, htake, -⟩ := moved_spec hle (Nat.le_of_eq hend)
    have hmoved : (k.take (k.buf.length - k.src)).buf = k.moved (k.buf.length - k.src) := rfl
    have hsrc : (k.take (k.buf.length - k.src)).src = k.buf.length := hend
    have hdst : (k.take (k.buf.length - k.src)).dst = k.dst + (k.buf.length - k.src) := rfl
    rw [outcome, hrun]
    refine exit_shows (by rw [hdst, hsrc]; omega) (by rw [hsrc, hmoved, hlen]) ?_ ?_ ?_ rfl
    · simp only [Run.after_state, take, hstate]
    · rw [Run.after_after, Run.after_out, List.append_nil, hmoved, hdst, htake, hend, slice_of_length_le _ (Nat.le_refl _)]
    · rw [hsrc, hmoved, List.drop_eq_nil_of_le (Nat.le_of_eq hlen)]
      rfl
  · have hfull : k.src + k.decoder.bytesLeftInChunk ≤ k.buf.length := by omega
    obtain ⟨hlen, htake, hdrop⟩ := moved_spec hle hfull
    refine ⟨⟨?_, ?_, hcount, ?_⟩, ?_, ?_⟩
    · show k.dst + k.decoder.bytesLeftInChunk ≤ k.src + k.decoder.bytesLeftInChunk
      omega
    · show k.src + k.decoder.bytesLeftInChunk ≤ (k.moved k.decoder.bytesLeftInChunk).length
      omega
    · exact Nat.sub_self _
    · have hsrc' : ((k.take k.decoder.bytesLeftInChunk).goTo .inChunkCrlf (k.src + k.decoder.bytesLeftInChunk)).src =
          k.src + k.decoder.bytesLeftInChunk := rfl
      have hbuf : ((k.take k.decoder.bytesLeftInChunk).goTo .inChunkCrlf (k.src + k.decoder.bytesLeftInChunk)).buf =
          k.moved k.decoder.bytesLeftInChunk := rfl
      have hbefore : k.measure = 2 * (k.buf.length - k.src) + 1 := by rw [measure, if_pos (.inr hstate)]
      rw [hbefore, measure, hsrc', hbuf, hlen]
      split_ifs <;> omega
    · have hsplit := slice_append_drop k.buf (Nat.le_add_right k.src k.decoder.bytesLeftInChunk)
      have hsize : (slice k.buf k.src (k.src + k.decoder.bytesLeftInChunk)).length = k.decoder.bytesLeftInChunk := by
        rw [length_slice hfull]
        omega
      have hrun := run_data hstate (Nat.le_of_eq hsize) hpos (k.buf.drop (k.src + k.decoder.bytesLeftInChunk))
      rw [hsplit, hsize, if_pos rfl] at hrun
      unfold outcome
      rw [hrun, Run.after_after, ← htake, ← hdrop]
      rfl

/-- The case of a line end after a chunk. -/
theorem step_crlf (hk : k.Inv) (hstate : k.decoder.state = .inChunkCrlf) :
    match k.step with
    | .inl k' => Next k k'
    | .inr d => d.Shows k.outcome := by
  have hreact : ∀ c, react k.decoder c =
      if c = CR then .skip k.decoder else if c = LF then .skip { k.decoder with state := .inChunkSize } else .refuse :=
    fun c => by rw [react, hstate]
  unfold step
  rw [hstate]
  simp only
  cases hseek : seek (· ≠ CR) (k.buf.drop k.src) k.src with
  | none =>
    refine atEnd_shows hk fun c hc => ?_
    have heq := Decidable.not_not.mp (of_decide_eq_false (seek_none hseek c hc))
    rw [hreact, if_pos heq]
  | some i =>
    obtain ⟨pre, c, hdrop, hat, hpre, hc, hsrc, hi, hget⟩ := seek_drop hseek
    have hskips : ∀ x ∈ pre, react k.decoder x = .skip k.decoder := fun x hx => by
      rw [hreact, if_pos (Decidable.not_not.mp (of_decide_eq_false (hpre x hx)))]
    have hbyte := hreact c
    rw [if_neg (of_decide_eq_true hc)] at hbyte
    simp only [hget]
    by_cases hlf : c = LF
    · rw [if_pos hlf] at hbyte
      rw [if_neg (not_not_intro hlf)]
      exact next_goTo hk hdrop hskips hsrc hi hbyte
    · rw [if_neg hlf] at hbyte
      rw [if_pos hlf]
      exact refused_shows hk hdrop hskips hsrc hi hbyte hat

/-- The case of the beginning of a line of the trailers. -/
theorem step_lineHead (hk : k.Inv) (hstate : k.decoder.state = .inTrailersLineHead) :
    match k.step with
    | .inl k' => Next k k'
    | .inr d => d.Shows k.outcome := by
  have hreact : ∀ c, react k.decoder c =
      if c = CR then .skip k.decoder else if c = LF then .last k.decoder
        else .skip { k.decoder with state := .inTrailersLineMiddle } :=
    fun c => by rw [react, hstate]
  unfold step
  rw [hstate]
  simp only
  cases hseek : seek (· ≠ CR) (k.buf.drop k.src) k.src with
  | none =>
    refine atEnd_shows hk fun c hc => ?_
    have heq := Decidable.not_not.mp (of_decide_eq_false (seek_none hseek c hc))
    rw [hreact, if_pos heq]
  | some i =>
    obtain ⟨pre, c, hdrop, -, hpre, hc, hsrc, hi, hget⟩ := seek_drop hseek
    have hskips : ∀ x ∈ pre, react k.decoder x = .skip k.decoder := fun x hx => by
      rw [hreact, if_pos (Decidable.not_not.mp (of_decide_eq_false (hpre x hx)))]
    have hbyte := hreact c
    rw [if_neg (of_decide_eq_true hc)] at hbyte
    simp only [hget]
    by_cases hlf : c = LF
    · rw [if_pos hlf] at hbyte
      rw [if_pos hlf]
      exact complete_shows hk hdrop hskips hsrc hi hbyte
    · rw [if_neg hlf] at hbyte
      rw [if_neg hlf]
      exact next_goTo hk hdrop hskips hsrc hi hbyte

/-- The case of the rest of such a line. -/
theorem step_lineMiddle (hk : k.Inv) (hstate : k.decoder.state = .inTrailersLineMiddle) :
    match k.step with
    | .inl k' => Next k k'
    | .inr d => d.Shows k.outcome := by
  have hreact : ∀ c, react k.decoder c = .skip (if c = LF then { k.decoder with state := .inTrailersLineHead } else k.decoder) :=
    fun c => by rw [react, hstate]
  unfold step
  rw [hstate]
  simp only
  cases hseek : seek (· = LF) (k.buf.drop k.src) k.src with
  | none =>
    refine atEnd_shows hk fun c hc => ?_
    rw [hreact, if_neg (of_decide_eq_false (seek_none hseek c hc))]
  | some i =>
    obtain ⟨pre, c, hdrop, -, hpre, hc, hsrc, hi, -⟩ := seek_drop hseek
    have hskips : ∀ x ∈ pre, react k.decoder x = .skip k.decoder := fun x hx => by
      rw [hreact, if_neg (of_decide_eq_false (hpre x hx))]
    have hbyte := hreact c
    rw [if_pos (of_decide_eq_true hc)] at hbyte
    exact next_goTo hk hdrop hskips hsrc hi hbyte

/-- A step of the loop goes on with less to do and the same outcome, or it leaves what shows this outcome. -/
theorem step_spec (hk : k.Inv) :
    match k.step with
    | .inl k' => Next k k'
    | .inr d => d.Shows k.outcome := by
  cases hstate : k.decoder.state with
  | inChunkSize => exact step_size hk hstate
  | inChunkExt => exact step_ext hk hstate
  | inChunkData => exact step_data hk hstate
  | inChunkCrlf => exact step_crlf hk hstate
  | inTrailersLineHead => exact step_lineHead hk hstate
  | inTrailersLineMiddle => exact step_lineMiddle hk hstate

end Cursor

end PhrChunkedDecoder

open PhrChunkedDecoder

/-- **A call** ends, and it computes the machine on its buffer. -/
theorem phrDecodeChunked_eq {d : PhrChunkedDecoder} (hd : d.Proper) (buf : Bytes) :
    ∃ r, phrDecodeChunked d buf = some r ∧ r.Shows (run react d buf) := by
  have hstart : ({ decoder := d, buf := buf } : Cursor).Inv := ⟨Nat.le_refl _, Nat.zero_le _, hd⟩
  have hnext : ∀ k k' : Cursor, k.Inv ∧ k.outcome = run react d buf → k.step = .inl k' →
      (k'.Inv ∧ k'.outcome = run react d buf) ∧ k'.measure < k.measure := by
    intro k k' hk h
    have hspec := Cursor.step_spec hk.1
    rw [h] at hspec
    exact ⟨⟨hspec.inv, hspec.outcome.trans hk.2⟩, hspec.measure⟩
  have hdone : ∀ (k : Cursor) (r : Decoded), k.Inv ∧ k.outcome = run react d buf → k.step = .inr r → r.Shows (run react d buf) := by
    intro k r hk h
    have hspec := Cursor.step_spec hk.1
    rwa [h, hk.2] at hspec
  obtain ⟨n, r, hn, hends, hshows⟩ := exists_ends_of_step hnext hdone ⟨hstart, rfl⟩
  have hmeasure : ({ decoder := d, buf := buf } : Cursor).measure ≤ 2 * buf.length + 1 := by
    unfold Cursor.measure
    simp only [Nat.sub_zero]
    split_ifs <;> omega
  exact ⟨r, hends.iterate (by omega), hshows⟩

/-! ## The calls for a stream -/

/-- How the calls for a stream end: the data are not complete, they are malformed, or something is left after the end of the body. -/
inductive BodyEnd where
  | incomplete
  | failed
  | complete (rest : Bytes)
  deriving DecidableEq, Repr

/-- The data that a call has decoded. -/
def PhrChunkedDecoder.Decoded.data (r : Decoded) : Bytes := r.buf.take r.bufsz

/-- What the value of a call says; the octets that it counts are behind the data. -/
def PhrChunkedDecoder.Decoded.bodyEnd (r : Decoded) : BodyEnd :=
  if r.ret = -2 then .incomplete else if r.ret = -1 then .failed else .complete ((r.buf.drop r.bufsz).take r.ret.toNat)

/-- The calls that the comment in `picohttpparser.h` asks for: as long as the value is -2, another one with newly arrived data. -/
def decodeAll (d : PhrChunkedDecoder) : List Bytes → Option (Bytes × BodyEnd)
  | [] => some ([], .incomplete)
  | p :: ps =>
    (phrDecodeChunked d p).bind fun r =>
      match r.bodyEnd with
      | .incomplete => (decodeAll r.decoder ps).map fun s => (r.data ++ s.1, s.2)
      | .failed => some (r.data, .failed)
      | .complete rest => some (r.data, .complete (rest ++ ps.flatten))

/-- The end that stands for a run. -/
def PhrChunkedDecoder.endOf (r : Run PhrChunkedDecoder UInt8 UInt8) : BodyEnd :=
  match r.verdict with
  | .more => .incomplete
  | .refused => .failed
  | .last => .complete r.rest

theorem PhrChunkedDecoder.Decoded.Shows.data {d : Decoded} {r : Run PhrChunkedDecoder UInt8 UInt8} (h : d.Shows r) : d.data = r.out := by
  have htake := congrArg (List.take r.out.length) h.buf
  rwa [List.take_take, Nat.min_eq_left (Nat.le_add_right _ _), List.take_left, ← h.bufsz] at htake

theorem PhrChunkedDecoder.Decoded.Shows.bodyEnd {d : Decoded} {r : Run PhrChunkedDecoder UInt8 UInt8} (h : d.Shows r) :
    d.bodyEnd = endOf r := by
  have hret := h.ret
  unfold Decoded.bodyEnd endOf
  cases hv : r.verdict with
  | more =>
    rw [retOf, hv] at hret
    rw [hret]
    rfl
  | refused =>
    rw [retOf, hv] at hret
    rw [hret]
    rfl
  | last =>
    rw [retOf, hv] at hret
    have hrest : (d.buf.drop d.bufsz).take r.rest.length = r.rest := by
      have hdrop := congrArg (List.drop r.out.length) h.buf
      rwa [List.drop_take, Nat.add_sub_cancel_left, List.drop_left, ← h.bufsz] at hdrop
    simp only at hret
    rw [hret, if_neg (by omega), if_neg (by omega), Int.toNat_natCast, hrest]

/-- The calls compute the machine, too. -/
theorem decodeAll_eq_feed (ps : List Bytes) : ∀ {d : PhrChunkedDecoder}, d.Proper →
    decodeAll d ps = some ((feed react d ps).out, endOf (feed react d ps)) := by
  induction ps with
  | nil => intro d _; rfl
  | cons p ps ih =>
    intro d hd
    obtain ⟨r, hcall, hshows⟩ := phrDecodeChunked_eq hd p
    have hproper : (run react d p).state.Proper := run_keeps (fun s c t hs h => hs.react h) p hd
    rw [decodeAll, hcall, Option.bind_some, hshows.bodyEnd, hshows.data, hshows.decoder, endOf, feed]
    cases hv : (run react d p).verdict with
    | more =>
      simp only
      rw [ih hproper]
      rfl
    | refused =>
      simp only [endOf, hv]
    | last =>
      simp only [endOf, hv]

/-- **The cuts of a stream do not matter**: the calls for its pieces, however it is cut, are one call for the whole of it. -/
theorem decodeAll_flatten (trailer : Bool) (ps : List Bytes) :
    ∃ r, phrDecodeChunked { consumeTrailer := trailer } ps.flatten = some r ∧
      decodeAll { consumeTrailer := trailer } ps = some (r.data, r.bodyEnd) := by
  obtain ⟨r, hcall, hshows⟩ := phrDecodeChunked_eq (proper_zero trailer) ps.flatten
  refine ⟨r, hcall, ?_⟩
  rw [decodeAll_eq_feed ps (proper_zero trailer), feed_eq_run, hshows.data, hshows.bodyEnd]

end Netcore
