import Netcore.Http.WellFormed

/-!
# `phr_parse_response`

The other parser of `picohttpparser`, which a client reads responses with. `phrParseResponse_append` says that bytes behind a head change
nothing, and `ResponseHead.parse_write` that a head is found as it was written. As in the parser of requests the text does not go on after
a head that was malformed or cut off, and `last_len` is 0.
-/

namespace Netcore

open Slices Incremental Pico

/-- What a parse leaves behind. -/
structure PhrResponse where
  ret : Int
  minorVersion : Int := -1
  status : Nat := 0
  msg : Slice := {}
  headers : List PhrHeader := []
  deriving DecidableEq, Repr

/-- The digit that stands at a position. -/
def digitAt (bs : Bytes) (i : Nat) : Nat := (bs.getD i 0).toNat - 48

/-- `PARSE_INT_3`: what is in `status` after it, and whether it found three digits. -/
def parseInt3 (bs : Bytes) : Nat × Bool :=
  if !isDigit (bs.getD 0 0) then (0, false)
  else if !isDigit (bs.getD 1 0) then (100 * digitAt bs 0, false)
  else if !isDigit (bs.getD 2 0) then (100 * digitAt bs 0 + 10 * digitAt bs 1, false)
  else (100 * digitAt bs 0 + 10 * digitAt bs 1 + digitAt bs 2, true)

/-- What `parse_response` makes of the bytes behind the version. -/
def responseStatus (v : Nat) (bs : Bytes) : PhrResponse :=
  if bs.head? ≠ some SPACE then { ret := -1, minorVersion := v }
  else if bs.length < 5 then { ret := -2, minorVersion := v }
  else
    let (status, digits) := parseInt3 bs.tail
    if digits = false ∨ bs.getD 4 0 ≠ SPACE then { ret := -1, minorVersion := v, status }
    else
      match getTokenToEol (bs.drop 5) with
      | .bad => { ret := -1, minorVersion := v, status }
      | .more => { ret := -2, minorVersion := v, status }
      | .ok (m, e) bs =>
        let (ret, headers) := parseHeaders 100 true (13 + m + e) bs
        { ret, minorVersion := v, status, msg := ⟨13, m⟩, headers }

/-- `phr_parse_response`. -/
def phrParseResponse (buf : Bytes) : PhrResponse :=
  match parseHttpVersion buf with
  | .bad => { ret := -1 }
  | .more => { ret := -2 }
  | .ok v bs => responseStatus v bs

/-! ## Bytes that follow change nothing -/

theorem getD_append_of_lt {bs : Bytes} {i : Nat} (h : i < bs.length) (t : Bytes) (d : UInt8) : (bs ++ t).getD i d = bs.getD i d := by
  rw [List.getD_eq_getElem?_getD, List.getElem?_append_left h, ← List.getD_eq_getElem?_getD]

/-- The three digits of a status are read, and nothing behind them. -/
theorem parseInt3_append {bs : Bytes} (h : 3 ≤ bs.length) (t : Bytes) : parseInt3 (bs ++ t) = parseInt3 bs := by
  unfold parseInt3 digitAt
  rw [getD_append_of_lt (by omega), getD_append_of_lt (by omega), getD_append_of_lt (by omega)]

/-- What follows the version is settled as soon as it is not cut. -/
theorem responseStatus_append (v : Nat) {bs : Bytes} (t : Bytes) (hne : bs ≠ []) (h : (responseStatus v bs).ret ≠ -2) :
    responseStatus v (bs ++ t) = responseStatus v bs := by
  unfold responseStatus at h ⊢
  rw [List.head?_append_of_ne_nil _ hne]
  by_cases hspace : bs.head? ≠ some SPACE
  · rw [if_pos hspace, if_pos hspace]
  · rw [if_neg hspace] at h ⊢
    rw [if_neg hspace]
    by_cases hlen : bs.length < 5
    · rw [if_pos hlen] at h
      exact absurd rfl h
    · have htail : (bs ++ t).tail = bs.tail ++ t := List.tail_append_of_ne_nil hne
      have hdigits : parseInt3 (bs.tail ++ t) = parseInt3 bs.tail := parseInt3_append (by rw [List.length_tail]; omega) t
      have hdrop : (bs ++ t).drop 5 = bs.drop 5 ++ t := List.drop_append_of_le_length (by omega)
      rw [if_neg hlen] at h ⊢
      rw [if_neg (by rw [List.length_append]; omega), htail, hdigits, getD_append_of_lt (by omega), hdrop]
      simp only at h ⊢
      by_cases hbad : (parseInt3 bs.tail).2 = false ∨ bs.getD 4 0 ≠ SPACE
      · rw [if_pos hbad, if_pos hbad]
      · rw [if_neg hbad] at h ⊢
        rw [if_neg hbad]
        cases hmsg : getTokenToEol (bs.drop 5) with
        | bad => rw [getTokenToEol_determined.bad hmsg t]
        | more =>
          rw [hmsg] at h
          exact absurd rfl h
        | ok m rest =>
          rw [hmsg] at h
          rw [getTokenToEol_determined.ok hmsg t]
          simp only at h ⊢
          rw [parseHeaders_append 100 true _ rest t h]

/-- A version does not end the text. -/
theorem rest_ne_nil {buf bs : Bytes} {v : Nat} (h : parseHttpVersion buf = .ok v bs) : bs ≠ [] := by
  rintro rfl
  have hcount := (parseHttpVersion_counts h).2
  unfold parseHttpVersion at h
  by_cases hlen : buf.length < 9
  · rw [if_pos hlen] at h
    nomatch h
  · simp only [List.length_nil] at hcount
    omega

/-- A head that is complete or malformed stays so when more bytes arrive, with the same tokens. -/
theorem phrParseResponse_append (buf t : Bytes) (h : (phrParseResponse buf).ret ≠ -2) :
    phrParseResponse (buf ++ t) = phrParseResponse buf := by
  unfold phrParseResponse at h ⊢
  cases hversion : parseHttpVersion buf with
  | bad => rw [parseHttpVersion_determined.bad hversion t]
  | more =>
    rw [hversion] at h
    exact absurd rfl h
  | ok v bs =>
    rw [hversion] at h
    rw [parseHttpVersion_determined.ok hversion t]
    exact responseStatus_append v t (rest_ne_nil hversion) h

/-- A return value is `-1`, `-2` or a length within the input, and the tokens of a complete head lie in it. -/
structure PhrResponse.Fits (r : PhrResponse) (len : Nat) : Prop where
  lower : -2 ≤ r.ret
  upper : r.ret ≤ len
  inside : 0 ≤ r.ret → 0 < r.ret ∧ (r.msg.off + r.msg.len : Int) ≤ r.ret ∧ ∀ h ∈ r.headers, h.Within r.ret.toNat

/-- A refusal, and a response that is cut, give no position. -/
theorem PhrResponse.Fits.failed {r : PhrResponse} {len : Nat} (h : r.ret = -1 ∨ r.ret = -2) : r.Fits len :=
  ⟨by omega, by omega, fun h0 => by omega⟩

/-- What follows the version lies within the text. -/
theorem responseStatus_fits (v : Nat) (bs : Bytes) : (responseStatus v bs).Fits (8 + bs.length) := by
  unfold responseStatus
  by_cases hspace : bs.head? ≠ some SPACE
  · rw [if_pos hspace]
    exact .failed (.inl rfl)
  · by_cases hlen : bs.length < 5
    · rw [if_neg hspace, if_pos hlen]
      exact .failed (.inr rfl)
    · rw [if_neg hspace, if_neg hlen]
      simp only
      by_cases hbad : (parseInt3 bs.tail).2 = false ∨ bs.getD 4 0 ≠ SPACE
      · rw [if_pos hbad]
        exact .failed (.inl rfl)
      · rw [if_neg hbad]
        cases hmsg : getTokenToEol (bs.drop 5) with
        | bad => exact .failed (.inl rfl)
        | more => exact .failed (.inr rfl)
        | ok m rest =>
          have hrest := (getTokenToEol_counts hmsg).2
          simp only [List.length_drop] at hrest
          have hheaders := parseHeaders_bounded 100 true (13 + m.1 + m.2) rest
          have hupper := hheaders.upper
          refine ⟨hheaders.lower, ?_, fun h0 => ?_⟩
          · simp only at hupper ⊢
            omega
          · obtain ⟨hpos, htokens⟩ := hheaders.inside h0
            refine ⟨?_, ?_, htokens⟩
            · simp only at hpos ⊢
              omega
            · simp only at hpos ⊢
              omega

/-- A response that was parsed lies within the text. -/
theorem phrParseResponse_fits (buf : Bytes) : (phrParseResponse buf).Fits buf.length := by
  unfold phrParseResponse
  cases hversion : parseHttpVersion buf with
  | bad => exact .failed (.inl rfl)
  | more => exact .failed (.inr rfl)
  | ok v bs =>
    have hcount := (parseHttpVersion_counts hversion).2
    have hfits := responseStatus_fits v bs
    rwa [← hcount] at hfits

/-- A proper beginning of a head is incomplete. -/
theorem phrParseResponse_incomplete {buf t : Bytes} (ht : t ≠ [])
    (h : (phrParseResponse (buf ++ t)).ret = ((buf ++ t).length : Int)) : (phrParseResponse buf).ret = -2 := by
  by_contra hne
  rw [phrParseResponse_append buf t hne] at h
  have hle := (phrParseResponse_fits buf).upper
  have hpos : 0 < t.length := List.length_pos_iff.mpr ht
  rw [List.length_append] at h
  omega

/-! ## Heads that are well formed -/

/-- The head of a response, with no more headers than there is room for. -/
structure ResponseHead where
  code : Nat
  reason : Bytes
  lines : List HeaderLine
  code_lt : code < 1000
  reason_chars : ∀ c ∈ reason, isTextChar c = true
  lines_le : lines.length ≤ 100

namespace ResponseHead

/-- The three digits of a code. -/
def digits (code : Nat) : Bytes := [UInt8.ofNat (48 + code / 100), UInt8.ofNat (48 + code / 10 % 10), UInt8.ofNat (48 + code % 10)]

/-- The text of a head. -/
def write (h : ResponseHead) : Bytes :=
  bytes "HTTP/1.1" ++ SPACE :: (digits h.code ++ SPACE :: (h.reason ++ CRLF ++ (h.lines.flatMap HeaderLine.write ++ CRLF)))

/-- A number below 256 is a byte. -/
theorem toNat_ofNat {n : Nat} (h : n < 256) : (UInt8.ofNat n).toNat = n := by
  rw [UInt8.toNat_ofNat', Nat.mod_eq_of_lt h]

/-- The ten digits follow one another from `0` on. -/
theorem isDigit_ofNat {n : Nat} (h : n < 10) : isDigit (UInt8.ofNat (48 + n)) = true := by
  have hn := toNat_ofNat (n := 48 + n) (by omega)
  unfold isDigit
  refine decide_eq_true ⟨UInt8.le_iff_toNat_le.mpr ?_, UInt8.le_iff_toNat_le.mpr ?_⟩
  · rw [hn]
    exact Nat.le_add_right 48 n
  · rw [hn]
    change 48 + n ≤ 57
    omega

/-- Three digits that are written are read back. -/
theorem parseInt3_digits {code : Nat} (h : code < 1000) (rest : Bytes) : parseInt3 (digits code ++ rest) = (code, true) := by
  have h1 := isDigit_ofNat (n := code / 100) (by omega)
  have h2 := isDigit_ofNat (n := code / 10 % 10) (by omega)
  have h3 := isDigit_ofNat (n := code % 10) (by omega)
  unfold parseInt3 digitAt digits
  simp only [List.cons_append, List.nil_append, List.getD_cons_zero, List.getD_cons_succ, h1, h2, h3]
  simp only [Bool.not_true, Bool.false_eq_true, if_false, Prod.mk.injEq, and_true]
  rw [toNat_ofNat (by omega), toNat_ofNat (by omega), toNat_ofNat (by omega)]
  omega

variable (h : ResponseHead)

/-- What is found in a head that has been written. -/
theorem parse_write : ∃ hs, phrParseResponse h.write = {
      ret := h.write.length
      minorVersion := (1 : Nat)
      status := h.code
      msg := ⟨13, h.reason.length⟩
      headers := hs } ∧
    hs.map (fun x => (x.name.read h.write, x.value.read h.write)) = h.lines.map fun l => (l.name, l.value) := by
  have hdrop : h.write.drop (13 + h.reason.length + 2) = h.lines.flatMap HeaderLine.write ++ CRLF := by
    have hsplit : h.write = (bytes "HTTP/1.1" ++ SPACE :: (digits h.code ++ SPACE :: (h.reason ++ CRLF))) ++
        (h.lines.flatMap HeaderLine.write ++ CRLF) := by simp [write]
    rw [hsplit]
    refine List.drop_left' ?_
    simp only [List.length_append, List.length_cons, digits, CRLF, List.length_nil, show (bytes "HTTP/1.1").length = 8 by decide]
    omega
  obtain ⟨hs, hparse, hmap⟩ := parseHeaders_write h.write h.lines 100 true _ h.lines_le hdrop
  refine ⟨hs, ?_, hmap⟩
  have hversion : ∀ a b c rest, parseHttpVersion (bytes "HTTP/1.1" ++ SPACE :: a :: b :: c :: rest) =
      .ok 1 (SPACE :: a :: b :: c :: rest) := by
    intro a b c rest
    rfl
  have hmsg : getTokenToEol (h.reason ++ CRLF ++ (h.lines.flatMap HeaderLine.write ++ CRLF)) =
      .ok (h.reason.length, 2) (h.lines.flatMap HeaderLine.write ++ CRLF) := by
    rw [List.append_assoc]
    exact getTokenToEol_write h.reason_chars _
  have hint := parseInt3_digits h.code_lt (SPACE :: (h.reason ++ CRLF ++ (h.lines.flatMap HeaderLine.write ++ CRLF)))
  unfold digits at hint
  simp only [List.cons_append, List.nil_append] at hint
  rw [phrParseResponse]
  conv_lhs => rw [write, digits]
  simp only [List.cons_append, List.nil_append]
  rw [hversion]
  simp only [responseStatus, List.head?_cons, List.tail_cons, hint, List.getD_cons_zero, List.getD_cons_succ, List.drop_succ_cons,
    List.drop_zero, hmsg]
  rw [if_neg (not_not.mpr rfl), if_neg (by simp only [List.length_cons]; omega), if_neg (by simp), hparse]

/-- **Heads of responses.** Whatever part of a head has arrived, the parser asks for more; with the whole of it, it finds what was
written, whatever follows. -/
theorem parse_received : (∀ buf t : Bytes, t ≠ [] → buf ++ t = h.write → (phrParseResponse buf).ret = -2) ∧
    ∃ hs, (∀ rest : Bytes, phrParseResponse (h.write ++ rest) = {
        ret := h.write.length
        minorVersion := (1 : Nat)
        status := h.code
        msg := ⟨13, h.reason.length⟩
        headers := hs }) ∧
      hs.map (fun x => (x.name.read h.write, x.value.read h.write)) = h.lines.map fun l => (l.name, l.value) := by
  obtain ⟨hs, hparse, hmap⟩ := h.parse_write
  have hret : (phrParseResponse h.write).ret = (h.write.length : Int) := congrArg PhrResponse.ret hparse
  refine ⟨fun buf t ht heq => phrParseResponse_incomplete ht (by rw [heq]; exact hret), hs, fun rest => ?_, hmap⟩
  rw [phrParseResponse_append h.write rest (by rw [hret]; omega), hparse]

/-- A head that announces two bytes. -/
def twoBytes : ResponseHead where
  code := 200
  reason := bytes "OK"
  lines := [.named (bytes "Content-Length") (bytes " 2") (by decide) (List.all_eq_true.mp (by decide))]
  code_lt := by decide
  reason_chars := List.all_eq_true.mp (by decide)
  lines_le := by decide

theorem parse_received_twoBytes : (phrParseResponse (bytes "HTTP/1.1 200 OK\r\nContent-Len")).ret = -2 ∧
    ∃ hs, (∀ rest : Bytes, phrParseResponse (twoBytes.write ++ rest) =
        { ret := twoBytes.write.length, minorVersion := (1 : Nat), status := 200, msg := ⟨13, 2⟩, headers := hs }) ∧
      hs.map (fun x => (x.name.read twoBytes.write, x.value.read twoBytes.write)) = [(bytes "Content-Length", bytes "2")] :=
  ⟨twoBytes.parse_received.1 _ (bytes "gth: 2\r\n\r\n") (by decide) (by decide), twoBytes.parse_received.2⟩

end ResponseHead

end Netcore
