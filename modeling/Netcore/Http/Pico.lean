import Netcore.Http.Text
import Netcore.Lib.Incremental

/-!
# `phr_parse_request`

The request parser of `picohttpparser.h`, as `request::parse_header` calls it (`last_len` is 0 and there is room for 32
headers). The tokens it finds are positions in the buffer (`Slice`), and they are left in place when the parser gives up:
the connection looks at them. The pieces of the parser are readers in the sense of `Incremental`: `bad` is the return
value `-1`, `more` is `-2`.

The parser reads its input strictly from left to right, so its outcome depends only on the bytes it has looked at:
the pieces are `Determined`, and `phrParseRequest_append` says for the whole that bytes which arrive after a complete or
malformed header change nothing.
-/

namespace Netcore

open Slices Incremental

/-- A token of the request: where it starts in the buffer and how long it is. -/
structure Slice where
  off : Nat := 0
  len : Nat := 0
  deriving DecidableEq, Repr

/-- The bytes of a token. -/
def Slice.read (s : Slice) (buf : Bytes) : Bytes := slice buf s.off (s.off + s.len)

/-- `phr_header`; the name of a continuation line is empty. -/
structure PhrHeader where
  name : Slice := {}
  value : Slice := {}
  deriving DecidableEq, Repr

/-! ## The pieces -/

/-- `ADVANCE_TOKEN`, with the `++buf` over the space that ends the token: its length. -/
def advanceToken : Bytes → Scan UInt8 Nat
  | [] => .more
  | c :: cs =>
    if c = SPACE then .ok 0 cs
    else if c < 32 ∨ c = 127 then .bad
    else (advanceToken cs).bind fun n rest => .ok (n + 1) rest

/-- A line end: LF, or CR and LF. Anything else is malformed. The result is its length. -/
def lineEnd : Bytes → Scan UInt8 Nat
  | [] => .more
  | c :: cs =>
    if c = CR then
      match cs with
      | [] => .more
      | d :: ds => if d = LF then .ok 2 ds else .bad
    else if c = LF then .ok 1 cs
    else .bad

/-- The empty line that may come before a request: the number of bytes skipped. -/
def skipEmptyLine : Bytes → Scan UInt8 Nat
  | [] => .more
  | c :: cs => if c = CR ∨ c = LF then lineEnd (c :: cs) else .ok 0 (c :: cs)

/-- `parse_http_version`: the minor version. Nine bytes must be there before the first is looked at. -/
def parseHttpVersion (bs : Bytes) : Scan UInt8 Nat :=
  if bs.length < 9 then .more
  else if bs.take 7 ≠ bytes "HTTP/1." then .bad
  else if isDigit (bs.getD 7 0) then .ok ((bs.getD 7 0).toNat - 48) (bs.drop 8)
  else .bad

/-- `token_char_map`: the characters of a header name. -/
def isTokenChar (c : UInt8) : Bool :=
  decide (c ∈ bytes "!#$%&'*+-.^_`|~" ∨ isDigit c ∨ (65 ≤ c ∧ c ≤ 90) ∨ (97 ≤ c ∧ c ≤ 122))

/-- The name of a header and the colon after it: the length of the name. -/
def headerName : Bytes → Scan UInt8 Nat
  | [] => .more
  | c :: cs =>
    if c = COLON then .ok 0 cs
    else if isTokenChar c then (headerName cs).bind fun n rest => .ok (n + 1) rest
    else .bad

/-- The blanks before a header value: their number. -/
def skipBlanks : Bytes → Scan UInt8 Nat
  | [] => .more
  | c :: cs =>
    if c = SPACE ∨ c = 9 then (skipBlanks cs).bind fun n rest => .ok (n + 1) rest
    else .ok 0 (c :: cs)

/-- `get_token_to_eol`: the length of the token and of the line end after it. -/
def getTokenToEol : Bytes → Scan UInt8 (Nat × Nat)
  | [] => .more
  | c :: cs =>
    if (c < 32 ∧ c ≠ 9) ∨ c = 127 then (lineEnd (c :: cs)).bind fun e rest => .ok (0, e) rest
    else (getTokenToEol cs).bind fun t rest => .ok (t.1 + 1, t.2) rest

/-- A header line with a name, at position `pos`. -/
def namedEntry (pos : Nat) (bs : Bytes) : Scan UInt8 (PhrHeader × Nat) :=
  (headerName bs).bind fun n rest =>
    if n = 0 then .bad
    else (skipBlanks rest).bind fun b rest =>
      (getTokenToEol rest).bind fun t rest =>
        .ok ({ name := ⟨pos, n⟩, value := ⟨pos + n + 1 + b, t.1⟩ }, n + 1 + b + t.1 + t.2) rest

/-- A continuation line at position `pos`. -/
def continuedEntry (pos : Nat) (bs : Bytes) : Scan UInt8 (PhrHeader × Nat) :=
  (getTokenToEol bs).bind fun t rest => .ok ({ value := ⟨pos, t.1⟩ }, t.1 + t.2) rest

/-- One header line at position `pos`, and its length; the first one cannot be a continuation line. -/
def headerEntry (first : Bool) (pos : Nat) : Bytes → Scan UInt8 (PhrHeader × Nat)
  | [] => .more
  | c :: cs =>
    if first = false ∧ (c = SPACE ∨ c = 9) then continuedEntry pos (c :: cs) else namedEntry pos (c :: cs)

/-- What a parse leaves behind: the return value and the tokens found. -/
structure PhrResult where
  ret : Int
  method : Slice := {}
  path : Slice := {}
  minorVersion : Int := -1
  headers : List PhrHeader := []
  deriving DecidableEq, Repr

/-- `parse_headers` from position `pos`, with room for `room` more headers: the return value, which on success is the
position after the blank line, and the headers found. -/
def parseHeaders : Nat → Bool → Nat → Bytes → Int × List PhrHeader
  | room, first, pos, bs =>
    match bs with
    | [] => (-2, [])
    | c :: _ =>
      if c = CR ∨ c = LF then
        match lineEnd bs with
        | .ok n _ => ((pos + n : Nat), [])
        | .bad => (-1, [])
        | .more => (-2, [])
      else
        match room with
        | 0 => (-1, [])
        | room + 1 =>
          match headerEntry first pos bs with
          | .ok (h, n) rest =>
            let (ret, hs) := parseHeaders room false (pos + n) rest
            (ret, h :: hs)
          | .bad => (-1, [])
          | .more => (-2, [])

/-- `phr_parse_request`: the length of the header, `-1` or `-2`, and the tokens found. -/
def phrParseRequest (buf : Bytes) : PhrResult :=
  match skipEmptyLine buf with
  | .bad => { ret := -1 }
  | .more => { ret := -2 }
  | .ok skipped bs =>
    match advanceToken bs with
    | .bad => { ret := -1 }
    | .more => { ret := -2 }
    | .ok m bs =>
      let method : Slice := ⟨skipped, m⟩
      match advanceToken bs with
      | .bad => { ret := -1, method }
      | .more => { ret := -2, method }
      | .ok p bs =>
        let path : Slice := ⟨skipped + m + 1, p⟩
        match parseHttpVersion bs with
        | .bad => { ret := -1, method, path }
        | .more => { ret := -2, method, path }
        | .ok v bs =>
          match lineEnd bs with
          | .bad => { ret := -1, method, path, minorVersion := v }
          | .more => { ret := -2, method, path, minorVersion := v }
          | .ok e bs =>
            let (ret, headers) := parseHeaders 32 true (skipped + m + 1 + p + 1 + 8 + e) bs
            { ret, method, path, minorVersion := v, headers }

/-! ## Bytes that follow change nothing

Each piece is determined, and a success accounts for every byte: the bytes counted and the rest make up the input. -/

/-- The tokens of a header lie before position `lim`. -/
def PhrHeader.Within (h : PhrHeader) (lim : Nat) : Prop :=
  h.name.off + h.name.len ≤ lim ∧ h.value.off + h.value.len ≤ lim

namespace Pico

/-- Whether a line ends here is settled by two bytes, and by one that is not `CR`. -/
theorem lineEnd_determined : Determined lineEnd := by
  refine ⟨?_, ?_⟩
  · intro xs a rest h t
    rcases xs with _ | ⟨c, _ | ⟨d, ds⟩⟩
    · simp [lineEnd] at h
    · simp only [lineEnd] at h
      simp only [List.cons_append, List.nil_append, lineEnd]
      split_ifs at h ⊢
      simp only [Scan.ok.injEq] at h
      simp [← h.1, ← h.2]
    · simp only [lineEnd] at h
      simp only [List.cons_append, lineEnd]
      split_ifs at h ⊢
      · simp only [Scan.ok.injEq] at h
        simp [← h.1, ← h.2]
      · simp only [Scan.ok.injEq] at h
        simp [← h.1, ← h.2]
  · intro xs h t
    rcases xs with _ | ⟨c, _ | ⟨d, ds⟩⟩
    · simp [lineEnd] at h
    · simp only [lineEnd] at h
      simp only [List.cons_append, List.nil_append, lineEnd]
      split_ifs at h ⊢
      rfl
    · simp only [lineEnd] at h
      simp only [List.cons_append, lineEnd]
      split_ifs at h ⊢
      · rfl
      · rfl

/-- The end of a line is as long as `lineEnd` says: one byte, or two. -/
theorem lineEnd_counts : Counts lineEnd id := by
  intro bs n rest h
  rcases bs with _ | ⟨c, _ | ⟨d, ds⟩⟩
  · simp [lineEnd] at h
  · simp only [lineEnd] at h
    split_ifs at h
    simp only [Scan.ok.injEq] at h
    simp [← h.1, ← h.2]
  · simp only [lineEnd] at h
    split_ifs at h
    · simp only [Scan.ok.injEq] at h
      simp [← h.1, ← h.2]
      omega
    · simp only [Scan.ok.injEq] at h
      simp [← h.1, ← h.2]
      omega

/-- A blank, a control character or DEL ends the token, and only the blank is right. -/
theorem advanceToken_halt (c : UInt8) (cs : Bytes) (hc : c = SPACE ∨ c < 32 ∨ c = 127) :
    advanceToken (c :: cs) = expect (· = SPACE) 0 (c :: cs) := by
  simp only [advanceToken, expect]
  split_ifs with h1 h2
  · rfl
  · rfl
  · exact absurd hc (by simp [h1, h2])

/-- Every other byte belongs to the token. -/
theorem advanceToken_go (c : UInt8) (cs : Bytes) (hc : ¬(c = SPACE ∨ c < 32 ∨ c = 127)) :
    advanceToken (c :: cs) = (advanceToken cs).bind fun n rest => .ok (n + 1) rest := by
  rw [not_or] at hc
  simp only [advanceToken]
  rw [if_neg hc.1, if_neg hc.2]

/-- A token that is closed stays what it is when more bytes follow. -/
theorem advanceToken_determined : Determined advanceToken :=
  Determined.loop _ (· + 1) rfl advanceToken_halt advanceToken_go (Determined.expect _ 0)

/-- `ADVANCE_TOKEN` reads the token and the blank behind it. -/
theorem advanceToken_counts : Counts advanceToken (· + 1) :=
  Counts.loop _ (· + 1) rfl advanceToken_halt advanceToken_go (fun _ => rfl) (Counts.expect _ 0 rfl)

/-- The colon, or a byte that no name can have, ends the name of a header, and only the colon is right. -/
theorem headerName_halt (c : UInt8) (cs : Bytes) (hc : c = COLON ∨ isTokenChar c = false) :
    headerName (c :: cs) = expect (· = COLON) 0 (c :: cs) := by
  simp only [headerName, expect]
  split_ifs with h1 h2
  · rfl
  · exact absurd hc (by simp [h1, h2])
  · rfl

/-- A byte of a token belongs to the name of the header. -/
theorem headerName_go (c : UInt8) (cs : Bytes) (hc : ¬(c = COLON ∨ isTokenChar c = false)) :
    headerName (c :: cs) = (headerName cs).bind fun n rest => .ok (n + 1) rest := by
  rw [not_or, Bool.not_eq_false] at hc
  simp only [headerName]
  rw [if_neg hc.1, if_pos hc.2]

/-- A name closed by its colon stays what it is when more bytes follow. -/
theorem headerName_determined : Determined headerName :=
  Determined.loop _ (· + 1) rfl headerName_halt headerName_go (Determined.expect _ 0)

/-- The name of a header is read with its colon. -/
theorem headerName_counts : Counts headerName (· + 1) :=
  Counts.loop _ (· + 1) rfl headerName_halt headerName_go (fun _ => rfl) (Counts.expect _ 0 rfl)

/-- A byte that is no blank is left unread. -/
theorem skipBlanks_halt (c : UInt8) (cs : Bytes) (hc : ¬(c = SPACE ∨ c = 9)) : skipBlanks (c :: cs) = .ok 0 (c :: cs) := by
  simp only [skipBlanks]
  rw [if_neg hc]

/-- A blank or a tab before the value is skipped. -/
theorem skipBlanks_go (c : UInt8) (cs : Bytes) (hc : ¬¬(c = SPACE ∨ c = 9)) :
    skipBlanks (c :: cs) = (skipBlanks cs).bind fun n rest => .ok (n + 1) rest := by
  simp only [skipBlanks]
  rw [if_pos (not_not.mp hc)]

/-- The blanks end at the first byte that is none, whatever follows it. -/
theorem skipBlanks_determined : Determined skipBlanks :=
  Determined.loop _ (· + 1) rfl skipBlanks_halt skipBlanks_go (Determined.pure 0)

/-- `skipBlanks` reads as many bytes as it counts. -/
theorem skipBlanks_counts : Counts skipBlanks id :=
  Counts.loop _ (· + 1) rfl skipBlanks_halt skipBlanks_go (fun _ => rfl) (by
    intro xs a rest h
    cases h
    simp)

/-- A control character other than the tab ends the text of a line: the line has to end there. -/
theorem getTokenToEol_halt (c : UInt8) (cs : Bytes) (hc : (c < 32 ∧ c ≠ 9) ∨ c = 127) :
    getTokenToEol (c :: cs) = (lineEnd (c :: cs)).bind fun e rest => .ok (0, e) rest := by
  simp only [getTokenToEol]
  rw [if_pos hc]

/-- Every other byte belongs to the text of the line. -/
theorem getTokenToEol_go (c : UInt8) (cs : Bytes) (hc : ¬((c < 32 ∧ c ≠ 9) ∨ c = 127)) :
    getTokenToEol (c :: cs) = (getTokenToEol cs).bind fun t rest => .ok (t.1 + 1, t.2) rest := by
  simp only [getTokenToEol]
  rw [if_neg hc]

/-- A line that has ended stays what it is when more bytes follow. -/
theorem getTokenToEol_determined : Determined getTokenToEol :=
  Determined.loop _ (fun t => (t.1 + 1, t.2)) rfl getTokenToEol_halt getTokenToEol_go
    (lineEnd_determined.bind fun e => Determined.pure (0, e))

/-- `get_token_to_eol` reads the text and the end of the line. -/
theorem getTokenToEol_counts : Counts getTokenToEol (fun t => t.1 + t.2) := by
  refine Counts.loop (g := fun xs => (lineEnd xs).bind fun e rest => .ok (0, e) rest) _ (fun t => (t.1 + 1, t.2)) rfl
    getTokenToEol_halt getTokenToEol_go (fun t => ?_) ?_
  · simp only
    omega
  · intro xs a rest h
    obtain ⟨e, r, he, hr⟩ := Scan.bind_eq_ok.mp h
    cases hr
    simpa using lineEnd_counts he

/-- Whether an empty line stands before the request is settled by its first bytes. -/
theorem skipEmptyLine_determined : Determined skipEmptyLine := by
  refine ⟨?_, ?_⟩
  · intro xs a rest h t
    cases xs with
    | nil => simp [skipEmptyLine] at h
    | cons c cs =>
      simp only [skipEmptyLine, List.cons_append] at h ⊢
      split_ifs at h ⊢
      · exact lineEnd_determined.ok h t
      · simp only [Scan.ok.injEq] at h
        simp [← h.1, ← h.2]
  · intro xs h t
    cases xs with
    | nil => simp [skipEmptyLine] at h
    | cons c cs =>
      simp only [skipEmptyLine, List.cons_append] at h ⊢
      split_ifs at h ⊢
      exact lineEnd_determined.bad h t

/-- `skipEmptyLine` reads as many bytes as it counts: none, one or two. -/
theorem skipEmptyLine_counts : Counts skipEmptyLine id := by
  intro xs a rest h
  cases xs with
  | nil => simp [skipEmptyLine] at h
  | cons c cs =>
    simp only [skipEmptyLine] at h
    split_ifs at h
    · exact lineEnd_counts h
    · simp only [Scan.ok.injEq] at h
      simp [← h.1, ← h.2]

/-- The version is settled by eight bytes. -/
theorem parseHttpVersion_determined : Determined parseHttpVersion := by
  have happ : ∀ (xs t : Bytes), ¬ xs.length < 9 → ¬ (xs ++ t).length < 9 ∧ (xs ++ t).take 7 = xs.take 7 ∧
      (xs ++ t).getD 7 0 = xs.getD 7 0 ∧ (xs ++ t).drop 8 = xs.drop 8 ++ t := by
    intro xs t hl
    refine ⟨?_, ?_, ?_, ?_⟩
    · rw [List.length_append]; omega
    · rw [List.take_append_of_le_length (by omega)]
    · simp only [List.getD_eq_getElem?_getD]
      rw [List.getElem?_append_left (by omega)]
    · rw [List.drop_append_of_le_length (by omega)]
  refine ⟨?_, ?_⟩
  · intro xs a rest h t
    unfold parseHttpVersion at h ⊢
    split_ifs at h with h1 h2 h3
    obtain ⟨e1, e2, e3, e4⟩ := happ xs t h1
    rw [if_neg e1, e2, if_neg h2, e3, if_pos h3, e4]
    simp only [Scan.ok.injEq] at h
    rw [h.1, h.2]
  · intro xs h t
    unfold parseHttpVersion at h ⊢
    split_ifs at h with h1 h2 h3
    · obtain ⟨e1, e2, e3, e4⟩ := happ xs t h1
      rw [if_neg e1, e2, if_pos h2]
    · obtain ⟨e1, e2, e3, e4⟩ := happ xs t h1
      rw [if_neg e1, e2, if_neg h2, e3, if_neg h3]

/-- The version is eight bytes long, `HTTP/1.` and a digit. -/
theorem parseHttpVersion_counts : Counts parseHttpVersion (fun _ => 8) := by
  intro xs a rest h
  unfold parseHttpVersion at h
  split_ifs at h with h1 h2 h3
  simp only [Scan.ok.injEq] at h
  rw [← h.2, List.length_drop]
  refine ⟨rfl, ?_⟩
  simp only
  omega

/-- A header with a name is settled once its line has ended. -/
theorem namedEntry_determined (pos : Nat) : Determined (namedEntry pos) := by
  refine headerName_determined.bind (fun n => ?_)
  by_cases hn : n = 0
  · simp only [hn, if_true]
    exact Determined.fail
  · simp only [hn, if_false]
    exact skipBlanks_determined.bind fun b => getTokenToEol_determined.bind fun t => Determined.pure _

/-- A line that continues a header is settled once it has ended. -/
theorem continuedEntry_determined (pos : Nat) : Determined (continuedEntry pos) :=
  getTokenToEol_determined.bind fun _ => Determined.pure _

/-- A line of the header is settled once it has ended, be it a header or the continuation of one. -/
theorem headerEntry_determined (first : Bool) (pos : Nat) : Determined (headerEntry first pos) := by
  refine ⟨?_, ?_⟩
  · intro xs a rest h t
    cases xs with
    | nil => simp [headerEntry] at h
    | cons c cs =>
      simp only [headerEntry, List.cons_append] at h ⊢
      split_ifs at h ⊢
      · exact (continuedEntry_determined pos).ok h t
      · exact (namedEntry_determined pos).ok h t
  · intro xs h t
    cases xs with
    | nil => simp [headerEntry] at h
    | cons c cs =>
      simp only [headerEntry, List.cons_append] at h ⊢
      split_ifs at h ⊢
      · exact (continuedEntry_determined pos).bad h t
      · exact (namedEntry_determined pos).bad h t

/-- A header line is counted in full, and its tokens lie in it. -/
theorem headerEntry_spec {first : Bool} {pos n : Nat} {bs rest : Bytes} {h : PhrHeader}
    (he : headerEntry first pos bs = .ok (h, n) rest) : bs.length = n + rest.length ∧ h.Within (pos + n) := by
  cases bs with
  | nil => simp [headerEntry] at he
  | cons c cs =>
    simp only [headerEntry] at he
    split_ifs at he
    · obtain ⟨⟨v, e⟩, r, ht, hr⟩ := Scan.bind_eq_ok.mp he
      cases hr
      refine ⟨(getTokenToEol_counts ht).2, ?_, ?_⟩
      · simp only
        omega
      · simp only
        omega
    · obtain ⟨m, r, hm, hr⟩ := Scan.bind_eq_ok.mp he
      split_ifs at hr
      obtain ⟨b, r', hb, hr'⟩ := Scan.bind_eq_ok.mp hr
      obtain ⟨⟨v, e⟩, r'', ht, hr''⟩ := Scan.bind_eq_ok.mp hr'
      cases hr''
      have h1 := (headerName_counts hm).2
      have h2 := (skipBlanks_counts hb).2
      have h3 := (getTokenToEol_counts ht).2
      simp only [id] at h1 h2 h3
      refine ⟨by omega, ?_, ?_⟩
      · simp only
        omega
      · simp only
        omega

/-- A header value is on one line. -/
theorem getTokenToEol_free {bs rest : Bytes} {t : Nat × Nat} (h : getTokenToEol bs = .ok t rest) : CR ∉ bs.take t.1 := by
  induction bs generalizing t rest with
  | nil => cases h
  | cons c cs ih =>
    by_cases hc : (c < 32 ∧ c ≠ 9) ∨ c = 127
    · rw [getTokenToEol_halt c cs hc] at h
      obtain ⟨e, r, -, hr⟩ := Scan.bind_eq_ok.mp h
      cases hr
      simp
    · rw [getTokenToEol_go c cs hc] at h
      obtain ⟨t', r, ht, hr⟩ := Scan.bind_eq_ok.mp h
      cases hr
      have hne : CR ≠ c := by
        rintro rfl
        exact hc (by decide)
      simp only [List.take_succ_cons, List.mem_cons, not_or]
      exact ⟨hne, ih ht⟩

/-- The value of a header line, and where the next line begins. -/
theorem headerEntry_value {first : Bool} {pos n : Nat} {bs rest : Bytes} {h : PhrHeader}
    (he : headerEntry first pos bs = .ok (h, n) rest) :
    bs.drop n = rest ∧ ∃ k, h.value.off = pos + k ∧ CR ∉ (bs.drop k).take h.value.len := by
  cases bs with
  | nil => cases he
  | cons c cs =>
    simp only [headerEntry] at he
    split_ifs at he
    · obtain ⟨⟨v, e⟩, r, ht, hr⟩ := Scan.bind_eq_ok.mp he
      cases hr
      exact ⟨(getTokenToEol_counts ht).1, 0, rfl, getTokenToEol_free ht⟩
    · obtain ⟨m, r, hm, hr⟩ := Scan.bind_eq_ok.mp he
      split_ifs at hr
      obtain ⟨b, r', hb, hr'⟩ := Scan.bind_eq_ok.mp hr
      obtain ⟨⟨v, e⟩, r'', ht, hr''⟩ := Scan.bind_eq_ok.mp hr'
      cases hr''
      have hvalue : (c :: cs).drop (m + 1 + b) = r' := by
        rw [← List.drop_drop, (headerName_counts hm).1]
        exact (skipBlanks_counts hb).1
      refine ⟨?_, m + 1 + b, by simp only; omega, ?_⟩
      · rw [Nat.add_assoc, ← List.drop_drop, hvalue]
        exact (getTokenToEol_counts ht).1
      · rw [hvalue]
        exact getTokenToEol_free ht

/-- The blank line after the headers. -/
theorem parseHeaders_blank {c : UInt8} (hc : c = CR ∨ c = LF) (room : Nat) (first : Bool) (pos : Nat) (cs : Bytes) :
    parseHeaders room first pos (c :: cs) = match lineEnd (c :: cs) with
      | .ok n _ => (((pos + n : Nat) : Int), [])
      | .bad => (-1, [])
      | .more => (-2, []) := by
  cases room <;> simp only [parseHeaders, hc, if_true]

/-- With `max_headers` read, one more is refused. -/
theorem parseHeaders_full {c : UInt8} (hc : ¬(c = CR ∨ c = LF)) (first : Bool) (pos : Nat) (cs : Bytes) :
    parseHeaders 0 first pos (c :: cs) = (-1, []) := by
  simp only [parseHeaders, hc, if_false]

/-- A line that is not the empty one is an entry, and what it comes to decides about the rest. -/
theorem parseHeaders_entry {c : UInt8} (hc : ¬(c = CR ∨ c = LF)) (room : Nat) (first : Bool) (pos : Nat) (cs : Bytes) :
    parseHeaders (room + 1) first pos (c :: cs) = match headerEntry first pos (c :: cs) with
      | .ok (h, n) rest =>
        ((parseHeaders room false (pos + n) rest).1, h :: (parseHeaders room false (pos + n) rest).2)
      | .bad => (-1, [])
      | .more => (-2, []) := by
  simp only [parseHeaders, hc, if_false]

/-- Headers that are complete or malformed stay so, with the same tokens. -/
theorem parseHeaders_append (room : Nat) : ∀ (first : Bool) (pos : Nat) (bs t : Bytes),
    (parseHeaders room first pos bs).1 ≠ -2 → parseHeaders room first pos (bs ++ t) = parseHeaders room first pos bs := by
  have hblank : ∀ (room : Nat) (first : Bool) (pos : Nat) (c : UInt8) (cs t : Bytes), c = CR ∨ c = LF →
      (parseHeaders room first pos (c :: cs)).1 ≠ -2 →
      parseHeaders room first pos (c :: (cs ++ t)) = parseHeaders room first pos (c :: cs) := by
    intro room first pos c cs t hc h
    rw [parseHeaders_blank hc] at h ⊢
    rw [parseHeaders_blank hc]
    cases hl : lineEnd (c :: cs) with
    | ok n rest => rw [← List.cons_append, lineEnd_determined.ok hl t]
    | bad => rw [← List.cons_append, lineEnd_determined.bad hl t]
    | more => rw [hl] at h; exact absurd rfl h
  induction room with
  | zero =>
    intro first pos bs t h
    cases bs with
    | nil => simp [parseHeaders] at h
    | cons c cs =>
      rw [List.cons_append]
      by_cases hc : c = CR ∨ c = LF
      · exact hblank 0 first pos c cs t hc h
      · rw [parseHeaders_full hc, parseHeaders_full hc]
  | succ room ih =>
    intro first pos bs t h
    cases bs with
    | nil => simp [parseHeaders] at h
    | cons c cs =>
      rw [List.cons_append]
      by_cases hc : c = CR ∨ c = LF
      · exact hblank (room + 1) first pos c cs t hc h
      · rw [parseHeaders_entry hc] at h ⊢
        rw [parseHeaders_entry hc, ← List.cons_append]
        cases he : headerEntry first pos (c :: cs) with
        | ok a rest =>
          obtain ⟨e, n⟩ := a
          rw [he] at h
          rw [(headerEntry_determined first pos).ok he t]
          simp only
          rw [ih false (pos + n) rest t h]
        | bad => rw [(headerEntry_determined first pos).bad he t]
        | more => rw [he] at h; exact absurd rfl h

/-- What the headers of a parse are: a return value of at least `-2` and at most the length of the input; when it is a
length, the tokens found lie before it. -/
structure Bounded (pos len : Nat) (r : Int × List PhrHeader) : Prop where
  lower : -2 ≤ r.1
  upper : r.1 ≤ ((pos + len : Nat) : Int)
  inside : 0 ≤ r.1 → (pos : Int) ≤ r.1 ∧ ∀ h ∈ r.2, h.Within r.1.toNat

/-- A refusal, and a text that is cut, are within the bounds: they give no position. -/
theorem Bounded.failed {pos len : Nat} {ret : Int} (h : ret = -1 ∨ ret = -2) : Bounded pos len (ret, []) := by
  refine ⟨?_, ?_, ?_⟩
  · rcases h with rfl | rfl <;> decide
  · rcases h with rfl | rfl <;> simp only <;> omega
  · intro h0
    rcases h with rfl | rfl <;> exact absurd h0 (by decide)

/-- The headers that `parse_headers` finds lie before the position it gives, which is within the text. -/
theorem parseHeaders_bounded (room : Nat) : ∀ (first : Bool) (pos : Nat) (bs : Bytes),
    Bounded pos bs.length (parseHeaders room first pos bs) := by
  have hblank : ∀ (room : Nat) (first : Bool) (pos : Nat) (c : UInt8) (cs : Bytes), c = CR ∨ c = LF →
      Bounded pos (c :: cs).length (parseHeaders room first pos (c :: cs)) := by
    intro room first pos c cs hc
    rw [parseHeaders_blank hc]
    cases hl : lineEnd (c :: cs) with
    | ok n rest =>
      have hlen := (lineEnd_counts hl).2
      simp only [id] at hlen
      refine ⟨?_, ?_, ?_⟩
      · simp only
        omega
      · simp only
        omega
      · intro _
        refine ⟨?_, by simp⟩
        simp only
        omega
    | bad => exact Bounded.failed (Or.inl rfl)
    | more => exact Bounded.failed (Or.inr rfl)
  induction room with
  | zero =>
    intro first pos bs
    cases bs with
    | nil => exact Bounded.failed (Or.inr rfl)
    | cons c cs =>
      by_cases hc : c = CR ∨ c = LF
      · exact hblank 0 first pos c cs hc
      · rw [parseHeaders_full hc]
        exact Bounded.failed (Or.inl rfl)
  | succ room ih =>
    intro first pos bs
    cases bs with
    | nil => exact Bounded.failed (Or.inr rfl)
    | cons c cs =>
      by_cases hc : c = CR ∨ c = LF
      · exact hblank (room + 1) first pos c cs hc
      · rw [parseHeaders_entry hc]
        cases he : headerEntry first pos (c :: cs) with
        | ok a rest =>
          obtain ⟨e, n⟩ := a
          obtain ⟨hlen, hin⟩ := headerEntry_spec he
          have hrest := ih false (pos + n) rest
          refine ⟨hrest.lower, ?_, ?_⟩
          · have := hrest.upper
            simp only
            omega
          · intro h0
            obtain ⟨hpos, htok⟩ := hrest.inside h0
            refine ⟨?_, ?_⟩
            · simp only
              omega
            · intro h hm
              rcases List.mem_cons.mp hm with rfl | hm
              · simp only
                unfold PhrHeader.Within at hin ⊢
                omega
              · exact htok h hm
        | bad => exact Bounded.failed (Or.inl rfl)
        | more => exact Bounded.failed (Or.inr rfl)

/-- No header value has a CR. -/
theorem parseHeaders_value (data : Bytes) (room : Nat) : ∀ (first : Bool) (pos : Nat) (bs : Bytes), data.drop pos = bs →
    ∀ h ∈ (parseHeaders room first pos bs).2, CR ∉ h.value.read data := by
  induction room with
  | zero =>
    intro first pos bs _ h hm
    rcases bs with _ | ⟨c, cs⟩
    · cases hm
    · by_cases hc : c = CR ∨ c = LF
      · rw [parseHeaders_blank hc] at hm
        cases hl : lineEnd (c :: cs) <;> rw [hl] at hm <;> cases hm
      · rw [parseHeaders_full hc] at hm
        cases hm
  | succ room ih =>
    intro first pos bs hd h hm
    rcases bs with _ | ⟨c, cs⟩
    · cases hm
    · by_cases hc : c = CR ∨ c = LF
      · rw [parseHeaders_blank hc] at hm
        cases hl : lineEnd (c :: cs) <;> rw [hl] at hm <;> cases hm
      · rw [parseHeaders_entry hc] at hm
        cases he : headerEntry first pos (c :: cs) with
        | bad => rw [he] at hm; cases hm
        | more => rw [he] at hm; cases hm
        | ok a rest =>
          obtain ⟨e, n⟩ := a
          rw [he] at hm
          obtain ⟨hrest, k, hk, hfree⟩ := headerEntry_value he
          rcases List.mem_cons.mp hm with rfl | hm
          · rw [Slice.read, slice, hk, Nat.add_sub_cancel_left, ← List.drop_drop, hd]
            exact hfree
          · exact ih false (pos + n) rest (by rw [← List.drop_drop, hd, hrest]) h hm

end Pico

open Pico

/-- A header that is complete or malformed stays so when more bytes arrive, with the same tokens. -/
theorem phrParseRequest_append (buf t : Bytes) (h : (phrParseRequest buf).ret ≠ -2) :
    phrParseRequest (buf ++ t) = phrParseRequest buf := by
  unfold phrParseRequest at h ⊢
  cases h1 : skipEmptyLine buf with
  | bad => rw [skipEmptyLine_determined.bad h1 t]
  | more => rw [h1] at h; exact absurd rfl h
  | ok skipped bs =>
    rw [h1] at h
    rw [skipEmptyLine_determined.ok h1 t]
    simp only at h ⊢
    cases h2 : advanceToken bs with
    | bad => rw [advanceToken_determined.bad h2 t]
    | more => rw [h2] at h; exact absurd rfl h
    | ok m bs =>
      rw [h2] at h
      rw [advanceToken_determined.ok h2 t]
      simp only at h ⊢
      cases h3 : advanceToken bs with
      | bad => rw [advanceToken_determined.bad h3 t]
      | more => rw [h3] at h; exact absurd rfl h
      | ok p bs =>
        rw [h3] at h
        rw [advanceToken_determined.ok h3 t]
        simp only at h ⊢
        cases h4 : parseHttpVersion bs with
        | bad => rw [parseHttpVersion_determined.bad h4 t]
        | more => rw [h4] at h; exact absurd rfl h
        | ok v bs =>
          rw [h4] at h
          rw [parseHttpVersion_determined.ok h4 t]
          simp only at h ⊢
          cases h5 : lineEnd bs with
          | bad => rw [lineEnd_determined.bad h5 t]
          | more => rw [h5] at h; exact absurd rfl h
          | ok e bs =>
            rw [h5] at h
            rw [lineEnd_determined.ok h5 t]
            simp only at h ⊢
            rw [parseHeaders_append 32 true _ bs t h]

/-- The tokens of a result lie before position `lim`. -/
structure PhrResult.Within (r : PhrResult) (lim : Nat) : Prop where
  method : r.method.off + r.method.len ≤ lim
  path : r.path.off + r.path.len ≤ lim
  headers : ∀ h ∈ r.headers, h.Within lim

/-- The return value is `-1`, `-2` or a length within the input, and all tokens of a complete header lie in it. -/
theorem phrParseRequest_bounded (buf : Bytes) : -2 ≤ (phrParseRequest buf).ret ∧ (phrParseRequest buf).ret ≤ buf.length ∧
    (0 ≤ (phrParseRequest buf).ret → 0 < (phrParseRequest buf).ret ∧
      (phrParseRequest buf).Within (phrParseRequest buf).ret.toNat) := by
  have hfail : ∀ r : PhrResult, r.ret = -1 ∨ r.ret = -2 →
      -2 ≤ r.ret ∧ r.ret ≤ buf.length ∧ (0 ≤ r.ret → 0 < r.ret ∧ r.Within r.ret.toNat) := by
    intro r hr
    refine ⟨by omega, by omega, fun h0 => by omega⟩
  unfold phrParseRequest
  cases h1 : skipEmptyLine buf with
  | bad => exact hfail _ (Or.inl rfl)
  | more => exact hfail _ (Or.inr rfl)
  | ok skipped bs₁ =>
    simp only
    cases h2 : advanceToken bs₁ with
    | bad => exact hfail _ (Or.inl rfl)
    | more => exact hfail _ (Or.inr rfl)
    | ok m bs₂ =>
      simp only
      cases h3 : advanceToken bs₂ with
      | bad => exact hfail _ (Or.inl rfl)
      | more => exact hfail _ (Or.inr rfl)
      | ok p bs₃ =>
        simp only
        cases h4 : parseHttpVersion bs₃ with
        | bad => exact hfail _ (Or.inl rfl)
        | more => exact hfail _ (Or.inr rfl)
        | ok v bs₄ =>
          simp only
          cases h5 : lineEnd bs₄ with
          | bad => exact hfail _ (Or.inl rfl)
          | more => exact hfail _ (Or.inr rfl)
          | ok e bs₅ =>
            simp only
            have e1 := (skipEmptyLine_counts h1).2
            have e2 := (advanceToken_counts h2).2
            have e3 := (advanceToken_counts h3).2
            have e4 := (parseHttpVersion_counts h4).2
            have e5 := (lineEnd_counts h5).2
            simp only [id] at e1 e2 e3 e4 e5
            have hh := parseHeaders_bounded 32 true (skipped + m + 1 + p + 1 + 8 + e) bs₅
            refine ⟨hh.lower, ?_, fun h0 => ?_⟩
            · have := hh.upper
              omega
            · obtain ⟨hpos, htok⟩ := hh.inside h0
              refine ⟨by omega, ?_, ?_, htok⟩
              · simp only
                omega
              · simp only
                omega

/-- No header value has a CR. -/
theorem phrParseRequest_value (buf : Bytes) : ∀ h ∈ (phrParseRequest buf).headers, CR ∉ h.value.read buf := by
  unfold phrParseRequest
  intro h hm
  cases h1 : skipEmptyLine buf with
  | bad => rw [h1] at hm; cases hm
  | more => rw [h1] at hm; cases hm
  | ok skipped bs₁ =>
    rw [h1] at hm
    cases h2 : advanceToken bs₁ with
    | bad => simp only [h2] at hm; cases hm
    | more => simp only [h2] at hm; cases hm
    | ok m bs₂ =>
      simp only [h2] at hm
      cases h3 : advanceToken bs₂ with
      | bad => simp only [h3] at hm; cases hm
      | more => simp only [h3] at hm; cases hm
      | ok p bs₃ =>
        simp only [h3] at hm
        cases h4 : parseHttpVersion bs₃ with
        | bad => simp only [h4] at hm; cases hm
        | more => simp only [h4] at hm; cases hm
        | ok v bs₄ =>
          simp only [h4] at hm
          cases h5 : lineEnd bs₄ with
          | bad => simp only [h5] at hm; cases hm
          | more => simp only [h5] at hm; cases hm
          | ok e bs₅ =>
            simp only [h5] at hm
            refine parseHeaders_value buf 32 true _ bs₅ ?_ h hm
            rw [← (lineEnd_counts h5).1, ← (parseHttpVersion_counts h4).1, ← (advanceToken_counts h3).1, ← (advanceToken_counts h2).1,
              ← (skipEmptyLine_counts h1).1]
            simp only [List.drop_drop, id]
            congr 1

/-- A proper beginning of a header is incomplete. -/
theorem phrParseRequest_incomplete {buf t : Bytes} (ht : t ≠ [])
    (h : (phrParseRequest (buf ++ t)).ret = ((buf ++ t).length : Int)) : (phrParseRequest buf).ret = -2 := by
  by_contra hne
  rw [phrParseRequest_append buf t hne] at h
  have hle := (phrParseRequest_bounded buf).2.1
  have hpos : 0 < t.length := List.length_pos_iff.mpr ht
  rw [List.length_append] at h
  omega

end Netcore
