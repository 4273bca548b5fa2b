import Netcore.Client
import Netcore.Http.Decimal
import Netcore.Http.PicoResponse
import Netcore.Lib.Delimiter

/-!
# The client reads a response

`http_parser`, the two readers of `CTcpClient` and `do_read`. What a call of `recv` brings is a `Received`; after the end of a list of
them `recv` returns 0 or -1. `doRead_response` says what is reported of a response that arrives in any pieces and may be cut off
anywhere.

`is_chunked()` is called and not used: a response without a length has no body for the client.
-/

namespace Netcore

open Slices

/-- `http_parser`, after `parse_response`. -/
structure HttpParser where
  headerLen : Int
  status : Nat
  msg : Bytes
  headers : List (Bytes × Bytes)
  bodyLen : Int
  deriving DecidableEq, Repr

/-- `http_parser::get_header_value`. -/
def headerValue (headers : List (Bytes × Bytes)) (key : Bytes) : Bytes :=
  ((headers.find? fun h => iequal h.1 key).map Prod.snd).getD []

/-- `http_parser::parse_response`. Behind the value that `atoi` reads there is the end of its line. -/
def HttpParser.parseResponse (data : Bytes) : HttpParser :=
  let r := phrParseResponse data
  let headers := r.headers.map fun h => (h.name.read data, h.value.read data)
  let value := headerValue headers (bytes "content-length")
  { headerLen := r.ret
    status := r.status
    msg := r.msg.read data
    headers := headers
    bodyLen := if value = [] then 0 else int32 (atoll value) }

/-! ## `CTcpClient` -/

/-- What a call of `recv` brings into `buf`. -/
abbrev Received := { b : Bytes // b ≠ [] ∧ b.length ≤ 1024 }

/-- All that arrives. -/
def arrived (chunks : List Received) : Bytes := chunks.flatMap Subtype.val

/-- The loop of `read_until` over the bytes of one `recv`: the text up to `lit`, and what is left in `buf`. -/
def takeUntil (lit recvStr : Bytes) : Bytes → Option (Bytes × Bytes)
  | [] => none
  | c :: cs => if lit <:+ recvStr ++ [c] then some (recvStr ++ [c], cs) else takeUntil lit (recvStr ++ [c]) cs

/-- `read_until`, with `m_recv_str_buf` before it: the text, `m_recv_str_buf` after it, and what has not arrived yet. -/
def readUntil (lit recvStr : Bytes) : List Received → Option (Bytes × Bytes × List Received)
  | [] => none
  | chunk :: chunks =>
    match takeUntil lit recvStr chunk.val with
    | some (text, left) => some (text, left, chunks)
    | none => readUntil lit (recvStr ++ chunk.val) chunks

/-- `readN`, with `m_recv_str_buf` before it, which it does not empty. -/
def readN (siz : Int) (recvStr : Bytes) (chunks : List Received) : Option Bytes :=
  if siz ≤ 0 then some recvStr
  else
    match chunks with
    | [] => none
    | chunk :: chunks => readN (siz - chunk.val.length) (recvStr ++ chunk.val) chunks

/-! ## `do_read` -/

/-- The members of `http_client` that `do_read` uses. -/
structure ResponseReader where
  connected : Bool := true
  recvStrBuf : Bytes := []
  copyHeaders : List (Bytes × Bytes) := []
  deriving DecidableEq, Repr

/-- A `response_data`. -/
structure ResponseData where
  ec : Int
  status : Int
  respBody : Bytes
  respHeaders : List (Bytes × Bytes)
  deriving DecidableEq, Repr

namespace ResponseReader

/-- `get_resp_headers`. -/
def respHeaders (c : ResponseReader) (p : HttpParser) : List (Bytes × Bytes) := if c.copyHeaders ≠ [] then c.copyHeaders else p.headers

/-- `do_read`: what the callback is called with, if it is called at all. -/
def doRead (c : ResponseReader) (chunks : List Received) : ResponseReader × Option ResponseData :=
  match readUntil (CRLF ++ CRLF) c.recvStrBuf chunks with
  | none => ({ c with connected := false }, none)
  | some (headers, left, chunks) =>
    let c := { c with recvStrBuf := left }
    let p := HttpParser.parseResponse headers
    if p.headerLen < 0 then ({ c with connected := false }, some ⟨3, 404, bytes "http response parse error", c.respHeaders p⟩)
    else if p.bodyLen = 0 then ({ c with connected := false }, some ⟨0, p.status, [], c.respHeaders p⟩)
    else
      let sizeToRead := sizeT ((sizeT p.bodyLen : Int) - left.length)
      let c := { c with copyHeaders := p.headers }
      (c, some ⟨0, p.status, (readN (int32 sizeToRead) left chunks).getD [], c.respHeaders p⟩)

end ResponseReader

/-! ## The pieces -/

/-- A chunk in which the end does not come is taken whole. -/
theorem takeUntil_none {lit : Bytes} (chunk : Bytes) : ∀ {recvStr : Bytes},
    (∀ p, p ≠ [] → p <+: chunk → ¬lit <:+ recvStr ++ p) → takeUntil lit recvStr chunk = none := by
  induction chunk with
  | nil => exact fun _ => rfl
  | cons c cs ih =>
    intro recvStr h
    rw [takeUntil, if_neg (h [c] (List.cons_ne_nil _ _) (List.prefix_append [c] cs))]
    refine ih fun p _ hp => ?_
    have hnot := h (c :: p) (List.cons_ne_nil _ _) ((List.prefix_cons_inj c).mpr hp)
    rwa [← List.append_cons]

/-- A chunk is taken up to the first place at which the end has come. -/
theorem takeUntil_some {lit : Bytes} (a b : Bytes) : ∀ {recvStr : Bytes}, a ≠ [] → lit <:+ recvStr ++ a →
    (∀ p, p ≠ [] → p <+: a → p ≠ a → ¬lit <:+ recvStr ++ p) → takeUntil lit recvStr (a ++ b) = some (recvStr ++ a, b) := by
  induction a with
  | nil => exact fun h => absurd rfl h
  | cons c cs ih =>
    intro recvStr _ hend h
    rw [List.cons_append, takeUntil]
    by_cases hcs : cs = []
    · subst hcs
      rw [if_pos hend]
      rfl
    · rw [if_neg (h [c] (List.cons_ne_nil _ _) (List.prefix_append [c] cs) (fun heq => hcs (List.cons.inj heq).2.symm)),
        List.append_cons recvStr c cs]
      refine ih hcs ?_ fun p _ hp hne => ?_
      · rwa [← List.append_cons]
      · have hnot := h (c :: p) (List.cons_ne_nil _ _) ((List.prefix_cons_inj c).mpr hp) (fun heq => hne (List.cons.inj heq).2)
        rwa [← List.append_cons]

/-- `read_until` fails when what it looks for does not come. -/
theorem readUntil_none {lit : Bytes} (chunks : List Received) : ∀ {recvStr : Bytes},
    (∀ p, p ≠ [] → p <+: arrived chunks → ¬lit <:+ recvStr ++ p) → readUntil lit recvStr chunks = none := by
  induction chunks with
  | nil => exact fun _ => rfl
  | cons chunk chunks ih =>
    intro recvStr h
    have hsplit : arrived (chunk :: chunks) = chunk.val ++ arrived chunks := List.flatMap_cons
    rw [hsplit] at h
    rw [readUntil, takeUntil_none chunk.val fun p hne hp => h p hne (hp.trans (List.prefix_append _ _))]
    refine ih fun p hne hp => ?_
    rw [List.append_assoc]
    exact h _ (List.append_ne_nil_of_right_ne_nil _ hne) ((List.prefix_append_right_inj _).mpr hp)

/-- `read_until` stops behind the first place where it finds what it looks for, however the text is cut into pieces. -/
theorem readUntil_some {lit : Bytes} (chunks : List Received) : ∀ {recvStr a b : Bytes}, a ≠ [] → lit <:+ recvStr ++ a →
    (∀ p, p ≠ [] → p <+: a → p ≠ a → ¬lit <:+ recvStr ++ p) → arrived chunks = a ++ b →
      ∃ left rest, readUntil lit recvStr chunks = some (recvStr ++ a, left, rest) ∧ left ++ arrived rest = b := by
  induction chunks with
  | nil =>
    intro recvStr a b hne _ _ harr
    exact absurd (List.append_eq_nil_iff.mp harr.symm).1 hne
  | cons chunk chunks ih =>
    intro recvStr a b hne hend h harr
    have hsplit : arrived (chunk :: chunks) = chunk.val ++ arrived chunks := List.flatMap_cons
    rw [hsplit] at harr
    rw [readUntil]
    rcases List.append_eq_append_iff.mp harr with ⟨c, rfl, hc⟩ | ⟨c, hchunk, hb⟩
    · by_cases hcnil : c = []
      · subst hcnil
        rw [List.append_nil] at hne hend h ⊢
        have htake := takeUntil_some chunk.val [] hne hend h
        rw [List.append_nil] at htake
        rw [htake]
        exact ⟨[], chunks, rfl, hc⟩
      · have hnone : takeUntil lit recvStr chunk.val = none := by
          refine takeUntil_none chunk.val fun p hpne hp => h p hpne (hp.trans (List.prefix_append _ _)) ?_
          rintro rfl
          have hle := hp.length_le
          rw [List.length_append] at hle
          exact hcnil (List.length_eq_zero_iff.mp (by omega))
        rw [hnone, ← List.append_assoc]
        refine ih hcnil (by rwa [List.append_assoc]) (fun p hpne hp hpc => ?_) hc
        rw [List.append_assoc]
        exact h _ (List.append_ne_nil_of_right_ne_nil _ hpne) ((List.prefix_append_right_inj _).mpr hp)
          fun heq => hpc (List.append_cancel_left heq)
    · rw [hchunk, takeUntil_some a c hne hend h]
      exact ⟨c, chunks, rfl, hb.symm⟩

/-- `read_n` waits while less has come than it asks for. -/
theorem readN_none (chunks : List Received) : ∀ {siz : Int} {recvStr : Bytes}, (arrived chunks).length < siz →
    readN siz recvStr chunks = none := by
  induction chunks with
  | nil =>
    intro siz recvStr h
    have h0 : 0 < siz := h
    rw [readN, if_neg (by omega)]
  | cons chunk chunks ih =>
    intro siz recvStr h
    have hsplit : arrived (chunk :: chunks) = chunk.val ++ arrived chunks := List.flatMap_cons
    rw [hsplit, List.length_append] at h
    rw [readN, if_neg (by omega)]
    exact ih (by omega)

/-- `readN` of what has not come yet takes all of it. -/
theorem readN_some (chunks : List Received) : ∀ {siz : Int} {recvStr : Bytes}, siz = (arrived chunks).length →
    readN siz recvStr chunks = some (recvStr ++ arrived chunks) := by
  induction chunks with
  | nil =>
    intro siz recvStr h
    have hsiz : siz ≤ 0 := h.le
    rw [readN, if_pos hsiz]
    exact congrArg some (List.append_nil recvStr).symm
  | cons chunk chunks ih =>
    intro siz recvStr h
    have hsplit : arrived (chunk :: chunks) = chunk.val ++ arrived chunks := List.flatMap_cons
    have hpos : 0 < chunk.val.length := List.length_pos_iff.mpr chunk.property.1
    rw [hsplit, List.length_append] at h
    rw [readN, if_neg (by omega), hsplit, ← List.append_assoc]
    exact ih (by omega)

/-! ## Whole responses -/

/-- A text has no CR. -/
theorem not_mem_of_isTextChar {s : Bytes} (h : ∀ c ∈ s, isTextChar c = true) : CR ∉ s :=
  fun hmem => absurd (h CR hmem) (by decide)

/-- The lines of a head. -/
def ResponseHead.texts (h : ResponseHead) : List Bytes :=
  (bytes "HTTP/1.1" ++ SPACE :: (ResponseHead.digits h.code ++ SPACE :: h.reason)) :: h.lines.map fun l => l.name ++ COLON :: l.text

namespace ResponseHead

variable (h : ResponseHead)

/-- A head is a block of lines with an empty line behind it. -/
theorem write_eq_block : h.write = Delimiter.block CRLF h.texts := by
  have hlines : ∀ ls : List HeaderLine, ls.flatMap HeaderLine.write = (ls.map fun l => l.name ++ COLON :: l.text).flatMap (· ++ CRLF) := by
    intro ls
    rw [List.flatMap_map]
    congr 1
    funext l
    simp [HeaderLine.write]
  rw [write, hlines, texts, Delimiter.block, List.flatMap_cons]
  simp

/-- No line of a head is empty, and none has a CR. -/
theorem texts_ok : ∀ t ∈ h.texts, t ≠ [] ∧ CR ∉ t := by
  have hnot : ∀ n, n < 10 → CR ≠ UInt8.ofNat (48 + n) := by
    intro n hn heq
    exact absurd (heq ▸ isDigit_ofNat hn) (by decide)
  have hcode := h.code_lt
  refine List.forall_mem_cons.mpr ⟨⟨List.cons_ne_nil _ _, ?_⟩, fun t ht => ?_⟩
  · have hstart : CR ∉ bytes "HTTP/1.1" := by decide
    simp only [List.mem_append, List.mem_cons, digits, List.not_mem_nil, or_false, not_or]
    exact ⟨hstart, by decide, ⟨hnot _ (by omega), hnot _ (by omega), hnot _ (by omega)⟩, by decide, not_mem_of_isTextChar h.reason_chars⟩
  · obtain ⟨l, -, rfl⟩ := List.mem_map.mp ht
    refine ⟨List.append_ne_nil_of_left_ne_nil l.name_ne _, ?_⟩
    rw [List.mem_append, List.mem_cons, not_or, not_or]
    exact ⟨fun hmem => absurd (l.name_chars CR hmem) (by decide), by decide, not_mem_of_isTextChar l.text_chars⟩

/-- The empty line after a head is at its end, and nowhere before. -/
theorem ends_once : CRLF ++ CRLF <:+ h.write ∧ ∀ p, p <+: h.write → CRLF ++ CRLF <:+ p → p = h.write := by
  rw [write_eq_block]
  refine ⟨?_, fun p hp hend => ?_⟩
  · obtain ⟨ts, t, hts⟩ : ∃ ts t, h.texts = ts ++ [t] :=
      ⟨_, _, (List.dropLast_append_getLast (List.cons_ne_nil _ _)).symm⟩
    rw [hts]
    exact ⟨ts.flatMap (· ++ CRLF) ++ t, by simp [Delimiter.block]⟩
  · obtain ⟨q, hq⟩ := hp
    obtain ⟨x, hx⟩ := hend
    have hcat : (CRLF ++ x) ++ ([CR, LF, CR, LF] ++ q) = CRLF ++ Delimiter.block CRLF h.texts := by
      rw [← hq, ← hx]
      simp [CRLF]
    have hnil := Delimiter.block_ends_once (by decide) h.texts_ok hcat
    rw [← hq, hnil, List.append_nil]

/-- What `http_parser` finds in a head that has been written. -/
theorem parser_write : HttpParser.parseResponse h.write =
    { headerLen := h.write.length
      status := h.code
      msg := h.reason
      headers := h.lines.map fun l => (l.name, l.value)
      bodyLen :=
        let value := headerValue (h.lines.map fun l => (l.name, l.value)) (bytes "content-length")
        if value = [] then 0 else int32 (atoll value) } := by
  obtain ⟨hs, heq, hmap⟩ := h.parse_write
  have hmsg : Slice.read ⟨13, h.reason.length⟩ h.write = h.reason := by
    have hsplit : h.write = (bytes "HTTP/1.1" ++ SPACE :: (digits h.code ++ [SPACE])) ++ (h.reason ++
        (CRLF ++ (h.lines.flatMap HeaderLine.write ++ CRLF))) := by simp [write]
    have hlen : (bytes "HTTP/1.1" ++ SPACE :: (digits h.code ++ [SPACE])).length = 13 := rfl
    rw [Slice.read, slice, Nat.add_sub_cancel_left, hsplit, ← hlen, List.drop_left, List.take_left]
  rw [HttpParser.parseResponse, heq]
  simp only [hmap, hmsg]

end ResponseHead

/-- A head with a length, as the client sees it. -/
def ResponseHead.parsed (h : ResponseHead) (length : Nat) : HttpParser :=
  ⟨h.write.length, h.code, h.reason, h.lines.map fun l => (l.name, l.value), length⟩

/-- The head announces a body of `length` bytes, which an `int` can hold. -/
structure ResponseHead.Announces (h : ResponseHead) (length : Nat) : Prop where
  value : headerValue (h.lines.map fun l => (l.name, l.value)) (bytes "content-length") = decimal (length : Int)
  lt : length < 2147483648

/-- The client reads from a head what it announces. -/
theorem ResponseHead.Announces.parsed {h : ResponseHead} {length : Nat} (hl : h.Announces length) :
    HttpParser.parseResponse h.write = h.parsed length := by
  have hlt := hl.lt
  have hatoll : atoll (decimal (length : Int)) = length := atoll_decimal (by omega) (by omega)
  rw [h.parser_write]
  simp only [hl.value, hatoll, int32_of_lt hlt]
  rw [if_neg (decimal_ne_nil _)]
  rfl

namespace ResponseReader

/-- `do_read` of a new client, when the head is there and `left` of the body has come with it. -/
theorem doRead_head {h : ResponseHead} {length : Nat} (hl : h.Announces length) {left : Bytes} {rest chunks : List Received}
    (hread : readUntil (CRLF ++ CRLF) [] chunks = some (h.write, left, rest)) (hle : left.length ≤ length) :
    (doRead {} chunks).2 = some ⟨0, h.code, if length = 0 then [] else (readN (length - left.length) left rest).getD [],
      h.lines.map fun l => (l.name, l.value)⟩ := by
  have hlt := hl.lt
  have hsub : ((sizeT (length : Int) : Int) - left.length) = ((length - left.length : Nat) : Int) := by
    rw [sizeT_ofNat (by omega)]
    omega
  have hsize : int32 (sizeT ((sizeT (length : Int) : Int) - left.length)) = length - left.length := by
    rw [hsub, sizeT_ofNat (by omega), int32_of_lt (by omega)]
    omega
  have hheaders : ∀ copy, (copy = [] ∨ copy = (h.parsed length).headers) →
      respHeaders ⟨true, left, copy⟩ (h.parsed length) = h.lines.map fun l => (l.name, l.value) := by
    intro copy hcopy
    unfold respHeaders
    by_cases hnil : copy = []
    · rw [if_neg (not_not.mpr hnil)]
      rfl
    · rw [if_pos hnil]
      exact hcopy.resolve_left hnil
  unfold doRead
  rw [hread]
  simp only [hl.parsed]
  rw [if_neg (show ¬(h.parsed length).headerLen < 0 from Int.not_lt.mpr (Int.natCast_nonneg _)), hheaders [] (.inl rfl),
    hheaders (h.parsed length).headers (.inr rfl)]
  by_cases h0 : length = 0
  · rw [if_pos (show (h.parsed length).bodyLen = 0 from congrArg Int.ofNat h0), if_pos h0]
    rfl
  · rw [if_neg (show ¬(h.parsed length).bodyLen = 0 from fun h' => h0 (Int.ofNat_eq_zero.mp h')), if_neg h0]
    rw [show (h.parsed length).bodyLen = (length : Int) from rfl, hsize]
    rfl

/-- **A response in pieces.** Of the first `n` bytes of a response a new client reports nothing before the head is there, an empty body
as long as the body is not, and then the body, whatever the pieces are. -/
theorem doRead_response {h : ResponseHead} {body : Bytes} (hl : h.Announces body.length) {n : Nat} {chunks : List Received}
    (harr : arrived chunks = (h.write ++ body).take n) : (doRead {} chunks).2 =
      if n < h.write.length then none
      else some ⟨0, h.code, if h.write.length + body.length ≤ n then body else [], h.lines.map fun l => (l.name, l.value)⟩ := by
  obtain ⟨hends, hfirst⟩ := h.ends_once
  by_cases hn : n < h.write.length
  · rw [if_pos hn]
    rw [List.take_append_of_le_length (by omega)] at harr
    have hnone : readUntil (CRLF ++ CRLF) [] chunks = none := by
      refine readUntil_none chunks fun p _ hp hend => ?_
      rw [harr] at hp
      have heq := hfirst p (hp.trans (List.take_prefix _ _)) hend
      have hlen := hp.length_le
      rw [heq, List.length_take] at hlen
      omega
    rw [doRead, hnone]
  · rw [if_neg hn]
    have hsplit : arrived chunks = h.write ++ body.take (n - h.write.length) := by
      rw [harr, List.take_append, List.take_of_length_le (by omega)]
    have hne : h.write ≠ [] := by
      intro hnil
      rw [hnil] at hends
      exact absurd hends.length_le (by decide)
    obtain ⟨left, rest, hread, hrest⟩ := readUntil_some chunks hne (List.nil_append h.write ▸ hends)
      (fun p _ hp hpne hend => hpne (hfirst p hp hend)) hsplit
    have hlen := congrArg List.length hrest
    rw [List.length_append, List.length_take] at hlen
    rw [doRead_head hl hread (by omega)]
    by_cases h0 : body.length = 0
    · rw [if_pos h0, List.length_eq_zero_iff.mp h0, ite_self]
    · rw [if_neg h0]
      by_cases hall : h.write.length + body.length ≤ n
      · rw [if_pos hall, readN_some rest (by omega), hrest, List.take_of_length_le (by omega)]
        rfl
      · rw [if_neg hall, readN_none rest (by omega)]
        rfl

end ResponseReader

end Netcore
