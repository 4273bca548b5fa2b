import Mathlib.Data.List.Find
import Mathlib.Tactic.MkIffOfInductiveProp
import Netcore.Http.Request
import Netcore.Http.Router

/-!
# What `parse_header` leaves in a request

The functions of `Head` read the header at the front of a byte string. An answer of `parse_header` that is not negative means
that the header is complete; then method, URL, header values and body length of the request are those of `Head` on the bytes
received. The buffer and what has been received are never changed, and bytes that follow a complete header change nothing.
-/

namespace Netcore

open Slices

/-- A token that lies within the first `n` bytes is read from them alone. -/
theorem Slice.read_take {s : Slice} {n : Nat} (h : s.off + s.len ≤ n) (buf : Bytes) : s.read (buf.take n) = s.read buf := by
  unfold Slice.read slice
  rw [List.drop_take, List.take_take, Nat.min_eq_left (by omega)]

namespace Head

/-- The length of the header, `-1` or `-2`. -/
def len (data : Bytes) : Int := (phrParseRequest data).ret

/-- The value of a header; an absent one is empty. -/
def value (data key : Bytes) : Bytes :=
  match (phrParseRequest data).headers.find? (fun h => iequal (h.name.read data) key) with
  | some h => h.value.read data
  | none => []

/-- The token of the URL without the query. -/
def urlToken (data : Bytes) : Slice :=
  match ((phrParseRequest data).path.read data).idxOf? 63 with
  | some pos => { (phrParseRequest data).path with len := pos }
  | none => (phrParseRequest data).path

def method (data : Bytes) : Bytes := (phrParseRequest data).method.read data

/-- The URL without the query. -/
def url (data : Bytes) : Bytes := (urlToken data).read data

/-- The number that `Content-Length` gives. -/
def contentLength (data : Bytes) : Int := atoll (value data (bytes "content-length"))

/-- The header announces a body. -/
def hasBody (data : Bytes) : Bool :=
  if value data (bytes "content-length") = [] then decide (value data (bytes "transfer-encoding") = bytes "chunked")
  else decide (sizeT (contentLength data) ≠ 0)

/-- The header asks for a WebSocket. -/
def isUpgrade (data : Bytes) : Bool :=
  decide (method data = bytes "GET" ∧ value data (bytes "connection") ≠ [] ∧ value data (bytes "upgrade") ≠ [] ∧
    findStrIC (value data (bytes "connection")) (bytes "upgrade") = true ∧
    iequal (value data (bytes "upgrade")) (bytes "websocket") = true ∧ (value data (bytes "sec-websocket-key")).length = 24)

/-- The route that a complete header leads to. Without a method, the URL is not looked at. -/
def route (router : Router) (data : Bytes) : Option Target :=
  if (phrParseRequest data).method.len ≠ 0 then router.route (method data) (url data) else router.route [] []

/-- The header is complete, and its URL has a slash. -/
@[mk_iff]
structure Complete (data : Bytes) : Prop where
  len : 0 ≤ len data
  slash : SLASH ∈ (phrParseRequest data).path.read data

instance decComplete (data : Bytes) : Decidable (Complete data) := decidable_of_iff' _ (complete_iff data)

/-- The length of a header is -1 or -2, or lies within the data and is not zero. -/
theorem len_bounded (data : Bytes) : -2 ≤ len data ∧ len data ≤ data.length ∧ (0 ≤ len data → 0 < len data) :=
  ⟨(phrParseRequest_bounded data).1, (phrParseRequest_bounded data).2.1, fun h => ((phrParseRequest_bounded data).2.2 h).1⟩

/-- The tokens of a complete header lie in it. -/
theorem within {data : Bytes} (h : 0 ≤ len data) : (phrParseRequest data).Within data.length := by
  obtain ⟨_, hle, hin⟩ := phrParseRequest_bounded data
  obtain ⟨_, hw⟩ := hin h
  have hle' : (phrParseRequest data).ret.toNat ≤ data.length := by omega
  exact ⟨hw.method.trans hle', hw.path.trans hle', fun x hx => ⟨(hw.headers x hx).1.trans hle', (hw.headers x hx).2.trans hle'⟩⟩

/-- A header value is on one line. -/
theorem value_cr (data key : Bytes) : CR ∉ value data key := by
  unfold value
  split
  · rename_i h hf
    exact phrParseRequest_value data h (List.mem_of_find?_eq_some hf)
  · simp

/-- A token of a header is read from the header alone. -/
theorem read_append {data : Bytes} {s : Slice} (hs : s.off + s.len ≤ data.length) (t : Bytes) :
    s.read (data ++ t) = s.read data := by
  rw [← Slice.read_take hs, List.take_left]

section Append

variable {data : Bytes} (h : 0 ≤ len data) (t : Bytes)
include h

/-- A header that was parsed is parsed the same whatever follows it, and so is each of its values below. -/
theorem parse_append : phrParseRequest (data ++ t) = phrParseRequest data := by
  apply phrParseRequest_append
  unfold len at h
  omega

theorem len_append : len (data ++ t) = len data := by
  rw [len, len, parse_append h]

theorem value_append (key : Bytes) : value (data ++ t) key = value data key := by
  have hfind : (phrParseRequest data).headers.find? (fun x => iequal (x.name.read (data ++ t)) key) =
      (phrParseRequest data).headers.find? (fun x => iequal (x.name.read data) key) := by
    apply List.find?_congr
    intro x hx
    rw [read_append ((within h).headers x hx).1]
  unfold value
  rw [parse_append h, hfind]
  cases hf : (phrParseRequest data).headers.find? (fun x => iequal (x.name.read data) key) with
  | none => rfl
  | some x => exact read_append ((within h).headers x (List.mem_of_find?_eq_some hf)).2 t

theorem contentLength_append : contentLength (data ++ t) = contentLength data := by
  rw [contentLength, contentLength, value_append h]

theorem method_append : method (data ++ t) = method data := by
  rw [method, method, parse_append h, read_append (within h).method]

/-- The URL lies within the data. -/
theorem urlToken_within : (urlToken data).off + (urlToken data).len ≤ data.length := by
  have hp := (within h).path
  unfold urlToken
  split
  · rename_i pos hpos
    obtain ⟨hlt, -, -⟩ := List.idxOf?_eq_some_iff.mp hpos
    have hlen : ((phrParseRequest data).path.read data).length = (phrParseRequest data).path.len := by
      rw [Slice.read, length_slice hp]
      omega
    simp only
    omega
  · exact hp

theorem urlToken_append : urlToken (data ++ t) = urlToken data := by
  unfold urlToken
  rw [parse_append h, read_append (within h).path]

theorem url_append : url (data ++ t) = url data := by
  rw [url, url, urlToken_append h, read_append (urlToken_within h)]

/-- The router decides by the header alone. -/
theorem route_append (router : Router) : route router (data ++ t) = route router data := by
  rw [route, route, parse_append h, method_append h, url_append h]

end Append

/-- A header that is complete stays so when more bytes come. -/
theorem Complete.append {data : Bytes} (h : Complete data) (t : Bytes) : Complete (data ++ t) := by
  refine ⟨by rw [len_append h.len]; exact h.len, ?_⟩
  rw [parse_append h.len, read_append (within h.len).path]
  exact h.slash

end Head

namespace Request

/-- The request `q` is `r` with the complete header at the front of its bytes parsed. -/
structure Parsed (r q : Request) : Prop where
  complete : Head.Complete r.received
  buf : q.buf = r.buf
  curSize : q.curSize = r.curSize
  headerLen : q.headerLen = Head.len r.received
  headers : q.headers = (phrParseRequest r.received).headers
  copyHeaders : q.copyHeaders = []
  method : q.method = (phrParseRequest r.received).method
  url : q.url = Head.urlToken r.received
  minorVersion : q.minorVersion = (phrParseRequest r.received).minorVersion
  bodyLen : q.bodyLen = if Head.value r.received (bytes "content-length") = [] then 0
    else sizeT (Head.contentLength r.received)
  leftBodyLen : q.leftBodyLen = if Head.value r.received (bytes "content-length") = [] then r.leftBodyLen
    else sizeT (Head.contentLength r.received)
  isChunked : q.isChunked = (r.isChunked || (decide (Head.value r.received (bytes "content-length") = []) &&
    decide (Head.value r.received (bytes "transfer-encoding") = bytes "chunked")))
  hasGzip : q.hasGzip = contains (Head.value r.received (bytes "content-encoding")) (bytes "gzip")
  methodStr : q.methodStr = r.methodStr
  urlStr : q.urlStr = r.urlStr
  maxHeaderLen : q.maxHeaderLen = r.maxHeaderLen
  state : q.state = r.state
  multipartFormMap : q.multipartFormMap = r.multipartFormMap
  multipartHeaders : q.multipartHeaders = r.multipartHeaders

/-- `read_cookie` sets the cookies and nothing else. -/
theorem readCookie_eq (r : Request) : ∃ cookie, r.readCookie = { r with cookieStr := cookie } := by
  unfold readCookie
  dsimp only
  split
  · exact ⟨r.cookieStr, rfl⟩
  · exact ⟨_, rfl⟩

/-- After the parse of the tokens a header value is read off the bytes received. -/
theorem getHeaderValue_eq {r q : Request} (hc : 0 ≤ Head.len r.received) (hb : q.buf = r.buf)
    (hh : q.headers = (phrParseRequest r.received).headers) (he : q.copyHeaders = []) (key : Bytes) :
    q.getHeaderValue key = Head.value r.received key := by
  have hw := Head.within hc
  have hle : r.received.length ≤ r.curSize := by simp [received]
  have hread : ∀ s : Slice, s.off + s.len ≤ r.received.length → s.read q.buf = s.read r.received := by
    intro s hs'
    rw [hb, received, Slice.read_take (by omega)]
  have hfind : q.headers.find? (fun x => iequal (x.name.read q.buf) key) =
      (phrParseRequest r.received).headers.find? (fun x => iequal (x.name.read r.received) key) := by
    rw [hh]
    apply List.find?_congr
    intro x hx
    rw [hread _ (hw.headers x hx).1]
  unfold getHeaderValue Head.value
  rw [if_pos he, hfind]
  cases hf : (phrParseRequest r.received).headers.find? (fun x => iequal (x.name.read r.received) key) with
  | none => rfl
  | some x => exact hread _ (hw.headers x (List.mem_of_find?_eq_some hf)).2

/-- The stages of `parse_header` up to the URL. -/
def parseFields (r : Request) : Request := r.parseTokens.checkGzip.readBodyLen.readCookie

/-- Whether the client takes `gzip` is kept apart from the headers. -/
theorem checkGzip_getHeaderValue (r : Request) (key : Bytes) : r.checkGzip.getHeaderValue key = r.getHeaderValue key := rfl

/-- After the parsing a header is looked up in the bytes that were received. -/
theorem parseTokens_getHeaderValue {r : Request} (hc : 0 ≤ Head.len r.received) (key : Bytes) :
    r.parseTokens.getHeaderValue key = Head.value r.received key :=
  getHeaderValue_eq (q := r.parseTokens) hc rfl rfl rfl key

/-- `body_len_` and the flags, from the header values. -/
theorem readBodyLen_eq (r : Request) : r.readBodyLen =
    { r with
      bodyLen := if r.getHeaderValue (bytes "content-length") = [] then 0
        else sizeT (atoll (r.getHeaderValue (bytes "content-length")))
      leftBodyLen := if r.getHeaderValue (bytes "content-length") = [] then r.leftBodyLen
        else sizeT (atoll (r.getHeaderValue (bytes "content-length")))
      isChunked := r.isChunked || (decide (r.getHeaderValue (bytes "content-length") = []) &&
        decide (r.getHeaderValue (bytes "transfer-encoding") = bytes "chunked")) } := by
  unfold readBodyLen setBodyLen
  by_cases hv : r.getHeaderValue (bytes "content-length") = []
  · simp [hv]
  · simp [hv]

/-- The URL token that is left when the query has been split off. -/
theorem readUrl_eq {r q : Request} (h : r.readUrl = some q) : SLASH ∈ r.url.read r.buf ∧ ∃ queries,
    q = { r with
      rawUrl := r.url.read r.buf
      queries := queries
      url := match (r.url.read r.buf).idxOf? 63 with
        | some pos => { r.url with len := pos }
        | none => r.url } := by
  unfold readUrl at h
  dsimp only at h
  split at h
  · rename_i hs
    refine ⟨hs, ?_⟩
    revert h
    cases (r.url.read r.buf).idxOf? 63 with
    | some pos => exact fun h => ⟨_, (Option.some.inj h).symm⟩
    | none => exact fun h => ⟨r.queries, (Option.some.inj h).symm⟩
  · cases h

/-- `read_url` finds the path in a URL that has a slash. -/
theorem readUrl_isSome {r : Request} (h : SLASH ∈ r.url.read r.buf) : ∃ q, r.readUrl = some q := by
  unfold readUrl
  dsimp only
  rw [if_pos h]
  cases (r.url.read r.buf).idxOf? 63 with
  | none => exact ⟨_, rfl⟩
  | some pos => exact ⟨_, rfl⟩

/-- The request after a complete parse. -/
theorem parseFields_readUrl {r q : Request} (hc : 0 ≤ Head.len r.received) (h : r.parseFields.readUrl = some q) :
    Parsed r q := by
  have hw := (Head.within hc).path
  have hle : r.received.length ≤ r.curSize := by simp [received]
  have hpath : (phrParseRequest r.received).path.read r.buf = (phrParseRequest r.received).path.read r.received := by
    rw [received, Slice.read_take (by rw [received] at hw hle; omega)]
  obtain ⟨cookie, hcookie⟩ := readCookie_eq r.parseTokens.checkGzip.readBodyLen
  have hval := parseTokens_getHeaderValue hc
  obtain ⟨hs, queries, hq⟩ := readUrl_eq h
  rw [parseFields, hcookie, readBodyLen_eq] at hq hs
  have hs' : SLASH ∈ (phrParseRequest r.received).path.read r.buf := hs
  simp only [checkGzip_getHeaderValue, hval] at hq
  subst hq
  refine ⟨⟨hc, hpath ▸ hs'⟩, rfl, rfl, rfl, rfl, rfl, rfl, ?_, rfl, rfl, rfl, rfl, ?_, rfl, rfl, rfl, rfl, rfl, rfl⟩
  · unfold Head.urlToken
    rw [← hpath]
    rfl
  · show contains (r.parseTokens.getHeaderValue _) _ = _
    rw [hval]

/-- The three ways in which `parse_header` can end. -/
theorem parseHeader_cases (r : Request) (check : Option (Request → Bool)) :
    (∃ q, r.parseHeader check = (q, -1) ∧ q.buf = r.buf ∧ q.curSize = r.curSize) ∨
    (r.curSize ≤ r.maxHeaderLen ∧ Head.len r.received = -2 ∧ r.parseHeader check = (r.parseTokens, -2)) ∨
    (∃ q, r.parseHeader check = (q, Head.len r.received) ∧ Parsed r q) := by
  obtain ⟨hlow, -, -⟩ := Head.len_bounded r.received
  unfold parseHeader
  dsimp only
  split_ifs with h1 h2 h3
  · exact .inl ⟨_, rfl, rfl, rfl⟩
  · have hneg : Head.len r.received < 0 := h2
    rcases (show Head.len r.received = -1 ∨ Head.len r.received = -2 by omega) with hl | hl
    · exact .inl ⟨r.parseTokens, by rw [← hl]; rfl, rfl, rfl⟩
    · exact .inr (.inl ⟨by simpa [parseTokens] using h1, hl, by rw [← hl]; rfl⟩)
  · exact .inl ⟨_, rfl, rfl, rfl⟩
  · have hc : 0 ≤ Head.len r.received := by
      have h2' : ¬Head.len r.received < 0 := h2
      omega
    split
    · rename_i q hq
      have hp := parseFields_readUrl hc hq
      exact .inr (.inr ⟨q, by rw [hp.headerLen], hp⟩)
    · refine .inl ⟨_, rfl, ?_, ?_⟩
      · obtain ⟨cookie, hcookie⟩ := readCookie_eq r.parseTokens.checkGzip.readBodyLen
        rw [hcookie, readBodyLen_eq]
        rfl
      · obtain ⟨cookie, hcookie⟩ := readCookie_eq r.parseTokens.checkGzip.readBodyLen
        rw [hcookie, readBodyLen_eq]
        rfl

/-- `parse_header` leaves the uploads alone. -/
theorem parseHeader_files (r : Request) (check : Option (Request → Bool)) : (r.parseHeader check).1.files = r.files := by
  obtain ⟨cookie, hcookie⟩ := readCookie_eq r.parseTokens.checkGzip.readBodyLen
  have hfields : r.parseFields.files = r.files := by
    rw [parseFields, hcookie, readBodyLen_eq]
    rfl
  unfold parseHeader
  dsimp only
  split_ifs
  · rfl
  · rfl
  · rfl
  · split
    · rename_i q hq
      obtain ⟨-, queries, rfl⟩ := readUrl_eq hq
      exact hfields
    · exact hfields

/-- A complete header of a message that is not too long, which no hook refuses, is parsed. -/
theorem parseHeader_accepted {r : Request} {check : Option (Request → Bool)} (hc : Head.Complete r.received)
    (hs : r.curSize ≤ r.buf.length) (hm : r.curSize ≤ r.maxHeaderLen) (ha : check.map (· r.parseTokens) ≠ some false) :
    ∃ q, r.parseHeader check = (q, Head.len r.received) ∧ Parsed r q ∧ r.parseFields.readUrl = some q := by
  have h1 : ¬r.parseTokens.maxHeaderLen < r.parseTokens.curSize := Nat.not_lt.mpr hm
  have h2 : ¬r.parseTokens.headerLen < 0 := Int.not_lt.mpr hc.len
  have hlen : r.received.length = r.curSize := by simp [received, hs]
  have hpath := (Head.within hc.len).path
  have hslash : SLASH ∈ r.parseFields.url.read r.parseFields.buf := by
    obtain ⟨cookie, hcookie⟩ := readCookie_eq r.parseTokens.checkGzip.readBodyLen
    rw [parseFields, hcookie, readBodyLen_eq]
    have := hc.slash
    rw [received, Slice.read_take (by rw [← received]; omega)] at this
    exact this
  obtain ⟨q, hq⟩ := readUrl_isSome hslash
  have hp := parseFields_readUrl hc.len hq
  refine ⟨q, ?_, hp, hq⟩
  unfold parseHeader
  dsimp only
  rw [if_neg h1, if_neg h2, if_neg ha, ← parseFields, hq, ← hp.headerLen]

/-- `parse_header` on a complete header gives its length and a request with its values. -/
theorem parseHeader_complete {r : Request} (hc : Head.Complete r.received) (hs : r.curSize ≤ r.buf.length)
    (hm : r.curSize ≤ r.maxHeaderLen) : ∃ q, r.parseHeader none = (q, Head.len r.received) ∧ Parsed r q := by
  obtain ⟨q, hq, hp, -⟩ := @parseHeader_accepted r none hc hs hm (by simp)
  exact ⟨q, hq, hp⟩

/-- The query is parsed from the URL as it was received; the form values stay as they were. -/
theorem parseFields_queries {r q : Request} (h : r.parseFields.readUrl = some q) : q.formUrlMap = r.formUrlMap ∧
    ∀ pos, (r.parseTokens.url.read r.buf).idxOf? 63 = some pos →
      q.queries = parseQuery ((r.parseTokens.url.read r.buf).drop (pos + 1)) := by
  obtain ⟨cookie, hcookie⟩ := readCookie_eq r.parseTokens.checkGzip.readBodyLen
  rw [parseFields, hcookie, readBodyLen_eq] at h
  unfold readUrl at h
  dsimp only at h
  split at h
  · split at h
    · rename_i pos hpos
      cases h
      refine ⟨rfl, fun pos' hpos' => ?_⟩
      rw [Option.some.inj (hpos.symm.trans hpos')]
      rfl
    · rename_i hpos
      cases h
      exact ⟨rfl, fun pos hpos' => absurd (hpos.symm.trans hpos') (by simp)⟩
  · cases h

/-- A body that ends before `curSize` is a part of the bytes received. -/
theorem body_of_le {r : Request} (h0 : 0 ≤ r.headerLen) (h : r.headerLen + r.bodyLen ≤ r.curSize)
    (hs : r.curSize ≤ r.buf.length) : r.body = slice r.received r.headerLen.toNat (r.headerLen.toNat + r.bodyLen) ∧
      r.body.length = r.bodyLen := by
  have he : r.headerLen.toNat + r.bodyLen ≤ r.curSize := by omega
  refine ⟨?_, ?_⟩
  · exact (Slice.read_take (s := ⟨r.headerLen.toNat, r.bodyLen⟩) he r.buf).symm
  · rw [body, length_slice (by omega)]
    omega

/-- The sum of the sizes, for a request that is not longer than it may be. -/
theorem totalLen_of_head {q : Request} {head : Bytes} {n : Nat} (hlen : q.headerLen = head.length) (hn : q.bodyLen = n)
    (hfits : head.length + n ≤ maxSize) : q.totalLen = head.length + n ∧ q.atCapacity = false := by
  unfold maxSize at hfits
  have htot : sizeT (q.headerLen + q.bodyLen) = head.length + n := by
    rw [hlen, hn]
    exact_mod_cast sizeT_ofNat (show head.length + n < 18446744073709551616 by omega)
  refine ⟨htot, ?_⟩
  unfold Request.atCapacity maxSize
  rw [htot]
  exact decide_eq_false (by omega)

namespace Parsed

variable {r q : Request} (h : Parsed r q)
include h

theorem getHeaderValue (key : Bytes) : q.getHeaderValue key = Head.value r.received key :=
  getHeaderValue_eq h.complete.len h.buf h.headers h.copyHeaders key

theorem received : q.received = r.received := by
  rw [Request.received, Request.received, h.buf, h.curSize]

/-- Tokens of the header are read from the bytes received. -/
theorem read {s : Slice} (hs : s.off + s.len ≤ r.received.length) : s.read q.buf = s.read r.received := by
  have hle : r.received.length ≤ r.curSize := by simp [Request.received]
  rw [h.buf, Request.received, Slice.read_take (by omega)]

theorem getMethod : q.getMethod = if (phrParseRequest r.received).method.len ≠ 0 then Head.method r.received else r.methodStr := by
  unfold Request.getMethod
  rw [h.method, h.methodStr, h.read (Head.within h.complete.len).method]
  rfl

theorem getUrl : q.getUrl = if (phrParseRequest r.received).method.len ≠ 0 then Head.url r.received else r.urlStr := by
  unfold Request.getUrl
  rw [h.method, h.urlStr, h.url, h.read (Head.urlToken_within h.complete.len)]
  rfl

/-- The method of a request that has no copy of an earlier one. -/
theorem getMethod_of_nil (hm : r.methodStr = []) : q.getMethod = Head.method r.received := by
  rw [h.getMethod]
  split_ifs with hl
  · rfl
  · rw [hm, Head.method, Slice.read, not_not.mp hl]
    exact (slice_self _ _).symm

/-- The route of a request that has no copies of an earlier one. -/
theorem route (hm : r.methodStr = []) (hu : r.urlStr = []) (router : Router) :
    router.route q.getMethod q.getUrl = Head.route router r.received := by
  rw [h.getMethod, h.getUrl, Head.route, hm, hu]
  split_ifs <;> rfl

theorem hasBody (hc : r.isChunked = false) : q.hasBody = Head.hasBody r.received := by
  unfold Request.hasBody Head.hasBody
  rw [h.bodyLen, h.isChunked, hc]
  split_ifs with hv
  · simp [hv]
  · simp [hv]

/-- The sizes of a request with the header `head`, which announces a body of `n` bytes. -/
theorem sizes_of_head {head tl : Bytes} {n : Nat} (hr : r.received = head ++ tl) (h0 : 0 ≤ Head.len head)
    (hlen : Head.len head = head.length) (hl : Head.value head (bytes "content-length") ≠ []) (hn : Head.contentLength head = n) :
    q.headerLen = head.length ∧ q.bodyLen = n ∧ q.leftBodyLen = n ∧ n < 9223372036854775808 := by
  obtain ⟨-, hhigh⟩ := atoll_bounds (Head.value head (bytes "content-length"))
  have hlt : n < 9223372036854775808 := by
    unfold Head.contentLength at hn
    omega
  have hnum : sizeT (Head.contentLength r.received) = n := by
    rw [hr, Head.contentLength_append h0, hn]
    exact sizeT_ofNat (by omega)
  have hval : Head.value r.received (bytes "content-length") ≠ [] := by
    rw [hr, Head.value_append h0]
    exact hl
  refine ⟨?_, ?_, ?_, hlt⟩
  · rw [h.headerLen, hr, Head.len_append h0, hlen]
  · rw [h.bodyLen, if_neg hval, hnum]
  · rw [h.leftBodyLen, if_neg hval, hnum]

/-- A request with the header `head`, which announces a body, has one, and it is not chunked. -/
theorem hasBody_of_head {head tl : Bytes} {n : Nat} (hr : r.received = head ++ tl) (h0 : 0 ≤ Head.len head)
    (hlen : Head.len head = head.length) (hl : Head.value head (bytes "content-length") ≠ []) (hn : Head.contentLength head = n)
    (hpos : 0 < n) (hc : r.isChunked = false) :
    q.hasBody = true ∧ q.isChunked = false ∧ ∀ key, q.getHeaderValue key = Head.value head key := by
  obtain ⟨-, hbody, -, -⟩ := h.sizes_of_head hr h0 hlen hl hn
  refine ⟨?_, ?_, fun key => ?_⟩
  · unfold Request.hasBody
    exact decide_eq_true (.inl (by omega))
  · rw [h.isChunked, hc, hr, Head.value_append h0]
    simp [hl]
  · rw [h.getHeaderValue, hr, Head.value_append h0]

/-- The body of a request of which all bytes have been received. -/
theorem body_eq {head body : Bytes} (hr : r.received = head ++ body) (hs : r.curSize ≤ r.buf.length)
    (hlen : q.headerLen = head.length) (hbody : q.bodyLen = body.length) : q.body = body := by
  have hcur : q.curSize = head.length + body.length := by
    rw [h.curSize, ← List.length_append, ← hr, Request.received, List.length_take, Nat.min_eq_left hs]
  have hle : q.headerLen + q.bodyLen ≤ q.curSize := by omega
  have hsz : q.curSize ≤ q.buf.length := by
    rw [h.curSize, h.buf]
    exact hs
  rw [(body_of_le (by omega) hle hsz).1, h.received, hr, hlen, hbody, Int.toNat_natCast, slice, List.drop_left,
    Nat.add_sub_cancel_left, List.take_length]

/-- The header that was parsed is not empty. -/
theorem headerLen_pos : 0 < q.headerLen := by
  rw [h.headerLen]
  exact (Head.len_bounded r.received).2.2 h.complete.len

/-- The header that was parsed lies within the bytes received. -/
theorem headerLen_le : q.headerLen ≤ q.curSize := by
  have h1 := (Head.len_bounded r.received).2.1
  have h2 : r.received.length ≤ r.curSize := by simp [Request.received]
  rw [h.headerLen, h.curSize]
  omega

end Parsed

end Request

end Netcore
