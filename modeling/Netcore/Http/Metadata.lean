import Mathlib.Data.List.TakeWhile
import Netcore.Http.Header
import Netcore.Http.QueryParams

/-!
# The metadata of a request and its buffer

After a parse the method, the URL and the headers are tokens in `buf_`, and the queries a copy. Before the buffer is resized, and
when `cur_size_` goes back to 0, `copy_method_url_headers` copies them, and from then on the lookups read the copies. A call of
`expand_size` or `fit_size` that finds room enough copies nothing.

So the lookups give the same values after any calls, and what is in the buffer no longer matters once a call has copied
(`metadata_stable`); until then it matters that the bytes of the header stay.
-/

namespace Netcore

open Slices

namespace Request

/-- The calls that change the buffer or its size. -/
inductive BufferOp where
  | resize (size : Nat)
  | expandSize
  | fitSize
  | setCurrentSizeZero
  deriving DecidableEq, Repr

/-- What a call does. -/
def BufferOp.run (r : Request) : BufferOp → Request
  | .resize size => r.resize size
  | .expandSize => r.expandSize
  | .fitSize => r.fitSize
  | .setCurrentSizeZero => r.setCurrentSize 0

/-- Calls one after the other. -/
def runOps (r : Request) (ops : List BufferOp) : Request := ops.foldl BufferOp.run r

/-- The buffer has to grow to hold `total` bytes, and may. -/
def Grows (r : Request) (total : Nat) : Prop := r.buf.length ≠ maxSize ∧ (r.buf.length < total ∨ maxSize ≤ total)

/-- The call makes copies of what is in the buffer. -/
def BufferOp.Copies (r : Request) : BufferOp → Prop
  | .resize _ => True
  | .expandSize => r.Grows r.totalLen
  | .fitSize => r.Grows r.leftBodyLen
  | .setCurrentSizeZero => True

/-- One of the calls makes copies. -/
def Copies (r : Request) : List BufferOp → Prop
  | [] => False
  | op :: ops => op.Copies r ∨ (op.run r).Copies ops

/-- The lookups in `r` give what they give in `q`; a key is a C string, and `filename` is the name of a pseudo-header. -/
structure SameMetadata (q r : Request) : Prop where
  method : r.getMethod = q.getMethod
  url : r.getUrl = q.getUrl
  queries : r.queries = q.queries
  queryValue : ∀ params key, r.getQueryValue params key = q.getQueryValue params key
  headerValue : ∀ key, 0 ∉ key → iequal key (bytes "filename") = false → r.getHeaderValue key = q.getHeaderValue key

/-! ## What a parse leaves -/

/-- The tokens lie in the header, and there are no copies. -/
structure Tokenized (q : Request) : Prop where
  method : q.method.off + q.method.len ≤ q.headerLen.toNat
  url : q.url.off + q.url.len ≤ q.headerLen.toNat
  headers : ∀ h ∈ q.headers, h.Within q.headerLen.toNat
  copyHeaders : q.copyHeaders = []

/-- The tokens after a parse, however it ends. -/
theorem parseHeader_tokens (r : Request) (check : Option (Request → Bool)) :
    (r.parseHeader check).1.headers = (phrParseRequest r.received).headers ∧
    (r.parseHeader check).1.method = (phrParseRequest r.received).method ∧
    (r.parseHeader check).1.headerLen = (phrParseRequest r.received).ret ∧
    (r.parseHeader check).1.copyHeaders = [] ∧
    (r.parseHeader check).1.url.off = (phrParseRequest r.received).path.off ∧
    (r.parseHeader check).1.url.len ≤ (phrParseRequest r.received).path.len := by
  obtain ⟨cookie, hcookie⟩ := readCookie_eq r.parseTokens.checkGzip.readBodyLen
  have hfields : ∃ c m l b, r.parseFields = { r.parseTokens with
      hasGzip := c, cookieStr := m, leftBodyLen := l, bodyLen := b, isChunked := r.parseFields.isChunked } := by
    rw [parseFields, hcookie, readBodyLen_eq]
    exact ⟨_, _, _, _, rfl⟩
  obtain ⟨c, m, l, b, hf⟩ := hfields
  unfold parseHeader
  dsimp only
  rw [← parseFields]
  split_ifs
  · exact ⟨rfl, rfl, rfl, rfl, rfl, le_refl _⟩
  · exact ⟨rfl, rfl, rfl, rfl, rfl, le_refl _⟩
  · exact ⟨rfl, rfl, rfl, rfl, rfl, le_refl _⟩
  · split
    · rename_i q hq
      obtain ⟨-, queries, rfl⟩ := readUrl_eq hq
      rw [hf]
      refine ⟨rfl, rfl, rfl, rfl, ?_, ?_⟩
      · dsimp only
        split <;> rfl
      · dsimp only
        split
        · rename_i pos hpos
          have hlt := (List.idxOf?_eq_some_iff.mp hpos).1
          have hle : (r.parseTokens.url.read r.parseTokens.buf).length ≤ r.parseTokens.url.len := by
            simp [Slice.read, slice]
          exact hlt.le.trans hle
        · exact le_refl _
    · rw [hf]
      exact ⟨rfl, rfl, rfl, rfl, rfl, le_refl _⟩

theorem tokenized_parseHeader {r : Request} {check : Option (Request → Bool)} (h : 0 ≤ (r.parseHeader check).1.headerLen) :
    (r.parseHeader check).1.Tokenized := by
  obtain ⟨h1, h2, h3, h4, h5, h6⟩ := r.parseHeader_tokens check
  rw [h3] at h
  obtain ⟨-, hw⟩ := (phrParseRequest_bounded r.received).2.2 h
  refine ⟨?_, ?_, ?_, h4⟩
  · rw [h2, h3]
    exact hw.method
  · rw [h3, h5]
    have := hw.path
    omega
  · rw [h1, h3]
    exact hw.headers

/-! ## Tokens and copies -/

/-- The metadata of `q` are tokens in the buffer of `r`, which has the bytes of the header. -/
structure InBuffer (q r : Request) : Prop where
  method : r.method = q.method
  url : r.url = q.url
  headers : r.headers = q.headers
  copyHeaders : r.copyHeaders = []
  headerLen : r.headerLen = q.headerLen
  queries : r.queries = q.queries
  formUrlMap : r.formUrlMap = q.formUrlMap
  buf : r.buf.take q.headerLen.toNat = q.buf.take q.headerLen.toNat

/-- The metadata of `q` have been copied; before the headers there may be the pseudo-header. -/
structure Copied (q r : Request) : Prop where
  method : r.method.len = 0
  methodStr : r.methodStr = q.getMethod
  urlStr : r.urlStr = q.getUrl
  headers : r.headers = q.headers
  queries : r.queries = q.queries
  formUrlMap : r.formUrlMap = q.formUrlMap
  copyHeaders : ∃ pseudo : List (Bytes × Bytes), (∀ e ∈ pseudo, e.1 = bytes "filename") ∧
    r.copyHeaders = pseudo ++ q.headers.map fun h => (h.name.read q.buf, h.value.read q.buf)

theorem Tokenized.inBuffer {q : Request} (hq : q.Tokenized) : q.InBuffer q :=
  ⟨rfl, rfl, rfl, hq.copyHeaders, rfl, rfl, rfl, rfl⟩

/-- The URL and the parameters make up what a lookup of a parameter depends on. -/
theorem getQueryValue_congr {q r : Request} (hu : r.getUrl = q.getUrl) (hq : r.queries = q.queries)
    (hf : r.formUrlMap = q.formUrlMap) (params : List (Bytes × Bytes)) (key : Bytes) :
    r.getQueryValue params key = q.getQueryValue params key := by
  have hkey : r.mapKey key = q.mapKey key := by rw [mapKey, mapKey, hu]
  rw [getQueryValue, getQueryValue, hq, hf, hkey]

namespace InBuffer

variable {q r : Request} (h : q.InBuffer r)
include h

/-- The buffer may change after the header. -/
theorem overwrite {data : Bytes} (hd : data.take q.headerLen.toNat = q.buf.take q.headerLen.toNat) :
    q.InBuffer { r with buf := data } :=
  ⟨h.method, h.url, h.headers, h.copyHeaders, h.headerLen, h.queries, h.formUrlMap, hd⟩

theorem read {s : Slice} (hs : s.off + s.len ≤ q.headerLen.toNat) : s.read r.buf = s.read q.buf := by
  rw [← Slice.read_take hs r.buf, h.buf, Slice.read_take hs]

theorem getMethod (hq : q.Tokenized) (hm : q.method.len ≠ 0) : r.getMethod = q.getMethod := by
  rw [Request.getMethod, Request.getMethod, h.method, if_pos hm, if_pos hm, h.read hq.method]

theorem getUrl (hq : q.Tokenized) (hm : q.method.len ≠ 0) : r.getUrl = q.getUrl := by
  rw [Request.getUrl, Request.getUrl, h.method, h.url, if_pos hm, if_pos hm, h.read hq.url]

/-- The tokens of the headers are read from the bytes of the header. -/
theorem map_headers {ν : Type} (hq : q.Tokenized) (f : Bytes → Bytes → ν) :
    r.headers.map (fun x => f (x.name.read r.buf) (x.value.read r.buf)) =
      q.headers.map fun x => f (x.name.read q.buf) (x.value.read q.buf) := by
  rw [h.headers]
  refine List.map_congr_left fun x hx => ?_
  rw [h.read (hq.headers x hx).1, h.read (hq.headers x hx).2]

end InBuffer

/-- A header value that is read from the buffer is the one that a copy of the headers has. -/
theorem getHeaderValue_eq_find {q : Request} (hc : q.copyHeaders = []) (key : Bytes) : q.getHeaderValue key =
    (((q.headers.map fun h => (h.name.read q.buf, h.value.read q.buf)).find? fun e => iequal e.1 key).map Prod.snd).getD [] := by
  rw [getHeaderValue, if_pos hc, List.find?_map]
  simp only [Function.comp_def]
  cases q.headers.find? (fun h => iequal (h.name.read q.buf) key) <;> rfl

theorem InBuffer.same {q r : Request} (h : q.InBuffer r) (hq : q.Tokenized) (hm : q.method.len ≠ 0) : q.SameMetadata r := by
  have hurl := h.getUrl hq hm
  refine ⟨h.getMethod hq hm, hurl, h.queries, getQueryValue_congr hurl h.queries h.formUrlMap, fun key _ _ => ?_⟩
  rw [getHeaderValue_eq_find h.copyHeaders, getHeaderValue_eq_find hq.copyHeaders, h.map_headers hq Prod.mk]

/-- The pseudo-header stands in the way of no other name. -/
theorem find_pseudo {pseudo : List (Bytes × Bytes)} (hp : ∀ e ∈ pseudo, e.1 = bytes "filename") {key : Bytes}
    (hk : iequal key (bytes "filename") = false) : pseudo.find? (fun e => iequal e.1 key) = none := by
  refine List.find?_eq_none.mpr fun e he heq => ?_
  rw [hp e he] at heq
  have hsym : iequal key (bytes "filename") = true := decide_eq_true (of_decide_eq_true heq).symm
  rw [hk] at hsym
  cases hsym

namespace Copied

variable {q r : Request} (h : q.Copied r)
include h

/-- What is in the buffer does not matter any more. -/
theorem overwrite (data : Bytes) : q.Copied { r with buf := data } :=
  ⟨h.method, h.methodStr, h.urlStr, h.headers, h.queries, h.formUrlMap, h.copyHeaders⟩

theorem copyMethodUrlHeaders_eq : r.copyMethodUrlHeaders = r := by
  rw [copyMethodUrlHeaders, if_pos h.method]

theorem same (hq : q.copyHeaders = []) : q.SameMetadata r := by
  have hmethod : r.getMethod = q.getMethod := by
    rw [Request.getMethod, if_neg (not_not.mpr h.method), h.methodStr]
  have hurl : r.getUrl = q.getUrl := by
    rw [Request.getUrl, if_neg (not_not.mpr h.method), h.urlStr]
  refine ⟨hmethod, hurl, h.queries, getQueryValue_congr hurl h.queries h.formUrlMap, fun key hnul hk => ?_⟩
  have hkey : key.takeWhile (· ≠ 0) = key := by
    refine List.takeWhile_eq_self_iff.mpr fun c hc => decide_eq_true ?_
    rintro rfl
    exact hnul hc
  obtain ⟨pseudo, hp, hcopies⟩ := h.copyHeaders
  rw [getHeaderValue_eq_find hq, getHeaderValue, hkey]
  split
  · rename_i hnil
    rw [hcopies] at hnil
    obtain ⟨-, hheaders⟩ := List.append_eq_nil_iff.mp hnil
    rw [h.headers, List.map_eq_nil_iff.mp hheaders]
    rfl
  · rw [hcopies, List.find?_append, find_pseudo hp hk, Option.none_or]
    split
    · rename_i e he
      rw [he]
      rfl
    · rename_i he
      rw [he]
      rfl

/-- Calls after the copy copy nothing. -/
theorem run (op : BufferOp) : q.Copied (op.run r) := by
  have hcopy := h.copyMethodUrlHeaders_eq
  have hresize : ∀ size, q.Copied (r.resize size) := by
    intro size
    rw [resize, hcopy]
    exact h.overwrite _
  have hgrow : ∀ total, q.Copied (r.growTo total) := by
    intro total
    unfold growTo
    split_ifs
    · exact h
    · exact hresize total
    · exact h
    · exact hresize maxSize
  cases op with
  | resize size => exact hresize size
  | expandSize => exact hgrow r.totalLen
  | fitSize => exact hgrow r.leftBodyLen
  | setCurrentSizeZero =>
    have hset : r.setCurrentSize 0 = { r with curSize := 0 } := by
      rw [setCurrentSize, if_pos rfl, copyMethodUrlHeaders, if_pos h.method]
    rw [BufferOp.run, hset]
    exact ⟨h.method, h.methodStr, h.urlStr, h.headers, h.queries, h.formUrlMap, h.copyHeaders⟩

theorem runOps (ops : List BufferOp) : q.Copied (r.runOps ops) := by
  induction ops generalizing r with
  | nil => exact h
  | cons op ops ih => exact ih (h.run op)

end Copied

/-- The copy. -/
theorem InBuffer.copy {q r : Request} (h : q.InBuffer r) (hq : q.Tokenized) (hm : q.method.len ≠ 0) (h0 : 0 ≤ q.headerLen) :
    q.Copied r.copyMethodUrlHeaders := by
  have hmethod := h.getMethod hq hm
  have hurl := h.getUrl hq hm
  have hmap := h.map_headers hq Prod.mk
  rw [Request.getMethod, h.method, if_pos hm] at hmethod
  rw [Request.getUrl, h.method, if_pos hm] at hurl
  unfold copyMethodUrlHeaders
  rw [if_neg (by rw [h.method]; exact hm)]
  dsimp only
  rw [if_neg (by rw [h.headerLen]; omega), h.copyHeaders, List.nil_append, hmap, h.method]
  refine ⟨rfl, hmethod, hurl, h.headers, h.queries, h.formUrlMap, _, ?_, rfl⟩
  intro e he
  split_ifs at he
  · cases he
  · rw [List.mem_singleton.mp he]

/-- A call copies, or does nothing. -/
theorem InBuffer.run {q r : Request} (h : q.InBuffer r) (hq : q.Tokenized) (hm : q.method.len ≠ 0) (h0 : 0 ≤ q.headerLen)
    (op : BufferOp) : (op.Copies r → q.Copied (op.run r)) ∧ (¬op.Copies r → op.run r = r) := by
  have hresize : ∀ size, q.Copied (r.resize size) := fun size => (h.copy hq hm h0).overwrite _
  have hgrow : ∀ total, (r.Grows total → q.Copied (r.growTo total)) ∧ (¬r.Grows total → r.growTo total = r) := by
    intro total
    unfold growTo Grows
    split_ifs with h1 h2 h3
    · exact ⟨fun hg => absurd h1 hg.1, fun _ => rfl⟩
    · exact ⟨fun _ => hresize total, fun hg => absurd ⟨h1, .inl h3⟩ hg⟩
    · exact ⟨fun hg => absurd hg.2 (by omega), fun _ => rfl⟩
    · exact ⟨fun _ => hresize maxSize, fun hg => absurd ⟨h1, .inr (Nat.not_lt.mp h2)⟩ hg⟩
  cases op with
  | resize size => exact ⟨fun _ => hresize size, fun hc => absurd trivial hc⟩
  | expandSize => exact hgrow r.totalLen
  | fitSize => exact hgrow r.leftBodyLen
  | setCurrentSizeZero =>
    refine ⟨fun _ => ?_, fun hc => absurd trivial hc⟩
    have hcur : q.InBuffer { r with curSize := 0 } :=
      ⟨h.method, h.url, h.headers, h.copyHeaders, h.headerLen, h.queries, h.formUrlMap, h.buf⟩
    rw [BufferOp.run, setCurrentSize, if_pos rfl]
    exact hcur.copy hq hm h0

/-- Calls one after the other: a copy is made, or nothing is done at all. -/
theorem InBuffer.runOps {q r : Request} (h : q.InBuffer r) (hq : q.Tokenized) (hm : q.method.len ≠ 0) (h0 : 0 ≤ q.headerLen)
    (ops : List BufferOp) : (r.Copies ops → q.Copied (r.runOps ops)) ∧ (¬r.Copies ops → r.runOps ops = r) := by
  induction ops with
  | nil => exact ⟨fun hc => hc.elim, fun _ => rfl⟩
  | cons op ops ih =>
    obtain ⟨hcopies, hstays⟩ := h.run hq hm h0 op
    have hrun : r.runOps (op :: ops) = (op.run r).runOps ops := rfl
    have hiff : r.Copies (op :: ops) ↔ op.Copies r ∨ (op.run r).Copies ops := Iff.rfl
    rw [hrun, hiff]
    by_cases hop : op.Copies r
    · exact ⟨fun _ => (hcopies hop).runOps ops, fun hc => absurd (.inl hop) hc⟩
    · rw [hstays hop]
      exact ⟨fun hc => ih.1 (hc.resolve_left hop), fun hc => ih.2 fun hops => hc (.inr hops)⟩

/-! ## The result -/

/-- After a parse that has found a header with a method, calls that change the buffer leave the metadata as they are, whatever there
are of them; and so does whatever is written over the buffer afterwards, once one of the calls has copied, or as long as the bytes of
the header stay. -/
theorem metadata_stable (r : Request) (check : Option (Request → Bool)) (h0 : 0 ≤ (r.parseHeader check).1.headerLen)
    (hm : (r.parseHeader check).1.method.len ≠ 0) (ops : List BufferOp) :
    (r.parseHeader check).1.SameMetadata ((r.parseHeader check).1.runOps ops) ∧
    ∀ data : Bytes, (r.parseHeader check).1.Copies ops ∨ data.take (r.parseHeader check).1.headerLen.toNat =
        (r.parseHeader check).1.buf.take (r.parseHeader check).1.headerLen.toNat →
      (r.parseHeader check).1.SameMetadata { (r.parseHeader check).1.runOps ops with buf := data } := by
  have hq := tokenized_parseHeader h0
  generalize (r.parseHeader check).1 = q at h0 hm hq
  obtain ⟨hcopies, hstays⟩ := hq.inBuffer.runOps hq hm h0 ops
  by_cases hops : q.Copies ops
  · have hcopied := hcopies hops
    exact ⟨hcopied.same hq.copyHeaders, fun data _ => (hcopied.overwrite data).same hq.copyHeaders⟩
  · rw [hstays hops]
    refine ⟨hq.inBuffer.same hq hm, fun data hdata => ?_⟩
    exact (hq.inBuffer.overwrite (hdata.resolve_left hops)).same hq hm

/-- A request with a query and headers. -/
def searchRequest : Request :=
  { buf := bytes "GET /find?q=a%20b&n=2 HTTP/1.1\r\nHost: localhost\r\nCookie: CSESSIONID=17\r\n\r\n", curSize := 74 }

/-- Its metadata stay when the buffer becomes larger, is given up and is written over. -/
theorem metadata_stable_search :
    (searchRequest.parseHeader none).1.SameMetadata
        ((searchRequest.parseHeader none).1.runOps [.resize 2048, .expandSize, .setCurrentSizeZero]) ∧
      (searchRequest.parseHeader none).1.SameMetadata
        { (searchRequest.parseHeader none).1.runOps [.resize 2048, .expandSize, .setCurrentSizeZero] with buf := List.replicate 2048 0 } := by
  obtain ⟨hsame, hover⟩ := metadata_stable searchRequest none (by decide +kernel) (by decide +kernel)
    [.resize 2048, .expandSize, .setCurrentSizeZero]
  exact ⟨hsame, hover _ (.inl (.inl trivial))⟩

/-- A request without headers in a buffer that it fills. -/
def rootRequest : Request := { buf := bytes "GET / HTTP/1.1\r\n\r\n", curSize := 18 }

/-- `expand_size` finds room enough for the request and copies nothing: a buffer that is written over has another method. -/
theorem not_metadata_stable : ¬∀ (r : Request) (check : Option (Request → Bool)), 0 ≤ (r.parseHeader check).1.headerLen →
    (r.parseHeader check).1.method.len ≠ 0 → ∀ (ops : List BufferOp) (data : Bytes),
      (r.parseHeader check).1.SameMetadata { (r.parseHeader check).1.runOps ops with buf := data } := by
  intro h
  have hsame := h rootRequest none (by decide +kernel) (by decide +kernel) [.expandSize] (List.replicate 18 0)
  exact absurd hsame.method (by decide +kernel)

end Request

end Netcore
