import Netcore.Server.Answers
import Netcore.Server.BodyBounds

/-!
# The counter of the body bytes that are left

`set_body_len` sets `left_body_len_` to the length of the body, and three handlers take from it what they believe to have
arrived. Two of them take something else. A form of the type `application/x-www-form-urlencoded` of which a part is missing
takes `last_transfer_ - header_len_`, which is never set and wraps around; a multipart form takes all that follows its header in
the first read, whether it belongs to the body or not, and whether the parser was given it and has accepted it or not.
`Server.counted_iff` says that nothing else goes wrong in a run.
-/

namespace Netcore

open Slices

/-- The sizes and the type of the body are the same. -/
structure Request.SameBody (r r' : Request) : Prop where
  bodyLen : r'.bodyLen = r.bodyLen
  leftBodyLen : r'.leftBodyLen = r.leftBodyLen
  httpType : r'.httpType = r.httpType

/-- What the application does to a request leaves the sizes and the type of its body alone. -/
structure Env.KeepsBody (env : Env) : Prop where
  handler : ∀ id (req : Request) res, req.SameBody (env.handler id req res).1
  event : ∀ s, ∀ f ∈ env.event s, ∀ (req : Request) res, req.SameBody (f req res).1

/-- The counter is right when `fed` bytes of the body have been given to the multipart parser. -/
structure Request.Counted (fed : Nat) (r : Request) : Prop where
  le : r.leftBodyLen ≤ r.bodyLen
  multipart : r.httpType = .multipart → r.leftBodyLen + fed = r.bodyLen

instance decCounted (fed : Nat) (r : Request) : Decidable (r.Counted fed) :=
  decidable_of_iff (r.leftBodyLen ≤ r.bodyLen ∧ (r.httpType = .multipart → r.leftBodyLen + fed = r.bodyLen))
    ⟨fun h => ⟨h.1, h.2⟩, fun h => ⟨h.1, h.2⟩⟩

/-- The counter is right where what is left and what was fed make up the body. -/
theorem Request.counted_of_eq {r : Request} {fed : Nat} (h : r.leftBodyLen + fed = r.bodyLen) : r.Counted fed :=
  ⟨by omega, fun _ => h⟩

namespace Connection

variable {env : Env} {c c' c'' : Connection}

/-! ## What is given to the parser -/

/-- The connection when `get_content_type` has found the type of the body. -/
def typed (env : Env) (c : Connection) : Connection :=
  { (getContentType env c).1 with req := { (getContentType env c).1.req with httpType := (getContentType env c).2 } }

/-- The connection on which `process` comes to handle a body of the type it has found, if it does. -/
def withBody (env : Env) (c : Connection) : Option Connection :=
  let p := c.req.parseHeader env.checkHeaders
  if c.req.atCapacity = false ∧ c.continueWork = none ∧ p.2 ≠ -1 ∧ p.2 ≠ -2 ∧
      (env.router.route p.1.getMethod p.1.getUrl).isSome ∧ p.1.hasBody then
    some (typed env ({ c with req := p.1 }.log (.peek true)).checkKeepAlive)
  else none

/-- The verdict of `upload_check_`. -/
def uploadAllowed (env : Env) (c : Connection) : Bool :=
  (env.uploadCheck.map fun check => (check c.req c.res).1).getD true

/-- The bytes that `parse_multipart` gives to the parser. -/
def partBytes (c : Connection) (size length : Nat) : Bytes :=
  if length = 0 then [] else (c.req.setPartData (slice c.req.buf size (size + length))).getPartData

/-- How many bytes have been received after the header. -/
def pastHeader (c : Connection) : Nat := sizeT (c.req.curSize - c.req.headerLen)

/-- The bytes of the first read that are given to the parser. -/
def firstBytes (c : Connection) : Bytes := c.partBytes c.req.headerLen.toNat c.pastHeader

/-- How many bytes of a body are given to the parser in the call that finds its type: only `handle_multipart` gives it any. -/
def bodyFed (env : Env) (b : Connection) : Nat :=
  if b.req.httpType = .multipart ∧ uploadAllowed env b = true then b.firstBytes.length else 0

/-- How many bytes a call of `process` gives to the parser. `do_read_multipart` parses `last_transfer_` bytes, which are none. -/
def fedBy (env : Env) (c : Connection) : Nat :=
  match withBody env c with
  | some b => bodyFed env b
  | none => 0

/-- The parser takes the bytes without an error. -/
def accepts (c : Connection) (data : Bytes) : Bool :=
  match feedMultipart (data.length + 1) c.reader data with
  | .returned r _ _ => !r.hasError
  | _ => false

/-- The first bytes of a multipart form are counted wrong: they are `gzip`, or the parser refuses them, or they are more than
the body. -/
def firstPartsMiscount (c : Connection) : Bool :=
  decide (0 < c.pastHeader) && (c.req.hasGzip || !c.accepts c.firstBytes || decide (c.req.bodyLen < c.pastHeader))

/-- A body that is counted wrong: a form of which a part is missing, or a multipart form with such first bytes. -/
def bodyMiscount (env : Env) (b : Connection) : Bool :=
  match b.req.httpType with
  | .urlencoded => !b.req.atCapacity && !b.req.hasRecievedAll
  | .multipart => uploadAllowed env b && b.firstPartsMiscount
  | _ => false

/-- A call of `process` that comes to a body that is counted wrong. -/
def miscounts (env : Env) (c : Connection) : Bool :=
  match withBody env c with
  | some b => bodyMiscount env b
  | none => false

/-! ## What leaves the counter alone -/

/-- The sizes and the type of the body are the same, and so is the parser. -/
structure Keeps (c c' : Connection) : Prop where
  bodyLen : c'.req.bodyLen = c.req.bodyLen
  leftBodyLen : c'.req.leftBodyLen = c.req.leftBodyLen
  httpType : c'.req.httpType = c.req.httpType
  reader : c'.reader = c.reader

theorem Keeps.of_sameBody (h : c.req.SameBody c'.req) (hr : c'.reader = c.reader) : Keeps c c' :=
  ⟨h.bodyLen, h.leftBodyLen, h.httpType, hr⟩

theorem Keeps.trans (h1 : Keeps c c') (h2 : Keeps c' c'') : Keeps c c'' :=
  ⟨h2.bodyLen.trans h1.bodyLen, h2.leftBodyLen.trans h1.leftBodyLen, h2.httpType.trans h1.httpType, h2.reader.trans h1.reader⟩

/-- A record in the trace leaves the body and the parser. -/
theorem log_keeps (c : Connection) (a : Act) : Keeps c (c.log a) := ⟨rfl, rfl, rfl, rfl⟩

/-- To close the connection leaves the body and the parser. -/
theorem close_keeps (c : Connection) : Keeps c c.close := by
  unfold close
  split
  · exact ⟨rfl, rfl, rfl, rfl⟩
  · have hsame := closeUploadFile_same c.req.reset
    exact ⟨hsame.bodyLen, hsame.leftBodyLen, hsame.httpType, rfl⟩

/-- A download is about the response: the body of the request stays. -/
theorem processDownload_keeps (env : Env) (c : Connection) (path : Bytes) : Keeps c (processDownload env c path) := by
  unfold processDownload
  cases c.req.state with
  | dataBegin =>
    dsimp only
    cases env.files (cString path) with
    | none => exact ⟨rfl, rfl, rfl, rfl⟩
    | some content =>
      dsimp only
      split <;> exact ⟨rfl, rfl, rfl, rfl⟩
  | dataContinue =>
    dsimp only
    cases c.fileTag <;> exact ⟨rfl, rfl, rfl, rfl⟩
  | dataEnd | dataAllEnd | dataClose | dataError => exact ⟨rfl, rfl, rfl, rfl⟩

/-- The default handler leaves the body and the parser. -/
theorem staticHandler_keeps (env : Env) (c : Connection) : Keeps c (staticHandler env c) := by
  unfold staticHandler
  cases env.downloadCheck with
  | none => exact processDownload_keeps env c _
  | some check =>
    dsimp only
    split
    · obtain ⟨h1, h2, h3, h4⟩ := processDownload_keeps env { c with res := (check c.req c.res).2 } (staticPath c.req)
      exact ⟨h1, h2, h3, h4⟩
    · exact ⟨rfl, rfl, rfl, rfl⟩

/-- So does the answer to a request without a route. -/
theorem answerNotFound_keeps (env : Env) (c : Connection) : Keeps c (answerNotFound env c) := by
  unfold answerNotFound
  cases env.notFound <;> exact ⟨rfl, rfl, rfl, rfl⟩

/-- The application is asked to keep the body, and running its handler is all that `call_back` does. -/
theorem callBack_keeps (henv : env.KeepsBody) (c : Connection) : Keeps c (callBack env c) := by
  unfold callBack
  cases env.router.route c.req.getMethod c.req.getUrl with
  | none => exact (log_keeps c .notFound).trans (answerNotFound_keeps env _)
  | some t =>
    cases t with
    | staticRes => exact (log_keeps c (.handler .staticRes c.req)).trans (staticHandler_keeps env _)
    | user id => exact Keeps.of_sameBody (henv.handler id c.req c.res) rfl

/-- A callback of an event keeps the body too. -/
theorem callEvent_keeps (henv : env.KeepsBody) (c : Connection) (s : DataProcState) : Keeps c (callEvent env c s) := by
  unfold callEvent
  cases he : env.event s with
  | none => exact ⟨rfl, rfl, rfl, rfl⟩
  | some f => exact Keeps.of_sameBody (henv.event s f he c.req c.res) rfl

/-- Bytes are moved in the buffer, and the counter stays. -/
theorem setCurrentSize_keeps (c : Connection) : Keeps c { c with req := c.req.setCurrentSize 0 } := by
  exact ⟨Request.setCurrentSize_zero_bodyLen _, Request.setCurrentSize_zero_leftBodyLen _,
    Request.setCurrentSize_zero_httpType _, rfl⟩

/-- The handshake leaves the counter: a WebSocket has no body. -/
theorem responseHandshake_keeps (henv : env.KeepsBody) (c : Connection) : Keeps c (responseHandshake env c) := by
  let c₁ : Connection := { c with res := c.res.buildResponseStr }.log (.write c.res.buildResponseStr.repStr)
  let c₂ : Connection := { c₁ with req := { c₁.req with state := .dataBegin } }
  have h1 : Keeps c c₂ := ⟨rfl, rfl, rfl, rfl⟩
  have h2 := h1.trans (callBack_keeps henv c₂)
  have h3 := h2.trans (callEvent_keeps henv _ (callBack env c₂).req.state)
  have h4 := h3.trans (setCurrentSize_keeps _)
  exact ⟨h4.bodyLen, h4.leftBodyLen, h4.httpType, h4.reader⟩

/-- A frame is handled without the counter. -/
theorem handleWsFrame_keeps (henv : env.KeepsBody) (c : Connection) (type : WsFrameType) (payload : Bytes) :
    Keeps c (handleWsFrame env c type payload).1 := by
  have hlog := log_keeps c (.frame type payload)
  unfold handleWsFrame
  cases type with
  | errorFrame => exact (hlog.trans (callEvent_keeps henv _ .dataError)).trans (close_keeps _)
  | textFrame | binaryFrame =>
    refine hlog.trans (Keeps.trans ?_ (callEvent_keeps henv _ .dataContinue))
    exact ⟨rfl, rfl, rfl, rfl⟩
  | closeFrame =>
    dsimp only
    split
    · exact ⟨rfl, rfl, rfl, rfl⟩
    · generalize closeMessage env payload _ = message
      have he := callEvent_keeps henv
        { c.log (.frame .closeFrame payload) with req := c.req.setPartData message } .dataClose
      exact ⟨he.bodyLen, he.leftBodyLen, he.httpType, he.reader⟩
  | pingFrame => exact ⟨rfl, rfl, rfl, rfl⟩
  | pongFrame | openingFrame | incompleteFrame | incompleteTextFrame | incompleteBinaryFrame => exact ⟨rfl, rfl, rfl, rfl⟩

/-- A fragment is kept without the counter. -/
theorem keepFragment_keeps (c : Connection) (type : WsFrameType) (payload : Bytes) : Keeps c (keepFragment c type payload) := by
  unfold keepFragment
  split <;> exact ⟨rfl, rfl, rfl, rfl⟩

/-- Frames, however many, do not change the counter. -/
theorem wsLoop_keeps (henv : env.KeepsBody) (data : Bytes) (stop : Nat) : ∀ (fuel : Nat) (c : Connection) (start : Nat),
    Keeps c (wsLoop env data stop fuel c start).1 := by
  intro fuel
  induction fuel with
  | zero => exact fun c _ => ⟨rfl, rfl, rfl, rfl⟩
  | succ fuel ih =>
    intro c start
    rcases hp : c.ws.parseHeader (data.drop start) (stop - start) with ⟨ws, ret⟩
    have hret := c.ws.parseHeader_ret (data.drop start) (stop - start)
    rw [hp] at hret
    rcases hret with rfl | ⟨len, rfl⟩
    · rw [wsLoop_header_incomplete hp]
      exact ⟨rfl, rfl, rfl, rfl⟩
    rcases hq : ws.parsePayload (data.drop (start + len)) (stop - (start + len)) with ⟨type, payload⟩
    by_cases ht : type = .incompleteFrame
    · subst ht
      rw [wsLoop_payload_incomplete hp hq]
      exact ⟨rfl, rfl, rfl, rfl⟩
    rw [wsLoop_frame hp hq ht]
    have hws : Keeps c { c with ws := ws } := ⟨rfl, rfl, rfl, rfl⟩
    have hk := hws.trans ((keepFragment_keeps _ type payload).trans (handleWsFrame_keeps henv _ type payload))
    revert hk
    rcases handleWsFrame env (keepFragment { c with ws := ws } type payload) type payload with ⟨c₁, _ | _ | _⟩
    · exact fun hk => hk
    · exact fun hk => hk
    · intro hk
      unfold afterFrame
      dsimp only
      split
      · exact hk.trans (ih c₁ (start + len))
      · exact hk.trans (setCurrentSize_keeps c₁)

end Connection

/-! ## The header -/

/-- `parse_header` leaves the sizes as they are, or comes to those that the header gives. -/
theorem Request.parseHeader_sizes (r : Request) (check : Option (Request → Bool)) :
    (r.parseHeader check).1.httpType = r.httpType ∧
      (((r.parseHeader check).1.bodyLen = r.bodyLen ∧ (r.parseHeader check).1.leftBodyLen = r.leftBodyLen) ∨
        (0 ≤ Head.len r.received ∧
          (r.parseHeader check).1.bodyLen =
            (if Head.value r.received (bytes "content-length") = [] then 0 else sizeT (Head.contentLength r.received)) ∧
          (r.parseHeader check).1.leftBodyLen =
            if Head.value r.received (bytes "content-length") = [] then r.leftBodyLen
            else sizeT (Head.contentLength r.received))) := by
  obtain ⟨cookie, hcookie⟩ := readCookie_eq r.parseTokens.checkGzip.readBodyLen
  have hfields : 0 ≤ Head.len r.received → r.parseFields.httpType = r.httpType ∧
      r.parseFields.bodyLen =
        (if Head.value r.received (bytes "content-length") = [] then 0 else sizeT (Head.contentLength r.received)) ∧
      r.parseFields.leftBodyLen = if Head.value r.received (bytes "content-length") = [] then r.leftBodyLen
        else sizeT (Head.contentLength r.received) := by
    intro hc
    rw [parseFields, hcookie, readBodyLen_eq]
    simp only [checkGzip_getHeaderValue, parseTokens_getHeaderValue hc]
    exact ⟨rfl, rfl, rfl⟩
  generalize (if Head.value r.received (bytes "content-length") = [] then 0 else sizeT (Head.contentLength r.received)) = b,
    (if Head.value r.received (bytes "content-length") = [] then r.leftBodyLen else sizeT (Head.contentLength r.received)) = l
    at hfields ⊢
  unfold parseHeader
  dsimp only
  split_ifs with h1 h2 h3
  · exact ⟨rfl, .inl ⟨rfl, rfl⟩⟩
  · exact ⟨rfl, .inl ⟨rfl, rfl⟩⟩
  · exact ⟨rfl, .inl ⟨rfl, rfl⟩⟩
  · have hc : 0 ≤ Head.len r.received := Int.not_lt.mp h2
    obtain ⟨htype, hb, hl⟩ := hfields hc
    split
    · rename_i q hq
      obtain ⟨-, queries, rfl⟩ := readUrl_eq hq
      exact ⟨htype, .inr ⟨hc, hb, hl⟩⟩
    · exact ⟨htype, .inr ⟨hc, hb, hl⟩⟩

/-- The counter as long as every read begins with the header again: there is no body yet, or the header in `sent` announces
one, of which a part has been taken off. -/
def Request.Waits (sent : Bytes) (r : Request) : Prop :=
  (r.leftBodyLen = 0 ∧ r.bodyLen = 0) ∨
    (0 ≤ Head.len sent ∧ Head.value sent (bytes "content-length") ≠ [] ∧ r.leftBodyLen ≤ r.bodyLen ∧ r.httpType ≠ .multipart)

namespace Request.Waits

variable {sent : Bytes} {r q : Request}

/-- While a request waits with its header, nothing has been fed to the parser. -/
theorem counted (h : r.Waits sent) : r.Counted 0 := by
  rcases h with ⟨h1, h2⟩ | ⟨-, -, hle, hne⟩
  · exact Request.counted_of_eq (by omega)
  · exact ⟨hle, fun ht => absurd ht hne⟩

/-- A request that waits goes on waiting when more bytes have come. -/
theorem append (h : r.Waits sent) (t : Bytes) : r.Waits (sent ++ t) := by
  rcases h with h | ⟨hlen, hv, hle, hne⟩
  · exact .inl h
  · refine .inr ⟨?_, ?_, hle, hne⟩
    · rw [Head.len_append hlen]
      exact hlen
    · rw [Head.value_append hlen]
      exact hv

/-- Whatever `parse_header` comes to, the counter is right after it. -/
theorem parseHeader (h : r.Waits r.received) (check : Option (Request → Bool)) : (r.parseHeader check).1.Counted 0 := by
  obtain ⟨htype, ⟨hb, hl⟩ | ⟨-, hb, hl⟩⟩ := r.parseHeader_sizes check
  · have hc := h.counted
    refine ⟨?_, fun ht => ?_⟩
    · rw [hb, hl]
      exact hc.le
    · rw [hb, hl]
      exact hc.multipart (htype ▸ ht)
  · apply Request.counted_of_eq
    rw [hb, hl]
    split_ifs with hv
    · rcases h with ⟨h1, -⟩ | ⟨-, hv', -, -⟩
      · exact h1
      · exact absurd hv hv'
    · rfl

/-- After a parse, nothing has been taken off. -/
theorem parsed (h : r.Waits r.received) (hp : r.Parsed q) : q.leftBodyLen = q.bodyLen := by
  rw [hp.leftBodyLen, hp.bodyLen]
  split_ifs with hv
  · rcases h with ⟨h1, -⟩ | ⟨-, hv', -, -⟩
    · exact h1
    · exact absurd hv hv'
  · rfl

end Request.Waits

namespace Connection

variable {env : Env} {c c' : Connection} {sent : Bytes} {fed : Nat}

/-! ## What a call comes to -/

/-- The counter between two reads, when `fed` bytes have been given to the parser. -/
structure Metered (sent : Bytes) (fed : Nat) (c : Connection) : Prop where
  waiting : c.continueWork = none → fed = 0 ∧ c.req.Waits sent
  working : c.continueWork ≠ none → c.req.leftBodyLen + fed = c.req.bodyLen

/-- Between two reads the counter is right for the bytes that were fed. -/
theorem Metered.counted (h : c.Metered sent fed) : c.req.Counted fed := by
  by_cases hw : c.continueWork = none
  · obtain ⟨rfl, hwaits⟩ := h.waiting hw
    exact hwaits.counted
  · exact Request.counted_of_eq (h.working hw)

/-- What a call leaves: the counter is right unless the call is a `bad` one. -/
structure Meters (sent : Bytes) (fed : Nat) (bad : Bool) (p : Connection × Answer) : Prop where
  counted_iff : p.1.req.Counted fed ↔ bad = false
  metered : bad = false → Server.continues p.2 = true → p.1.Metered sent fed

/-- A call that ends in `need_write` leaves the counter as its connection has it. -/
theorem meters_needWrite (h : c.req.Counted fed) : Meters sent fed false (c, .state .needWrite) :=
  ⟨iff_of_true h rfl, fun _ hc => absurd hc (by simp [Server.continues])⟩

/-- What keeps the body keeps a counter that is right. -/
theorem Keeps.counted (h : Keeps c c') (hc : c.req.Counted fed) : c'.req.Counted fed := by
  refine ⟨?_, fun ht => ?_⟩
  · rw [h.leftBodyLen, h.bodyLen]
    exact hc.le
  · rw [h.leftBodyLen, h.bodyLen]
    exact hc.multipart (h.httpType ▸ ht)

/-- A counter is right after such a step exactly if it was before. -/
theorem Keeps.counted_iff (h : Keeps c c') : c'.req.Counted fed ↔ c.req.Counted fed :=
  ⟨fun hc => Keeps.counted ⟨h.bodyLen.symm, h.leftBodyLen.symm, h.httpType.symm, h.reader.symm⟩ hc, h.counted⟩

/-- A connection that has parsed its header: nothing has been taken off the counter. -/
structure Untaken (sent : Bytes) (c : Connection) : Prop where
  left : c.req.leftBodyLen = c.req.bodyLen
  bodyLen : c.req.bodyLen < 18446744073709551616
  headerLen_pos : 0 < c.req.headerLen
  headerLen_le : c.req.headerLen ≤ c.req.curSize
  curSize : c.req.curSize ≤ c.req.buf.length
  length : c.req.buf.length ≤ maxSize
  work : c.continueWork = none
  announced : c.req.bodyLen ≠ 0 → 0 ≤ Head.len sent ∧ Head.value sent (bytes "content-length") ≠ []

/-- With the header parsed and nothing taken off, the counter is right for no bytes. -/
theorem Untaken.counted (h : c.Untaken sent) : c.req.Counted 0 := Request.counted_of_eq h.left

/-! ## Text bodies -/

/-- A body of which a part is missing: the sizes do not wrap around, and less than the body is there. -/
theorem Untaken.part (h : c.Untaken sent) (h1 : c.req.atCapacity = false) (h2 : c.req.hasRecievedAll = false) :
    (c.req.curSize : Int) < c.req.headerLen + c.req.bodyLen ∧ c.req.headerLen + c.req.bodyLen ≤ 3145728 := by
  have hcap : ¬maxSize < sizeT (c.req.headerLen + c.req.bodyLen) := of_decide_eq_false h1
  have hall : ¬sizeT (c.req.headerLen + c.req.bodyLen) ≤ c.req.curSize := of_decide_eq_false h2
  obtain ⟨-, hb, hpos, hle, hcur, hlen, -, -⟩ := h
  unfold maxSize at *
  unfold sizeT at hcap hall
  omega

/-- A body that is no form is handled without the counter. -/
theorem handleBody_keeps (henv : env.KeepsBody) (ht : c.req.httpType ≠ .multipart) : Keeps c (handleBody env c) := by
  unfold handleBody
  rw [if_neg ht]
  split_ifs
  · exact ⟨rfl, rfl, rfl, rfl⟩
  · exact ⟨rfl, rfl, rfl, rfl⟩
  · exact callBack_keeps henv c

/-- A text body is counted right: what is taken off is what has arrived of it. -/
theorem handleStringBody_meters (henv : env.KeepsBody) (h : c.Untaken sent) (ht : c.req.httpType ≠ .multipart)
    (hb : c.req.bodyLen ≠ 0) : Meters sent 0 false (handleStringBody env c) := by
  obtain ⟨hh, hbl, hcs, -, hl⟩ := Request.growTo_sizes c.req c.req.totalLen
  have hty := Request.growTo_httpType c.req c.req.totalLen
  unfold handleStringBody
  dsimp only
  split_ifs with h1 h2 h3
  · exact meters_needWrite h.counted
  · exact meters_needWrite ((handleBody_keeps henv ht).counted h.counted)
  · refine meters_needWrite (Request.counted_of_eq ?_)
    show c.req.expandSize.leftBodyLen + 0 = c.req.expandSize.bodyLen
    rw [Request.expandSize, hl, hbl]
    exact h.left
  · obtain ⟨hlt, hmax⟩ := h.part (by simpa using h1) (by simpa using h2)
    have hle : (c.req.expandSize.reduceLeftBodySize
        (sizeT (c.req.expandSize.curSize - sizeT c.req.expandSize.headerLen))).leftBodyLen ≤ c.req.bodyLen := by
      show sizeT (c.req.expandSize.leftBodyLen - sizeT (c.req.expandSize.curSize - sizeT c.req.expandSize.headerLen)) ≤ _
      rw [Request.expandSize, hh, hcs, hl, h.left]
      obtain ⟨-, -, hpos, hle, -, -, -, -⟩ := h
      unfold sizeT
      omega
    have hle' := hle.trans hbl.ge
    refine ⟨iff_of_true ⟨hle', fun htm => absurd (hty.symm.trans htm) ht⟩ rfl, fun _ _ => ⟨fun _ => ⟨rfl, .inr ?_⟩, ?_⟩⟩
    · obtain ⟨hlen, hv⟩ := h.announced hb
      exact ⟨hlen, hv, hle', fun htm => ht (hty.symm.trans htm)⟩
    · exact fun hw => absurd h.work hw

/-- A body of an unknown type is handled without the counter. -/
theorem handleUrlUrlencodedBody_keeps (henv : env.KeepsBody) (c : Connection) : Keeps c (handleUrlUrlencodedBody env c) := by
  have hparse : Keeps c { c with req := c.req.parseFormUrlencoded.1 } := ⟨rfl, rfl, rfl, rfl⟩
  unfold handleUrlUrlencodedBody
  dsimp only
  split_ifs
  · exact hparse.trans ⟨rfl, rfl, rfl, rfl⟩
  · exact hparse.trans ⟨rfl, rfl, rfl, rfl⟩
  · exact hparse.trans (callBack_keeps henv _)

/-- A form of which a part is missing is counted wrong: the length of the header is added to the counter. -/
theorem handleFormUrlencoded_meters (henv : env.KeepsBody) (h : c.Untaken sent) :
    Meters sent 0 (!c.req.atCapacity && !c.req.hasRecievedAll) (handleFormUrlencoded env c, .state .needWrite) := by
  cases h1 : c.req.atCapacity with
  | true =>
    rw [handleFormUrlencoded, if_pos h1]
    exact meters_needWrite h.counted
  | false =>
    rw [handleFormUrlencoded, if_neg (by simp [h1])]
    cases h2 : c.req.hasRecievedAll with
    | true =>
      rw [if_pos rfl]
      exact meters_needWrite ((handleUrlUrlencodedBody_keeps henv c).counted h.counted)
    | false =>
      obtain ⟨hh, hbl, -, -, hl⟩ := Request.growTo_sizes c.req c.req.totalLen
      obtain ⟨hlt, hmax⟩ := h.part h1 h2
      rw [if_neg (by simp)]
      refine ⟨iff_of_false (fun hc => ?_) (by simp), fun hbad => absurd hbad (by simp)⟩
      have hle : sizeT (c.req.expandSize.leftBodyLen - sizeT (0 - sizeT c.req.expandSize.headerLen)) ≤
          c.req.expandSize.bodyLen := hc.le
      rw [Request.expandSize, hh, hl, hbl, h.left] at hle
      obtain ⟨-, -, hpos, -, -, -, -, -⟩ := h
      unfold sizeT at hle
      omega

/-! ## Multipart bodies -/

/-- What `parse_multipart` does to the counter: it takes off the length when the parser accepts the bytes. -/
theorem parseMultipart_counter (env : Env) (c : Connection) (size length : Nat) :
    (parseMultipart env c size length).1.req.bodyLen = c.req.bodyLen ∧
      (parseMultipart env c size length).1.req.httpType = c.req.httpType ∧
      (parseMultipart env c size length).1.req.leftBodyLen =
        if length ≠ 0 ∧ c.accepts (c.partBytes size length) = true then sizeT (c.req.leftBodyLen - length)
        else c.req.leftBodyLen := by
  by_cases h0 : length = 0
  · simp [parseMultipart, h0]
  · have hcalls := fun (r : Multipart.Reader) (calls : List Multipart.ReaderCall) => (foldl_onReaderCall env calls
      { c with req := c.req.setPartData (slice c.req.buf size (size + length)), reader := r }).2.1
    have hbytes : c.partBytes size length = (c.req.setPartData (slice c.req.buf size (size + length))).getPartData := if_neg h0
    rw [hbytes]
    unfold parseMultipart accepts
    dsimp only
    rw [if_neg h0]
    split
    · rename_i r calls ret heq
      have hs := hcalls r calls
      cases he : r.hasError with
      | true => simpa [heq, he] using ⟨hs.bodyLen, hs.httpType, hs.leftBodyLen⟩
      | false =>
        refine ⟨hs.bodyLen, hs.httpType, ?_⟩
        simp only [heq, he, h0, ne_eq, not_false_eq_true, Bool.not_false, and_self, if_true]
        rw [← show (calls.foldl (onReaderCall env) _).req.leftBodyLen = c.req.leftBodyLen from hs.leftBodyLen]
        rfl
    · rename_i r calls msg heq
      have hs := hcalls r calls
      simpa [heq] using ⟨hs.bodyLen, hs.httpType, hs.leftBodyLen⟩
    · rename_i heq
      refine ⟨rfl, rfl, ?_⟩
      rw [heq, if_neg (by simp)]
      rfl

/-- After the first part has been parsed, the counter does not change any more in the call. -/
theorem handleFirstParts_keeps (henv : env.KeepsBody) (c : Connection) :
    Keeps (parseMultipart env c c.req.headerLen.toNat c.pastHeader).1 (handleFirstParts env c).1 := by
  unfold handleFirstParts pastHeader
  split
  · rename_i c₂ msg hm
    rw [hm]
    exact ⟨rfl, rfl, rfl, rfl⟩
  · rename_i c₂ hm
    rw [hm]
    exact ⟨rfl, rfl, rfl, rfl⟩
  · rename_i c₂ hm
    rw [hm]
    split_ifs
    · exact callBack_keeps henv c₂
    · obtain ⟨k1, k2, k3, k4⟩ := setCurrentSize_keeps c₂
      exact ⟨k1, k2, k3, k4⟩

/-- If the connection goes on after the first bytes of a form, it has parts to read. -/
theorem handleFirstParts_work (env : Env) (c : Connection) (h : Server.continues (handleFirstParts env c).2 = true) :
    (handleFirstParts env c).1.continueWork ≠ none := by
  revert h
  unfold handleFirstParts
  split
  · exact fun h => absurd h (by simp [Server.continues])
  · exact fun h => absurd h (by simp [Server.continues])
  · split_ifs
    · exact fun h => absurd h (by simp [Server.continues])
    · exact fun _ h => absurd h (by simp)

/-- A parser that has just been given its boundary accepts nothing. -/
theorem accepts_nil (h : c.reader.hasError = false) : c.accepts [] = true := by
  have hfeed : c.reader.feed [] = .returned c.reader [] 0 := by
    unfold Multipart.Reader.feed Multipart.feed
    simp
  unfold accepts feedMultipart
  simp [hfeed, h]

/-- The bytes that are given to the parser are those after the header, unless they are `gzip`. -/
theorem Untaken.firstBytes_length (h : c.Untaken sent) : c.firstBytes.length = if c.req.hasGzip then 0 else c.pastHeader := by
  obtain ⟨-, -, hpos, hle, hcur, hlen, -, -⟩ := h
  have hpast : (c.pastHeader : Int) = c.req.curSize - c.req.headerLen := by
    unfold maxSize at hlen
    unfold pastHeader sizeT
    omega
  have hend : c.req.headerLen.toNat + c.pastHeader ≤ c.req.buf.length := by omega
  unfold firstBytes partBytes Request.getPartData Request.setPartData
  dsimp only
  split_ifs with h0 hg
  · rfl
  · exact h0.symm
  · rfl
  · rw [length_slice hend]
    omega

/-- The counter after the first part: right, unless the read is counted wrong. -/
theorem Untaken.firstParts_counted_iff (henv : env.KeepsBody) (h : c.Untaken sent) (ht : c.req.httpType = .multipart)
    (hr : c.reader.hasError = false) :
    (handleFirstParts env c).1.req.Counted c.firstBytes.length ↔ c.firstPartsMiscount = false := by
  obtain ⟨hbl, hty, hleft⟩ := parseMultipart_counter env c c.req.headerLen.toNat c.pastHeader
  rw [(handleFirstParts_keeps henv c).counted_iff]
  have hfed := h.firstBytes_length
  have hcounted : (parseMultipart env c c.req.headerLen.toNat c.pastHeader).1.req.Counted c.firstBytes.length ↔
      (parseMultipart env c c.req.headerLen.toNat c.pastHeader).1.req.leftBodyLen + c.firstBytes.length = c.req.bodyLen := by
    rw [← hbl]
    exact ⟨fun hc => hc.multipart (hty.trans ht), Request.counted_of_eq⟩
  rw [hcounted, hleft, h.left]
  have hlt : c.pastHeader < 18446744073709551616 := by
    unfold pastHeader sizeT
    omega
  have hb := h.bodyLen
  change _ + c.firstBytes.length = _ ↔ _
  unfold firstPartsMiscount
  rw [show c.partBytes c.req.headerLen.toNat c.pastHeader = c.firstBytes from rfl]
  by_cases h0 : c.pastHeader = 0
  · have hzero : c.firstBytes.length = 0 := by
      rw [hfed, h0]
      simp
    simp [h0, hzero]
  · cases hg : c.req.hasGzip with
    | true =>
      have hnil : c.firstBytes = [] := by
        rw [← List.length_eq_zero_iff, hfed, if_pos hg]
      simp only [hnil, accepts_nil hr, h0, ne_eq, not_false_eq_true, and_self, if_true, List.length_nil]
      refine iff_of_false ?_ (by simpa using h0)
      unfold sizeT
      omega
    | false =>
      rw [if_neg (by simp [hg])] at hfed
      cases ha : c.accepts c.firstBytes with
      | false =>
        rw [if_neg (by simp), hfed]
        exact iff_of_false (by omega) (by simpa using h0)
      | true =>
        rw [if_pos ⟨h0, rfl⟩, hfed]
        simp only [Nat.pos_of_ne_zero h0, decide_true, Bool.true_and, Bool.not_true, Bool.or_false, Bool.false_or,
          decide_eq_false_iff_not, Nat.not_lt]
        unfold sizeT
        omega

/-- The first bytes of a form are taken off the counter, and taken off rightly unless they are miscounted. -/
theorem handleFirstParts_meters (henv : env.KeepsBody) (h : c.Untaken sent) (ht : c.req.httpType = .multipart)
    (hr : c.reader.hasError = false) : Meters sent c.firstBytes.length c.firstPartsMiscount (handleFirstParts env c) := by
  have hiff := h.firstParts_counted_iff henv ht hr
  refine ⟨hiff, fun hgood hc => ⟨fun hw => absurd hw (handleFirstParts_work env c hc), fun _ => ?_⟩⟩
  have hty : (handleFirstParts env c).1.req.httpType = c.req.httpType :=
    (handleFirstParts_keeps henv c).httpType.trans (parseMultipart_counter env c _ _).2.1
  exact (hiff.mpr hgood).multipart (hty.trans ht)

/-- `handle_multipart`: without the consent of `upload_check_` nothing is parsed. -/
theorem handleMultipart_meters (henv : env.KeepsBody) (h : c.Untaken sent) (ht : c.req.httpType = .multipart)
    (hr : c.reader.hasError = false) : Meters sent (bodyFed env c) (bodyMiscount env c) (handleMultipart env c) := by
  have hbad : bodyMiscount env c = (uploadAllowed env c && c.firstPartsMiscount) := by
    simp only [bodyMiscount, ht]
  cases hup : env.uploadCheck with
  | none =>
    have hall : uploadAllowed env c = true := by simp [uploadAllowed, hup]
    rw [hbad, hall, Bool.true_and, bodyFed, if_pos ⟨ht, hall⟩, handleMultipart, hup]
    exact handleFirstParts_meters henv h ht hr
  | some check =>
    have hall : uploadAllowed env c = (check c.req c.res).1 := by simp [uploadAllowed, hup]
    rw [hbad, bodyFed, handleMultipart, hup]
    dsimp only
    by_cases hok : (check c.req c.res).1 = true
    · rw [if_pos hok, if_pos ⟨ht, hall.trans hok⟩, hall, hok, Bool.true_and]
      exact @handleFirstParts_meters env { c with res := (check c.req c.res).2 } sent henv
        ⟨h.left, h.bodyLen, h.headerLen_pos, h.headerLen_le, h.curSize, h.length, h.work, h.announced⟩ ht hr
    · have hres : Keeps c { c with res := (check c.req c.res).2 } := ⟨rfl, rfl, rfl, rfl⟩
      rw [if_neg hok, if_neg (fun hc => hok (hall.symm.trans hc.2)), hall, (Bool.not_eq_true _).mp hok, Bool.false_and]
      exact meters_needWrite ((hres.trans (close_keeps _)).counted h.counted)

/-- `do_read_multipart` parses nothing and takes nothing off. -/
theorem doReadMultipart_meters (henv : env.KeepsBody) (h : c.req.leftBodyLen + fed = c.req.bodyLen) :
    Meters sent fed false (doReadMultipart env c) := by
  obtain ⟨-, hbl, -, -, hl⟩ := Request.growTo_sizes c.req c.req.leftBodyLen
  have hfit : c.req.fitSize.leftBodyLen + fed = c.req.fitSize.bodyLen := by
    rw [Request.fitSize, hl, hbl]
    exact h
  unfold doReadMultipart parseMultipart
  simp only [if_true]
  split_ifs
  · exact meters_needWrite ((callBack_keeps henv { c with req := c.req.fitSize }).counted (Request.counted_of_eq hfit))
  · have hset : (c.req.fitSize.setCurrentSize 0).leftBodyLen + fed = (c.req.fitSize.setCurrentSize 0).bodyLen := by
      rw [Request.setCurrentSize_zero_leftBodyLen, Request.setCurrentSize_zero_bodyLen]
      exact hfit
    exact ⟨iff_of_true (Request.counted_of_eq hset) rfl, fun _ _ => ⟨fun hw => absurd hw (by simp), fun _ => hset⟩⟩

/-! ## One call of `process` -/

/-- A request without a body. -/
theorem handleHeaderRequest_meters (henv : env.KeepsBody) (h : c.req.leftBodyLen = c.req.bodyLen) :
    Meters sent 0 false (handleHeaderRequest env c) := by
  unfold handleHeaderRequest
  dsimp only
  split_ifs
  · exact meters_needWrite (Request.counted_of_eq h)
  · have hhs : ∀ c₁ : Connection, c₁.req.leftBodyLen = c₁.req.bodyLen →
        Meters sent 0 false (responseHandshake env c₁, .state .needRead) := by
      intro c₁ h₁
      have hk := responseHandshake_keeps henv c₁
      have hleft : (responseHandshake env c₁).req.leftBodyLen + 0 = (responseHandshake env c₁).req.bodyLen := by
        rw [hk.leftBodyLen, hk.bodyLen]
        exact h₁
      exact ⟨iff_of_true (Request.counted_of_eq hleft) rfl, fun _ _ => ⟨fun hw => absurd hw (by simp [responseHandshake]),
        fun _ => hleft⟩⟩
    exact hhs _ h
  · exact meters_needWrite ((callBack_keeps henv c).counted (Request.counted_of_eq h))

/-- A multipart body gets a parser that has just been given its boundary. -/
theorem getContentType_reader (env : Env) (c : Connection) (h : (getContentType env c).2 = .multipart) :
    (getContentType env c).1.reader.hasError = false := by
  revert h
  unfold getContentType
  dsimp only
  split_ifs
  · exact fun h => absurd h (by simp)
  · exact fun h => absurd h (by simp)
  · exact fun h => absurd h (by simp)
  · exact fun _ => rfl
  · exact fun h => absurd h (by simp)
  · exact fun h => absurd h (by simp)
  · exact fun h => absurd h (by simp)

/-- A request with a body. -/
theorem handleRequest_meters (henv : env.KeepsBody) (h : c.Untaken sent) (hb : c.req.hasBody = true) :
    Meters sent (bodyFed env (typed env c)) (bodyMiscount env (typed env c)) (handleRequest env c) := by
  obtain ⟨⟨reader, hc⟩, hch⟩ := getContentType_spec env c
  have hread := getContentType_reader env c
  have hne := getContentType_ne_websocket env c
  unfold handleRequest typed
  rw [if_pos hb]
  generalize getContentType env c = p at *
  obtain ⟨c₁, type⟩ := p
  obtain rfl : c₁ = { c with reader := reader } := hc
  have hu : ∀ t, Untaken sent { { c with reader := reader } with req := { c.req with httpType := t } } :=
    fun t => ⟨h.left, h.bodyLen, h.headerLen_pos, h.headerLen_le, h.curSize, h.length, h.work, h.announced⟩
  have hpos : type ≠ .chunked → c.req.bodyLen ≠ 0 := by
    intro ht
    simpa [Request.hasBody, hch ht] using hb
  cases type with
  | string => exact handleStringBody_meters henv (hu .string) (by simp) (hpos (by simp))
  | json => exact handleStringBody_meters henv (hu .json) (by simp) (hpos (by simp))
  | unknown => exact handleStringBody_meters henv (hu .unknown) (by simp) (hpos (by simp))
  | multipart => exact handleMultipart_meters henv (hu .multipart) rfl (hread rfl)
  | urlencoded => exact handleFormUrlencoded_meters henv (hu .urlencoded)
  | octetStream | chunked => exact meters_needWrite (hu _).counted
  | websocket => exact absurd rfl hne

/-- The connection on which `process` handles a request, once the header has been parsed. -/
theorem untaken_of_parsed {q : Request} (hb : c.req.Buffered sent) (hw : c.continueWork = none) (hm : c.req.Waits sent)
    (hp : c.req.Parsed q) : ({ c with req := q }.log (.peek true)).checkKeepAlive.Untaken sent := by
  have hrec : c.req.received = sent := hb.received
  have hlen : q.bodyLen = if Head.value sent (bytes "content-length") = [] then 0 else sizeT (Head.contentLength sent) := by
    rw [hp.bodyLen, hrec]
  have hreq : ({ c with req := q }.log (.peek true)).checkKeepAlive.req = q := checkKeepAlive_req _
  refine ⟨?_, ?_, ?_, ?_, ?_, ?_, ?_, ?_⟩
  · rw [hreq]
    exact Request.Waits.parsed (hrec.symm ▸ hm) hp
  · rw [hreq, hlen]
    unfold sizeT
    split_ifs <;> omega
  · rw [hreq]
    exact hp.headerLen_pos
  · rw [hreq]
    exact hp.headerLen_le
  · rw [hreq, hp.curSize, hp.buf]
    exact hb.curSize
  · rw [hreq, hp.buf]
    exact hb.length
  · rw [checkKeepAlive_continueWork]
    exact hw
  · rw [hreq, hlen]
    intro hne
    refine ⟨hrec ▸ hp.complete.len, fun hv => hne ?_⟩
    rw [if_pos hv]

/-- A header that is not complete is waited for, with the counter as it was. -/
theorem handleRead_incomplete_meters {t : Target} (hm : c.req.Waits c.req.received) (hw : c.continueWork = none)
    (hlen : Head.len c.req.received = -2) (hp : c.req.parseHeader env.checkHeaders = (c.req.parseTokens, -2))
    (hr : env.router.route c.req.parseTokens.getMethod c.req.parseTokens.getUrl = some t) :
    Meters c.req.received 0 false (handleRead env c) := by
  have hzero : c.req.leftBodyLen = 0 ∧ c.req.bodyLen = 0 := by
    rcases hm with hz | ⟨hpos, -, -, -⟩
    · exact hz
    · omega
  rw [handleRead_incomplete hp hr]
  have hreq : ({ c with req := c.req.parseTokens }.log (.peek true)).checkKeepAlive.req = c.req.parseTokens := checkKeepAlive_req _
  refine ⟨iff_of_true ?_ rfl, fun _ _ => ⟨fun _ => ⟨rfl, .inl ?_⟩, fun hne => absurd hw ?_⟩⟩
  · rw [hreq]
    exact Request.counted_of_eq (hzero.1.trans hzero.2.symm)
  · rw [hreq]
    exact hzero
  · simpa using hne

/-- `handle_read` without a body to handle. -/
theorem handleRead_bodiless_meters (henv : env.KeepsBody) (hb : c.req.Buffered sent) (hw : c.continueWork = none)
    (hm : c.req.Waits sent) {q : Request} {ret : Int} (hp : c.req.parseHeader env.checkHeaders = (q, ret))
    (hbody : ¬(ret ≠ -1 ∧ ret ≠ -2 ∧ (env.router.route q.getMethod q.getUrl).isSome ∧ q.hasBody)) :
    Meters sent 0 false (handleRead env c) := by
  have hm' : c.req.Waits c.req.received := hb.received.symm ▸ hm
  have hq : q.Counted 0 := by
    rw [show q = (c.req.parseHeader env.checkHeaders).1 by rw [hp]]
    exact hm'.parseHeader env.checkHeaders
  by_cases h1 : ret = -1
  · subst h1
    rw [handleRead_malformed hp]
    exact meters_needWrite hq
  cases hr : env.router.route q.getMethod q.getUrl with
  | none =>
    rw [handleRead_notFound hp h1 hr]
    have hk : Keeps { c with req := q } (answerNotFound env ({ c with req := q }.log (.peek false))) :=
      (log_keeps _ _).trans (answerNotFound_keeps env _)
    exact meters_needWrite (hk.counted hq)
  | some t =>
    rcases c.req.parseHeader_cases env.checkHeaders with ⟨q', hq', -, -⟩ | ⟨-, hlen, hq'⟩ | ⟨q', hq', hp'⟩
    · exact absurd (Prod.mk.inj (hp.symm.trans hq')).2 h1
    · obtain ⟨rfl, rfl⟩ := Prod.mk.inj (hp.symm.trans hq')
      rw [← hb.received]
      exact handleRead_incomplete_meters hm' hw hlen hp hr
    · obtain ⟨rfl, rfl⟩ := Prod.mk.inj (hp.symm.trans hq')
      have hpos : 0 ≤ Head.len c.req.received := hp'.complete.len
      have hnone : q.hasBody ≠ true := fun hsome => hbody ⟨h1, by omega, by rw [hr]; rfl, hsome⟩
      have hu := untaken_of_parsed hb hw hm hp'
      rw [handleRead_complete hp hpos hr, handleRequest, if_neg (by rw [checkKeepAlive_req]; exact hnone)]
      exact handleHeaderRequest_meters henv hu.left

/-- `process` on a connection that begins with the header again. -/
theorem handleRead_meters (henv : env.KeepsBody) (hb : c.req.Buffered sent) (hw : c.continueWork = none)
    (hm : c.req.Waits sent) (hcap : c.req.atCapacity = false) :
    Meters sent (fedBy env c) (miscounts env c) (handleRead env c) := by
  rcases hp : c.req.parseHeader env.checkHeaders with ⟨q, ret⟩
  by_cases hbody : ret ≠ -1 ∧ ret ≠ -2 ∧ (env.router.route q.getMethod q.getUrl).isSome ∧ q.hasBody
  · have hwith : withBody env c = some (typed env ({ c with req := q }.log (.peek true)).checkKeepAlive) := by
      unfold withBody
      rw [hp]
      exact if_pos ⟨hcap, hw, hbody⟩
    obtain ⟨h1, h2, hr, hbody⟩ := hbody
    obtain ⟨t, ht⟩ := Option.isSome_iff_exists.mp hr
    have hparsed : c.req.Parsed q ∧ 0 ≤ ret := by
      rcases c.req.parseHeader_cases env.checkHeaders with ⟨q', hq', -, -⟩ | ⟨-, -, hq'⟩ | ⟨q', hq', hp'⟩
      · exact absurd (Prod.mk.inj (hp.symm.trans hq')).2 h1
      · exact absurd (Prod.mk.inj (hp.symm.trans hq')).2 h2
      · obtain ⟨rfl, rfl⟩ := Prod.mk.inj (hp.symm.trans hq')
        exact ⟨hp', hp'.complete.len⟩
    rw [handleRead_complete hp hparsed.2 ht, fedBy, miscounts, hwith]
    refine handleRequest_meters henv (untaken_of_parsed hb hw hm hparsed.1) ?_
    rw [checkKeepAlive_req]
    exact hbody
  · have hwith : withBody env c = none := by
      unfold withBody
      rw [hp]
      exact if_neg fun h => hbody h.2.2
    rw [fedBy, miscounts, hwith]
    exact handleRead_bodiless_meters henv hb hw hm hp hbody

/-- One call of `process`: the counter is right after it exactly when the call does not count wrong, and then it is right
between this read and the next. -/
theorem process_meters (henv : env.KeepsBody) (hr : c.Reading sent) (hm : c.Metered sent fed) :
    Meters sent (fed + fedBy env c) (miscounts env c) (process env c) := by
  have hnone : ¬(c.req.atCapacity = false ∧ c.continueWork = none) → fedBy env c = 0 ∧ miscounts env c = false := by
    intro h
    have hwith : withBody env c = none := if_neg fun hc => h ⟨hc.1, hc.2.1⟩
    rw [fedBy, miscounts, hwith]
    exact ⟨rfl, rfl⟩
  cases hcap : c.req.atCapacity with
  | true =>
    obtain ⟨h1, h2⟩ := hnone (by simp [hcap])
    rw [h1, h2, process_atCapacity hcap]
    exact meters_needWrite hm.counted
  | false =>
    by_cases hw : c.continueWork = none
    · obtain ⟨rfl, hwaits⟩ := hm.waiting hw
      rw [Nat.zero_add, process_none hcap hw]
      rcases hr.next with ⟨-, hb⟩ | ⟨hw', -⟩ | hw'
      · exact handleRead_meters henv hb hw hwaits hcap
      · exact absurd (hw.symm.trans hw') (by simp)
      · exact absurd (hw.symm.trans hw') (by simp)
    · have hleft := hm.working hw
      obtain ⟨h1, h2⟩ := hnone fun h => hw h.2
      rw [h1, h2, Nat.add_zero]
      rcases hr.next with ⟨hw', -⟩ | ⟨hw', -⟩ | hw'
      · exact absurd hw' hw
      · rw [process_doReadMultipart hcap hw']
        exact doReadMultipart_meters henv hleft
      · rw [process_handleWsData hcap hw']
        have hk := wsLoop_keeps henv c.req.buf c.req.curSize (c.req.curSize + 1) c 0
        have hwork := (wsLoop_extends env c.req.buf c.req.curSize (c.req.curSize + 1) c 0).2
        have hleft' : (handleWsData env c).1.req.leftBodyLen + fed = (handleWsData env c).1.req.bodyLen := by
          rw [handleWsData, hk.leftBodyLen, hk.bodyLen]
          exact hleft
        refine ⟨iff_of_true (Request.counted_of_eq hleft') rfl, fun _ hc => ⟨fun hn => ?_, fun _ => hleft'⟩⟩
        refine absurd ((hwork ?_ ?_).symm.trans hn) hw
        · intro he
          rw [handleWsData, he] at hc
          exact absurd hc (by simp [Server.continues])
        · intro he
          rw [handleWsData, he] at hc
          exact absurd hc (by simp [Server.continues])

end Connection

/-! ## Runs -/

namespace Server

open Connection

variable {env : Env}

/-- A call of `process` in a run: the connection before and after it, its answer, and how many bytes have been given to the
parser by then. -/
structure Call where
  before : Connection
  after : Connection
  answer : Answer
  fed : Nat

/-- The calls of `process` in a run that begins when `fed` bytes have been given to the parser. -/
def calls (env : Env) (fed : Nat) (c : Connection) : List Bytes → List Call
  | [] => []
  | a :: as =>
    match step env c a with
    | .processed c' answer =>
      let now := fed + fedBy env (receiving c a)
      ⟨receiving c a, c', answer, now⟩ :: if continues answer then calls env now c' as else []
    | _ => []

/-- The calls are those of the run. -/
theorem processed_mem_serve (env : Env) (arrivals : List Bytes) : ∀ (fed : Nat) (c c' : Connection) (answer : Answer),
    .processed c' answer ∈ serve env c arrivals ↔ ∃ x ∈ calls env fed c arrivals, x.after = c' ∧ x.answer = answer := by
  induction arrivals with
  | nil => simp [serve, calls]
  | cons a as ih =>
    intro fed c c' answer
    cases hs : step env c a with
    | recvError => simp [serve, calls, hs]
    | ended => simp [serve, calls, hs]
    | processed c₁ ans₁ =>
      cases hc : continues ans₁ with
      | true =>
        rw [serve_cons_continues hs hc, calls, hs]
        simp only [hc, if_true, List.mem_cons, ih (fed + fedBy env (receiving c a)), Step.processed.injEq, exists_eq_or_imp,
          eq_comm]
      | false =>
        rw [serve_cons_ends fun c₂ ans₂ h => by rw [hs] at h; rw [← (Step.processed.inj h).2]; exact hc, calls, hs]
        simp only [hc, List.mem_singleton, Step.processed.injEq, exists_eq_left, Bool.false_eq_true, if_false, eq_comm]

/-- What one call does, all the calls of a run do. -/
theorem calls_counted_iff (henv : env.KeepsBody) (arrivals : List Bytes) : ∀ {sent : Bytes} {fed : Nat} {c : Connection},
    c.Reading sent → c.Metered sent fed →
      ((∀ x ∈ calls env fed c arrivals, x.after.req.Counted x.fed) ↔
        ∀ x ∈ calls env fed c arrivals, miscounts env x.before = false) := by
  induction arrivals with
  | nil => simp [calls]
  | cons a as ih =>
    intro sent fed c hr hm
    cases hs : step env c a with
    | recvError => simp [calls, hs]
    | ended => simp [calls, hs]
    | processed c' answer =>
      obtain ⟨-, hlt, -, -⟩ := step_processed hs
      have hr' : (receiving c a).Reading (sent ++ a) := hr.receive hlt.le
      have hm' : (receiving c a).Metered (sent ++ a) fed :=
        ⟨fun hw => ⟨(hm.waiting hw).1, (hm.waiting hw).2.append a⟩, hm.working⟩
      have hmeters := process_meters henv hr' hm'
      rw [step_eq_process hs] at hmeters
      obtain ⟨hiff, hnext⟩ := hmeters
      simp only [calls, hs, List.forall_mem_cons]
      by_cases hbad : miscounts env (receiving c a) = false
      · have hgood := hiff.mpr hbad
        cases hc : continues answer with
        | false => simp [hgood, hbad]
        | true => simp only [hgood, hbad, true_and, if_true, ih ((step_leaves hr hs).2 hc) (hnext hbad hc)]
      · exact iff_of_false (fun h => hbad (hiff.mp h.1)) fun h => hbad h.1

/-- On a fresh connection there is nothing to count. -/
theorem metered_fresh (resType : ReqContentType) : (fresh resType).Metered [] 0 :=
  ⟨fun _ => ⟨rfl, .inl ⟨rfl, rfl⟩⟩, fun h => absurd rfl h⟩

/-- **The counter of the body bytes that are left.** In a run, with handlers that leave it alone, it is right after every call
of `process` exactly when no call comes to a form of the type `application/x-www-form-urlencoded` of which a part is missing,
or to first bytes of a multipart form that are `gzip`, that the parser refuses, or that are more than the body. -/
theorem leftBodyLen_counted_iff (henv : env.KeepsBody) (resType : ReqContentType) (arrivals : List Bytes) :
    (∀ x ∈ calls env 0 (fresh resType) arrivals, x.after.req.Counted x.fed) ↔
      ∀ x ∈ calls env 0 (fresh resType) arrivals, miscounts env x.before = false :=
  calls_counted_iff henv arrivals (reading_fresh resType) (metered_fresh resType)

/-- An application that only has routes to handlers without effect leaves the body alone. -/
theorem bare_keepsBody (routes : List (Bytes × Target)) : (Env.bare routes).KeepsBody where
  handler := fun _ _ _ => ⟨rfl, rfl, rfl⟩
  event := fun _ f hf => absurd hf (by simp [Env.bare])

/-- An upload whose body comes in two reads, and a text body that does. -/
theorem leftBodyLen_counted_reads :
    (∀ x ∈ calls oneRoute 0 (fresh .none) [bytes ("POST /u HTTP/1.1\r\nContent-Type: multipart/form-data; boundary=x\r\n" ++
        "Content-Length: 90\r\n\r\n--x\r\n"), bytes "A: b"], x.after.req.Counted x.fed) ∧
      ∀ x ∈ calls oneRoute 0 (fresh .none) [bytes "POST /u HTTP/1.1\r\nContent-Length: 5\r\n\r\nab", bytes "cde"],
        x.after.req.Counted x.fed :=
  ⟨(leftBodyLen_counted_iff (bare_keepsBody _) .none _).mpr (by decide +kernel),
    (leftBodyLen_counted_iff (bare_keepsBody _) .none _).mpr (by decide +kernel)⟩

/-- A multipart body of five bytes that is announced as one byte, and the header of a form without its body. -/
theorem not_leftBodyLen_counted :
    (∃ x ∈ calls oneRoute 0 (fresh .none) [bytes ("POST /u HTTP/1.1\r\nContent-Type: multipart/form-data; boundary=x\r\n" ++
        "Content-Length: 1\r\n\r\n--x\r\n")], ¬x.after.req.Counted x.fed ∧ x.after.req.leftBodyLen = 18446744073709551612) ∧
      ∃ x ∈ calls oneRoute 0 (fresh .none) [bytes ("POST /u HTTP/1.1\r\n" ++
        "Content-Type: application/x-www-form-urlencoded\r\nContent-Length: 3\r\n\r\n")],
        ¬x.after.req.Counted x.fed ∧ x.after.req.leftBodyLen = 91 :=
  ⟨by decide +kernel, by decide +kernel⟩

end Server

end Netcore
