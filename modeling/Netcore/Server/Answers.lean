import Netcore.Connection.Steps
import Netcore.Server.Runs

/-!
# Requests that are answered

A connection handles one request: after `need_write` the loop of `Server::handle` sends the response string and ends. So the
string had better be a response. `answered_iff` says when it is: every way of `process` to `need_write` builds one, when the
handlers of the application do, but for two. A body of the type `application/octet-stream` is not looked at, and a form body
that has not arrived in full is not waited for.
-/

namespace Netcore

open Slices

/-- An HTTP response: a status line, and the end of a header. -/
def IsHttpResponse (s : Bytes) : Prop := (∃ status : StatusType, status.toRepString <+: s) ∧ CRLF ++ CRLF <:+: s

/-- The handlers of the application call `set_status_and_content`, or make a response in another way. -/
structure Env.Answers (env : Env) : Prop where
  handler : ∀ id req res, IsHttpResponse (env.handler id req res).2.repStr
  notFound : ∀ f ∈ env.notFound, ∀ req res, IsHttpResponse (f req res).repStr

/-- The empty string, which `res` holds at first, is no response: it has no status line. -/
theorem not_isHttpResponse_nil : ¬ IsHttpResponse [] := by
  rintro ⟨-, h⟩
  have := h.length_le
  simp [CRLF] at this

/-- The lines of a response before its content, without the end of the last one. -/
def Response.headerLines (res : Response) : Bytes :=
  res.status.toRepString ++ res.headers.flatMap (fun h => h.1 ++ [COLON] ++ h.2 ++ CRLF) ++ bytes "Content-Length: " ++
    decimal res.contentSize ++ CRLF ++ res.resType.line ++
    match res.cookie with
    | none => bytes "Server: netcore"
    | some cookie => bytes "Server: netcore\r\n" ++ bytes "Set-Cookie: " ++ cookie

/-- What `build_response_str` makes: the lines of the header, the empty line that ends them, and the content. -/
theorem Response.buildResponseStr_eq (res : Response) :
    res.buildResponseStr.repStr = res.headerLines ++ (CRLF ++ CRLF) ++ res.content := by
  have hserver : bytes "Server: netcore\r\n" = bytes "Server: netcore" ++ CRLF := by decide
  unfold headerLines
  cases hc : res.cookie with
  | none => simp only [buildResponseStr, hc, hserver, List.append_nil, List.append_assoc]
  | some cookie => simp only [buildResponseStr, hc, List.append_assoc]

/-- Whatever its headers and its content are, a response that is built has a status line and the end of a header. -/
theorem isHttpResponse_build (res : Response) : IsHttpResponse res.buildResponseStr.repStr := by
  refine ⟨⟨res.status, ?_⟩, ?_⟩
  · simp only [Response.buildResponseStr, List.append_assoc]
    exact List.prefix_append _ _
  · rw [res.buildResponseStr_eq]
    exact ⟨_, _, rfl⟩

/-- The answer to a file that is too large for one response. -/
theorem isHttpResponse_rangesHeader (mime filename : Bytes) (fileSize : Nat) :
    IsHttpResponse (Connection.rangesHeader mime filename fileSize) := by
  have hstatus : bytes "HTTP/1.1 200 OK\r\nAccess-Control-Allow-origin: *\r\nAccept-Ranges: bytes\r\n" =
      StatusType.ok.toRepString ++ bytes "Access-Control-Allow-origin: *\r\nAccept-Ranges: bytes\r\n" := by decide
  refine ⟨⟨.ok, ?_⟩, List.IsSuffix.isInfix ?_⟩
  · simp only [Connection.rangesHeader, hstatus, List.append_assoc]
    exact List.prefix_append _ _
  · rw [Connection.rangesHeader, List.append_assoc]
    exact List.suffix_append _ _

namespace Connection

variable {env : Env}

/-- `response_back` leaves an HTTP response, for every status. -/
theorem isHttpResponse_responseBack (c : Connection) (status : StatusType) (content : Bytes) :
    IsHttpResponse (c.responseBack status content).res.repStr := isHttpResponse_build _

/-- `set_status` builds a response, for every status. -/
theorem isHttpResponse_setStatus (res : Response) (status : StatusType) : IsHttpResponse (res.setStatus status).repStr :=
  isHttpResponse_build _

/-! ## Handlers -/

/-- The state of a request that no handler has run on. -/
def Settled (r : Request) : Prop := r.state = .dataBegin ∨ r.state = .dataError

/-- `process_download` answers on each of its branches: the file, its beginning, a range of it, or an error. -/
theorem processDownload_answers (c : Connection) (h : Settled c.req) (path : Bytes) :
    IsHttpResponse (processDownload env c path).res.repStr := by
  unfold processDownload
  rcases h with hs | hs
  · simp only [hs]
    split
    · exact isHttpResponse_build _
    · split_ifs
      · exact isHttpResponse_build _
      · exact isHttpResponse_rangesHeader _ _ _
  · simp only [hs]
    exact isHttpResponse_build _

/-- The default handler answers: with the file, or with the page for one that is not there. -/
theorem staticHandler_answers (c : Connection) (h : Settled c.req) : IsHttpResponse (staticHandler env c).res.repStr := by
  unfold staticHandler
  cases env.downloadCheck with
  | none => exact processDownload_answers c h _
  | some check =>
    dsimp only
    split_ifs
    · exact processDownload_answers { c with res := (check c.req c.res).2 } h _
    · exact isHttpResponse_build _

/-- Whatever `call_back` finds for the request, there is a response afterwards. -/
theorem callBack_answers (henv : env.Answers) (c : Connection) (h : Settled c.req) : IsHttpResponse (callBack env c).res.repStr := by
  unfold callBack
  cases env.router.route c.req.getMethod c.req.getUrl with
  | none =>
    simp only [answerNotFound]
    cases hn : env.notFound with
    | none => exact isHttpResponse_build _
    | some f => exact henv.notFound f hn _ _
  | some t =>
    cases t with
    | staticRes => exact staticHandler_answers _ h
    | user id => exact henv.handler id _ _

/-! ## Multipart bodies -/

/-- A callback of the reader may find an error, and otherwise leaves the state of the request alone. -/
theorem onReaderCall_state (env : Env) (c : Connection) (call : Multipart.ReaderCall) :
    (onReaderCall env c call).req.state = .dataError ∨ (onReaderCall env c call).req.state = c.req.state := by
  cases call with
  | onPartBegin headers =>
    unfold onReaderCall onPartBegin Request.saveMultipartKeyValue
    dsimp only
    split_ifs
    · exact Or.inl rfl
    · exact Or.inr rfl
    · exact Or.inr rfl
    · exact Or.inr rfl
    · exact Or.inr rfl
  | onPartData data =>
    refine Or.inr ?_
    unfold onReaderCall onPartData
    dsimp only
    split_ifs
    · rfl
    · rfl
    · unfold Request.writeUploadData
      split <;> rfl
    · unfold Request.updateMultipartValue
      dsimp only
      split_ifs
      · split <;> rfl
      · split <;> rfl
  | onPartEnd =>
    refine Or.inr ?_
    have hclose : c.req.closeUploadFile.state = c.req.state := by
      unfold Request.closeUploadFile
      split <;> rfl
    unfold onReaderCall onPartEnd
    dsimp only
    split_ifs
    · rfl
    · split
      · exact hclose
      · split
        · exact hclose
        · exact hclose
    · rfl
  | onEnd =>
    refine Or.inr ?_
    unfold onReaderCall onEnd
    dsimp only
    split <;> rfl

/-- The callbacks of the multipart reader can bring a request into `data_error`, and into no other state. -/
theorem foldl_onReaderCall_settled (env : Env) (calls : List Multipart.ReaderCall) : ∀ {c : Connection}, Settled c.req →
    Settled (calls.foldl (onReaderCall env) c).req := by
  induction calls with
  | nil => exact fun h => h
  | cons call calls ih =>
    intro c h
    refine ih ?_
    rcases onReaderCall_state env c call with he | he
    · exact Or.inr he
    · unfold Settled
      rw [he]
      exact h

/-- `parse_multipart` leaves no request in a state that a handler sets. -/
theorem parseMultipart_settled (env : Env) (c : Connection) (size length : Nat) (h : Settled c.req) :
    Settled (parseMultipart env c size length).1.req := by
  unfold parseMultipart
  dsimp only
  split_ifs
  · exact h
  · split
    · rename_i r calls ret _
      have hcalls := foldl_onReaderCall_settled env calls
        (c := { c with req := c.req.setPartData (slice c.req.buf size (size + length)), reader := r }) h
      split_ifs
      · exact Or.inr rfl
      · exact hcalls
    · rename_i r calls msg _
      exact foldl_onReaderCall_settled env calls
        (c := { c with req := c.req.setPartData (slice c.req.buf size (size + length)), reader := r }) h
    · exact h

/-! ## One call of `process` -/

/-- A connection on which nothing has been done for its request yet. -/
structure Untouched (c : Connection) : Prop where
  settled : Settled c.req
  work : c.continueWork = none
  repStr : c.res.repStr = []

/-- A connection between two calls: it waits for its header or its body, for more of a form, or for frames. -/
inductive Pending (c : Connection) : Prop where
  | untouched (h : Untouched c)
  | parts (h : Settled c.req) (hw : c.continueWork = some .doReadMultipart)
  | frames (hw : c.continueWork = some .handleWsData)

/-- What a call on a request comes to: with `need_write` it is answered, and otherwise it waits. -/
structure Outcome (r : Connection × Answer) : Prop where
  answered : r.2 = .state .needWrite → IsHttpResponse r.1.res.repStr
  waits : Server.continues r.2 = true → Pending r.1

/-- A call that ends in `need_write` with a response in `res` has answered its request. -/
theorem outcome_write {c : Connection} (h : IsHttpResponse c.res.repStr) : Outcome (c, .state .needWrite) :=
  ⟨fun _ => h, fun he => absurd he (by simp [Server.continues])⟩

/-- A call that ends in `need_read` has to leave a connection that waits. -/
theorem outcome_read {c : Connection} (h : Pending c) : Outcome (c, .state .needRead) := ⟨fun he => absurd he (by simp), fun _ => h⟩

/-- An exception ends the connection: nothing is asked of it. -/
theorem outcome_threw (c : Connection) (msg : String) : Outcome (c, .threw msg) :=
  ⟨fun he => absurd he (by simp), fun he => absurd he (by simp [Server.continues])⟩

/-- `set_current_size` moves bytes and leaves the state of the request. -/
theorem setCurrentSize_state (r : Request) (size : Nat) : (r.setCurrentSize size).state = r.state := by
  unfold Request.setCurrentSize Request.copyMethodUrlHeaders
  dsimp only
  split_ifs <;> rfl

/-- The buffer grows, and the state of the request stays. -/
theorem growTo_state (r : Request) (total : Nat) : (r.growTo total).state = r.state := by
  unfold Request.growTo Request.resize Request.copyMethodUrlHeaders
  dsimp only
  split_ifs <;> rfl

/-- `handle_multipart` with the first bytes of a form answers, or waits for the parts that follow. -/
theorem handleFirstParts_outcome (henv : env.Answers) (c : Connection) (h : Settled c.req) : Outcome (handleFirstParts env c) := by
  have hs := parseMultipart_settled env c c.req.headerLen.toNat (sizeT (c.req.curSize - c.req.headerLen)) h
  unfold handleFirstParts
  generalize parseMultipart env c c.req.headerLen.toNat (sizeT (c.req.curSize - c.req.headerLen)) = r at hs ⊢
  obtain ⟨c₁, ans⟩ := r
  cases ans with
  | threw msg => exact outcome_threw _ _
  | hasError b =>
    cases b with
    | true => exact outcome_write (isHttpResponse_responseBack _ _ _)
    | false =>
      dsimp only
      split_ifs
      · exact outcome_write (callBack_answers henv _ hs)
      · refine outcome_read (.parts ?_ rfl)
        unfold Settled
        rw [setCurrentSize_state]
        exact hs

/-- `handle_multipart` answers, or waits, whether or not there is a check before the upload. -/
theorem handleMultipart_outcome (henv : env.Answers) (c : Connection) (h : Settled c.req) : Outcome (handleMultipart env c) := by
  unfold handleMultipart
  cases env.uploadCheck with
  | none => exact handleFirstParts_outcome henv c h
  | some check =>
    dsimp only
    split_ifs
    · exact handleFirstParts_outcome henv { c with res := (check c.req c.res).2 } h
    · exact outcome_write (isHttpResponse_responseBack _ _ _)

/-- `do_read_multipart` with the bytes of a later read answers a form that is there in full or was refused, and else
waits. -/
theorem doReadMultipart_outcome (henv : env.Answers) (c : Connection) (h : Settled c.req) : Outcome (doReadMultipart env c) := by
  have hfit : Settled c.req.fitSize := by
    unfold Settled Request.fitSize
    rw [growTo_state]
    exact h
  have hs := parseMultipart_settled env { c with req := c.req.fitSize } 0 0 hfit
  unfold doReadMultipart
  dsimp only
  generalize parseMultipart env { c with req := c.req.fitSize } 0 0 = r at hs ⊢
  obtain ⟨c₁, ans⟩ := r
  cases ans with
  | threw msg => exact outcome_threw _ _
  | hasError b =>
    cases b with
    | true =>
      refine outcome_write ?_
      exact isHttpResponse_responseBack c₁ .badRequest (bytes "mutipart error")
    | false =>
      dsimp only
      split_ifs
      · exact outcome_write (callBack_answers henv _ hs)
      · refine outcome_read (.parts ?_ rfl)
        unfold Settled
        rw [setCurrentSize_state]
        exact hs

/-- `handle_string_body` answers a body that is there in full, and else waits for the rest of it. -/
theorem handleStringBody_outcome (henv : env.Answers) (c : Connection) (h : Untouched c) (ht : c.req.httpType ≠ .multipart) :
    Outcome (handleStringBody env c) := by
  unfold handleStringBody
  dsimp only
  split_ifs
  · exact outcome_write (isHttpResponse_responseBack _ _ _)
  · refine outcome_write ?_
    unfold handleBody
    rw [if_neg ht]
    split_ifs
    · exact isHttpResponse_responseBack _ _ _
    · exact callBack_answers henv c h.settled
  · refine outcome_write ?_
    exact isHttpResponse_setStatus c.res .internalServerError
  · refine outcome_read (.untouched ⟨?_, h.work, h.repStr⟩)
    unfold Settled Request.reduceLeftBodySize Request.expandSize
    rw [growTo_state]
    exact h.settled

/-- `handle_form_urlencoded` answers a form that is there in full, or one for which there is no more room. -/
theorem handleFormUrlencoded_answers (henv : env.Answers) (c : Connection) (h : Settled c.req)
    (hall : c.req.atCapacity = true ∨ c.req.hasRecievedAll = true) : IsHttpResponse (handleFormUrlencoded env c).res.repStr := by
  unfold handleFormUrlencoded
  split_ifs with hcap hrec
  · exact isHttpResponse_responseBack _ _ _
  · unfold handleUrlUrlencodedBody
    dsimp only
    split_ifs
    · exact isHttpResponse_responseBack _ _ _
    · exact isHttpResponse_responseBack _ _ _
    · exact callBack_answers henv _ h
  · rcases hall with hall | hall
    · exact absurd hall hcap
    · exact absurd hall hrec

/-- A form body of which a part is missing is given up without a response. -/
theorem handleFormUrlencoded_part (c : Connection) (hcap : c.req.atCapacity = false) (hrec : c.req.hasRecievedAll = false) :
    (handleFormUrlencoded env c).res = c.res := by
  unfold handleFormUrlencoded
  rw [if_neg (by simp [hcap]), if_neg (by simp [hrec])]

/-- A request without a body is answered at once. -/
theorem handleHeaderRequest_outcome (henv : env.Answers) (c : Connection) (h : Settled c.req) :
    Outcome (handleHeaderRequest env c) := by
  unfold handleHeaderRequest
  by_cases hup : c.isUpgrade = true
  · rw [if_pos hup]
    dsimp only
    split_ifs
    · refine outcome_write ?_
      exact isHttpResponse_responseBack _ .forbidden (bytes "not allowed")
    · exact outcome_read (.frames rfl)
  · rw [if_neg hup]
    exact outcome_write (callBack_answers henv c h)

/-! ## The two ways that build nothing -/

/-- The type that `get_content_type` gives is read from the request alone. -/
theorem getContentType_congr (env : Env) {c c' : Connection} (h : c.req = c'.req) :
    (getContentType env c).2 = (getContentType env c').2 := by
  unfold getContentType
  rw [h]
  dsimp only
  split_ifs <;> rfl

/-- `get_content_type` never gives `websocket`: that type is set in the handshake only. -/
theorem getContentType_ne_websocket (env : Env) (c : Connection) : (getContentType env c).2 ≠ .websocket := by
  unfold getContentType
  dsimp only
  split_ifs <;> simp

/-- The body of the request is given up: it is of the type `application/octet-stream`, or a form that is not there in full. -/
def givesUp (env : Env) (c : Connection) : Bool :=
  c.req.hasBody &&
    match (getContentType env c).2 with
    | .octetStream => true
    | .urlencoded => !c.req.atCapacity && !c.req.hasRecievedAll
    | _ => false

/-- Whether a body is given up is read from the request alone. -/
theorem givesUp_congr (env : Env) {c c' : Connection} (h : c.req = c'.req) : givesUp env c = givesUp env c' := by
  unfold givesUp
  rw [getContentType_congr env h, h]

/-- `handle_request` on a fresh request answers it, waits, or throws, unless it gives the body up. -/
theorem handleRequest_outcome (henv : env.Answers) (c : Connection) (h : Untouched c) (hg : givesUp env c = false) :
    Outcome (handleRequest env c) := by
  unfold handleRequest
  by_cases hb : c.req.hasBody = true
  · obtain ⟨⟨reader, hreader⟩, -⟩ := getContentType_spec env c
    have hne := getContentType_ne_websocket env c
    rw [givesUp, hb, Bool.true_and] at hg
    rw [if_pos hb]
    generalize getContentType env c = r at *
    obtain ⟨c₁, type⟩ := r
    obtain rfl : c₁ = { c with reader := reader } := hreader
    have hs : ∀ t, Untouched { { c with reader := reader } with req := { c.req with httpType := t } } :=
      fun t => ⟨h.settled, h.work, h.repStr⟩
    cases type with
    | string => exact handleStringBody_outcome henv _ (hs .string) (by simp)
    | json => exact handleStringBody_outcome henv _ (hs .json) (by simp)
    | unknown => exact handleStringBody_outcome henv _ (hs .unknown) (by simp)
    | multipart => exact handleMultipart_outcome henv _ (hs .multipart).settled
    | octetStream => exact absurd hg (by simp)
    | urlencoded =>
      refine outcome_write (handleFormUrlencoded_answers henv _ (hs .urlencoded).settled ?_)
      have hg : (!c.req.atCapacity && !c.req.hasRecievedAll) = false := hg
      cases hcap : c.req.atCapacity with
      | true => exact Or.inl hcap
      | false =>
        rw [hcap, Bool.not_false, Bool.true_and, Bool.not_eq_false'] at hg
        exact Or.inr hg
    | chunked => exact outcome_write (isHttpResponse_responseBack _ _ _)
    | websocket => exact absurd rfl hne
  · rw [if_neg hb]
    exact handleHeaderRequest_outcome henv c h.settled

/-- A request that is given up is not answered. -/
theorem handleRequest_givesUp (c : Connection) (hg : givesUp env c = true) :
    (handleRequest env c).2 = .state .needWrite ∧ (handleRequest env c).1.res = c.res := by
  rw [givesUp, Bool.and_eq_true] at hg
  obtain ⟨hb, hg⟩ := hg
  obtain ⟨⟨reader, hreader⟩, -⟩ := getContentType_spec env c
  unfold handleRequest
  rw [if_pos hb]
  generalize getContentType env c = r at *
  obtain ⟨c₁, type⟩ := r
  obtain rfl : c₁ = { c with reader := reader } := hreader
  cases type with
  | octetStream => exact ⟨rfl, rfl⟩
  | urlencoded =>
    have hg : (!c.req.atCapacity && !c.req.hasRecievedAll) = true := hg
    rw [Bool.and_eq_true, Bool.not_eq_true', Bool.not_eq_true'] at hg
    exact ⟨rfl, handleFormUrlencoded_part _ hg.1 hg.2⟩
  | _ => exact absurd hg (by simp)

/-- The call comes to a body that is given up. -/
def unanswered (env : Env) (c : Connection) : Bool :=
  let p := c.req.parseHeader env.checkHeaders
  !c.req.atCapacity && decide (c.continueWork = none) && decide (p.2 ≠ -1) && decide (p.2 ≠ -2) &&
    (env.router.route p.1.getMethod p.1.getUrl).isSome && givesUp env { c with req := p.1 }

/-- `check_keep_alive` looks at the headers and leaves the request as it is. -/
theorem checkKeepAlive_untouched {c : Connection} (h : Untouched c) :
    Untouched c.checkKeepAlive ∧ c.checkKeepAlive.req = c.req := by
  obtain ⟨keep, ws, up, he⟩ := checkKeepAlive_eq c
  rw [he]
  exact ⟨⟨h.settled, h.work, h.repStr⟩, rfl⟩

/-- Parsing the header, whole or in part, leaves the state of the request. -/
theorem parseHeader_state (r : Request) (check : Option (Request → Bool)) : (r.parseHeader check).1.state = r.state := by
  have hbody : ∀ q : Request, q.readBodyLen.state = q.state := by
    intro q
    unfold Request.readBodyLen
    dsimp only
    split_ifs <;> rfl
  have hcookie : ∀ q : Request, q.readCookie.state = q.state := by
    intro q
    unfold Request.readCookie
    dsimp only
    split_ifs <;> rfl
  have hurl : ∀ q q' : Request, q.readUrl = some q' → q'.state = q.state := by
    intro q q' h
    unfold Request.readUrl at h
    dsimp only at h
    split_ifs at h
    revert h
    cases (q.url.read q.buf).idxOf? 63 with
    | none => exact fun h => Option.some.inj h ▸ rfl
    | some pos => exact fun h => Option.some.inj h ▸ rfl
  unfold Request.parseHeader
  dsimp only
  split_ifs
  · rfl
  · rfl
  · rfl
  · cases hu : r.parseTokens.checkGzip.readBodyLen.readCookie.readUrl with
    | none => exact (hcookie _).trans (hbody _)
    | some q => exact (hurl _ q hu).trans ((hcookie _).trans (hbody _))

/-- `handle_read` of a request whose body is not given up. -/
theorem handleRead_outcome (henv : env.Answers) (c : Connection) (h : Untouched c)
    (hg : (c.req.parseHeader env.checkHeaders).2 ≠ -1 → (c.req.parseHeader env.checkHeaders).2 ≠ -2 →
      (env.router.route (c.req.parseHeader env.checkHeaders).1.getMethod (c.req.parseHeader env.checkHeaders).1.getUrl).isSome →
      givesUp env { c with req := (c.req.parseHeader env.checkHeaders).1 } = false) : Outcome (handleRead env c) := by
  have hstate := parseHeader_state c.req env.checkHeaders
  rcases hp : c.req.parseHeader env.checkHeaders with ⟨q, ret⟩
  rw [hp] at hstate hg
  by_cases h1 : ret = -1
  · subst h1
    rw [handleRead_malformed hp]
    refine outcome_write ?_
    exact isHttpResponse_setStatus c.res .badRequest
  cases hr : env.router.route q.getMethod q.getUrl with
  | none =>
    rw [handleRead_notFound hp h1 hr]
    exact outcome_write (isHttpResponse_responseBack _ _ _)
  | some t =>
    have hq : Untouched ({ c with req := q }.log (.peek true)) := by
      refine ⟨?_, h.work, h.repStr⟩
      show q.state = .dataBegin ∨ q.state = .dataError
      rw [show q.state = c.req.state from hstate]
      exact h.settled
    obtain ⟨hk, hkreq⟩ := checkKeepAlive_untouched hq
    by_cases h2 : ret = -2
    · subst h2
      rw [handleRead_incomplete hp hr]
      exact outcome_read (.untouched hk)
    · rw [handleRead_header hp h1 h2 hr]
      refine handleRequest_outcome henv _ hk ?_
      rw [← hg h1 h2 (by rw [hr]; rfl)]
      exact givesUp_congr env hkreq

/-- A call of `process`, unless it comes to a body that is given up. -/
theorem process_outcome (henv : env.Answers) {c : Connection} (h : Pending c) (hws : c.continueWork ≠ some .handleWsData)
    (hu : unanswered env c = false) : Outcome (process env c) := by
  cases hcap : c.req.atCapacity with
  | true =>
    rw [process_atCapacity hcap]
    exact outcome_write (isHttpResponse_responseBack _ _ _)
  | false =>
    rcases h with h | ⟨h, hw⟩ | hw
    · rw [process_none hcap h.work]
      refine handleRead_outcome henv c h fun h1 h2 hr => ?_
      by_contra hg
      rw [Bool.not_eq_false] at hg
      have hun : unanswered env c = true := by
        simp only [unanswered, Bool.and_eq_true, Bool.not_eq_true', decide_eq_true_eq]
        exact ⟨⟨⟨⟨⟨hcap, h.work⟩, h1⟩, h2⟩, hr⟩, hg⟩
      exact absurd (hun.symm.trans hu) (by simp)
    · rw [process_doReadMultipart hcap hw]
      exact doReadMultipart_outcome henv c h
    · exact absurd hw hws

/-- Only a connection on which nothing has been done comes to a body that is given up. -/
theorem Pending.untouched_of_unanswered {c : Connection} (h : Pending c) (hu : unanswered env c = true) : Untouched c := by
  have hw : c.continueWork = none := by
    simp only [unanswered, Bool.and_eq_true, decide_eq_true_eq] at hu
    exact hu.1.1.1.1.2
  rcases h with h | ⟨-, hw'⟩ | hw'
  · exact h
  · exact absurd (hw.symm.trans hw') (by simp)
  · exact absurd (hw.symm.trans hw') (by simp)

/-- A call that comes to a body that is given up is not answered. -/
theorem process_unanswered {c : Connection} (h : Untouched c) (hu : unanswered env c = true) :
    (process env c).2 = .state .needWrite ∧ (process env c).1.res.repStr = [] := by
  simp only [unanswered, Bool.and_eq_true, Bool.not_eq_true', decide_eq_true_eq] at hu
  obtain ⟨⟨⟨⟨⟨hcap, hw⟩, h1⟩, h2⟩, hr⟩, hg⟩ := hu
  rw [process_none hcap hw]
  rcases hp : c.req.parseHeader env.checkHeaders with ⟨q, ret⟩
  rw [hp] at h1 h2 hr hg
  obtain ⟨t, ht⟩ := Option.isSome_iff_exists.mp hr
  obtain ⟨keep, ws, up, hk⟩ := checkKeepAlive_eq ({ c with req := q }.log (.peek true))
  rw [handleRead_header hp h1 h2 ht]
  obtain ⟨hans, hres⟩ := @handleRequest_givesUp env ({ c with req := q }.log (.peek true)).checkKeepAlive
    ((givesUp_congr env (by rw [hk]; rfl)).trans hg)
  refine ⟨hans, ?_⟩
  rw [hres, hk]
  exact h.repStr

end Connection

/-! ## Runs -/

namespace Server

open Connection

variable {env : Env}

/-- The connection after reads that all let the loop go on. -/
def after (env : Env) (c : Connection) : List Bytes → Option Connection
  | [] => some c
  | a :: as =>
    match step env c a with
    | .processed c' answer => if continues answer then after env c' as else none
    | _ => none

/-- A connection with the bytes of another read. -/
def receiving (c : Connection) (a : Bytes) : Connection := { c with req := receive c.req a }

/-- A read that is processed is a call of `process` on the connection with its bytes in the buffer. -/
theorem step_eq_process {c c' : Connection} {a : Bytes} {answer : Answer} (h : step env c a = .processed c' answer) :
    process env (receiving c a) = (c', answer) := by
  unfold step at h
  split at h
  · exact absurd h (by simp)
  · exact absurd h (by simp)
  · dsimp only at h
    split_ifs at h
    obtain ⟨rfl, rfl⟩ := Step.processed.inj h
    rfl

/-- The bytes of a read go to the buffer, and the connection waits for the same thing as before. -/
theorem receiving_pending {c : Connection} (h : Pending c) (a : Bytes) : Pending (receiving c a) := by
  rcases h with h | ⟨h, hw⟩ | hw
  · exact .untouched ⟨h.settled, h.work, h.repStr⟩
  · exact .parts h hw
  · exact .frames hw

/-- A read that lets the loop go on leaves a connection that waits. -/
theorem pending_of_continues (henv : env.Answers) {c c' : Connection} (h : Pending c) {answer : Answer}
    (hp : process env c = (c', answer)) (hc : continues answer = true) : Pending c' := by
  by_cases hws : c.continueWork = some .handleWsData
  · cases hcap : c.req.atCapacity with
    | true =>
      rw [process_atCapacity hcap] at hp
      rw [← (Prod.mk.inj hp).2] at hc
      exact absurd hc (by simp [continues])
    | false =>
      rw [process_handleWsData hcap hws] at hp
      have hwork := (wsLoop_extends env c.req.buf c.req.curSize (c.req.curSize + 1) c 0).2
      rw [show wsLoop env c.req.buf c.req.curSize (c.req.curSize + 1) c 0 = (c', answer) from hp] at hwork
      refine .frames ((hwork ?_ ?_).trans hws)
      · rintro rfl
        exact absurd hc (by simp [continues])
      · rintro rfl
        exact absurd hc (by simp [continues])
  · cases hu : unanswered env c with
    | false =>
      have ho := process_outcome henv h hws hu
      rw [hp] at ho
      exact ho.waits hc
    | true =>
      have hans := (process_unanswered (h.untouched_of_unanswered hu) hu).1
      rw [hp] at hans
      rw [show answer = .state .needWrite from hans] at hc
      exact absurd hc (by simp [continues])

/-- However many reads have come, the connection that is left waits for its header, its body, more of a form, or
frames. -/
theorem after_pending (henv : env.Answers) (as : List Bytes) : ∀ {c c' : Connection}, Pending c → after env c as = some c' →
    Pending c' := by
  induction as with
  | nil => exact fun h hc => Option.some.inj hc ▸ h
  | cons a as ih =>
    intro c c' h hc
    rw [after] at hc
    cases hs : step env c a with
    | recvError => exact absurd hc (by simp [hs])
    | ended => exact absurd hc (by simp [hs])
    | processed c₁ answer =>
      simp only [hs] at hc
      split_ifs at hc with hcont
      exact ih (pending_of_continues henv (receiving_pending h a) (step_eq_process hs) hcont) hc

/-- A connection that was just accepted waits for its header. -/
theorem fresh_pending (resType : ReqContentType) : Pending (fresh resType) := .untouched ⟨Or.inl rfl, rfl, rfl⟩

/-- **Which requests are answered.** In any run, with handlers that answer, a call of `process` on the bytes of a request that
returns `need_write` leaves an HTTP response in the response string, unless the call comes to a body that is given up: one of
the type `application/octet-stream`, or a form of which a part is missing. -/
theorem answered_iff (henv : env.Answers) (resType : ReqContentType) (arrivals : List Bytes) {a : Bytes} {c c' : Connection}
    (hc : after env (fresh resType) arrivals = some c) (hws : c.continueWork ≠ some .handleWsData)
    (hs : step env c a = .processed c' (.state .needWrite)) :
    IsHttpResponse c'.res.repStr ↔ unanswered env (receiving c a) = false := by
  have hpend := receiving_pending (after_pending henv arrivals (fresh_pending resType) hc) a
  have hp := step_eq_process hs
  cases hu : unanswered env (receiving c a) with
  | false =>
    have ho := process_outcome henv hpend hws hu
    rw [hp] at ho
    exact iff_of_true (ho.answered rfl) rfl
  | true =>
    have hnil := (process_unanswered (hpend.untouched_of_unanswered hu) hu).2
    rw [hp] at hnil
    rw [show c'.res.repStr = [] from hnil]
    exact iff_of_false not_isHttpResponse_nil (by simp)

/-- An application that only has routes to handlers without effect answers every request. -/
theorem bare_answers (routes : List (Bytes × Target)) : (Env.bare routes).Answers where
  handler := fun _ _ _ => isHttpResponse_build _
  notFound := fun f hf => absurd hf (by simp [Env.bare])

/-- An application with the one route `/u`. -/
def oneRoute : Env := Env.bare [(bytes "/u", .user 1)]

/-- On a fresh connection, a first read of less than the buffer is handed to `process` as it is. -/
theorem step_oneRoute {a : Bytes} (hne : a ≠ []) (h : a.length < 1024) :
    step oneRoute (fresh .none) a = .processed (process oneRoute (receiving (fresh .none) a)).1
      (process oneRoute (receiving (fresh .none) a)).2 := by
  rw [step_eq hne]
  · rfl
  · rw [fresh_leftSize]
    exact h
  · show 0 + a.length ≤ maxSize
    unfold maxSize
    omega

/-- A form that comes in one read. -/
theorem answered_iff_form : ∃ c', step oneRoute (fresh .none) (bytes ("POST /u HTTP/1.1\r\n" ++
      "Content-Type: application/x-www-form-urlencoded\r\nContent-Length: 3\r\n\r\na=1")) = .processed c' (.state .needWrite) ∧
    IsHttpResponse c'.res.repStr := by
  have hstep := step_oneRoute (a := bytes ("POST /u HTTP/1.1\r\n" ++
    "Content-Type: application/x-www-form-urlencoded\r\nContent-Length: 3\r\n\r\na=1")) (by decide +kernel) (by decide +kernel)
  have hans : (process oneRoute (receiving (fresh .none) (bytes ("POST /u HTTP/1.1\r\n" ++
    "Content-Type: application/x-www-form-urlencoded\r\nContent-Length: 3\r\n\r\na=1")))).2 = .state .needWrite := by
    decide +kernel
  rw [hans] at hstep
  exact ⟨_, hstep, (answered_iff (bare_answers _) .none [] rfl (fun h => by cases h) hstep).mpr (by decide +kernel)⟩

/-- A body of the type `application/octet-stream`, and a form of which the first read has the header only. -/
theorem not_answered :
    (∃ c', step oneRoute (fresh .none) (bytes ("POST /u HTTP/1.1\r\n" ++
        "Content-Type: application/octet-stream\r\nContent-Length: 2\r\n\r\nhi")) = .processed c' (.state .needWrite) ∧
      ¬ IsHttpResponse c'.res.repStr) ∧
    ∃ c', step oneRoute (fresh .none) (bytes ("POST /u HTTP/1.1\r\n" ++
        "Content-Type: application/x-www-form-urlencoded\r\nContent-Length: 3\r\n\r\n")) = .processed c' (.state .needWrite) ∧
      ¬ IsHttpResponse c'.res.repStr := by
  have hgiven : ∀ a : Bytes, a ≠ [] → a.length < 1024 → unanswered oneRoute (receiving (fresh .none) a) = true →
      ∃ c', step oneRoute (fresh .none) a = .processed c' (.state .needWrite) ∧ ¬ IsHttpResponse c'.res.repStr := by
    intro a hne hlen hu
    obtain ⟨hans, hnil⟩ := process_unanswered ⟨Or.inl rfl, rfl, rfl⟩ hu
    refine ⟨_, (step_oneRoute hne hlen).trans (by rw [hans]), ?_⟩
    rw [hnil]
    exact not_isHttpResponse_nil
  exact ⟨hgiven _ (by decide +kernel) (by decide +kernel) (by decide +kernel),
    hgiven _ (by decide +kernel) (by decide +kernel) (by decide +kernel)⟩

end Server

end Netcore
