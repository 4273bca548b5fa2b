import Netcore.Connection
import Netcore.Http.Buffer

/-!
# The steps of a connection, case by case

Equations for the functions of `connection.hpp` that have several ways to go: `process`, `handle_read` and the loop of
`handle_ws_data`. The results about whole runs are proved from these and not from the bodies.
-/

namespace Netcore

namespace Connection

variable {env : Env} {c : Connection}

/-! ## `process` -/

/-- Without room, `process` answers that the request is too long, whatever it was doing. -/
theorem process_atCapacity (h : c.req.atCapacity = true) :
    process env c = (c.responseBack .badRequest tooLong, .state .needWrite) := by
  rw [process, if_pos h]

/-- With nothing under way, `process` reads the header. -/
theorem process_none (h : c.req.atCapacity = false) (hw : c.continueWork = none) : process env c = handleRead env c := by
  rw [process, if_neg (by simp [h]), hw]

/-- A form under way is read on. -/
theorem process_doReadMultipart (h : c.req.atCapacity = false) (hw : c.continueWork = some .doReadMultipart) :
    process env c = doReadMultipart env c := by
  rw [process, if_neg (by simp [h]), hw]

/-- An upgraded connection reads a frame. -/
theorem process_handleWsData (h : c.req.atCapacity = false) (hw : c.continueWork = some .handleWsData) :
    process env c = handleWsData env c := by
  rw [process, if_neg (by simp [h]), hw]

/-! ## `handle_read` -/

/-- A header that is refused is answered with 400. -/
theorem handleRead_malformed {q : Request} (hp : c.req.parseHeader env.checkHeaders = (q, -1)) :
    handleRead env c = ({ c with req := q, res := c.res.setStatus .badRequest }, .state .needWrite) := by
  rw [handleRead, hp]
  rfl

/-- Without a route the answer is 404, whether or not the header is complete. -/
theorem handleRead_notFound {q : Request} {ret : Int} (hp : c.req.parseHeader env.checkHeaders = (q, ret)) (hret : ret ≠ -1)
    (hr : env.router.route q.getMethod q.getUrl = none) :
    handleRead env c =
      ((answerNotFound env ({ c with req := q }.log (.peek false))).responseBack .notFound (bytes "404"), .state .needWrite) := by
  rw [handleRead, hp]
  simp only [peekRoute, hr, if_neg hret]

/-- A header that is cut waits for the rest. -/
theorem handleRead_incomplete {q : Request} {t : Target} (hp : c.req.parseHeader env.checkHeaders = (q, -2))
    (hr : env.router.route q.getMethod q.getUrl = some t) :
    handleRead env c = (({ c with req := q }.log (.peek true)).checkKeepAlive, .state .needRead) := by
  rw [handleRead, hp]
  simp only [peekRoute, hr]
  rfl

/-- A header that was parsed, for a route that is there, is handled. -/
theorem handleRead_header {q : Request} {ret : Int} {t : Target} (hp : c.req.parseHeader env.checkHeaders = (q, ret))
    (h1 : ret ≠ -1) (h2 : ret ≠ -2) (hr : env.router.route q.getMethod q.getUrl = some t) :
    handleRead env c = handleRequest env ({ c with req := q }.log (.peek true)).checkKeepAlive := by
  rw [handleRead, hp]
  simp only [peekRoute, hr, if_neg h1, if_neg h2]

/-- So is a complete one, with its length. -/
theorem handleRead_complete {q : Request} {ret : Int} {t : Target} (hp : c.req.parseHeader env.checkHeaders = (q, ret))
    (hret : 0 ≤ ret) (hr : env.router.route q.getMethod q.getUrl = some t) :
    handleRead env c = handleRequest env ({ c with req := q }.log (.peek true)).checkKeepAlive :=
  handleRead_header hp (by omega) (by omega) hr

/-- A request without a body that is not upgraded goes to its handler. -/
theorem handleRequest_bodyless (hb : c.req.hasBody = false) (hu : c.isUpgrade = false) :
    handleRequest env c = (callBack env c, .state .needWrite) := by
  rw [handleRequest, if_neg (by simp [hb]), handleHeaderRequest, if_neg (by simp [hu])]

/-- A text body that has been received goes to the handler. -/
theorem handleStringBody_all (h1 : c.req.atCapacity = false) (h2 : c.req.hasRecievedAll = true)
    (ht : c.req.httpType ≠ .multipart) (hn : env.checkHeaders = none) :
    handleStringBody env c = (callBack env c, .state .needWrite) := by
  have hcheck : ¬(0 < c.req.bodyLen ∧ checkRequest env c.req = false) := by
    rw [checkRequest, hn]
    simp
  rw [handleStringBody, if_neg (by simp [h1]), if_pos h2, handleBody, if_neg (by simp [h1]), if_neg ht, if_neg hcheck]

/-- One that has not is waited for, in a buffer that has room for all of it. -/
theorem handleStringBody_part (env : Env) (h1 : c.req.atCapacity = false) (h2 : c.req.hasRecievedAll = false) (h0 : 0 ≤ c.req.headerLen)
    (hle : c.req.headerLen ≤ c.req.curSize) (hs : c.req.curSize < 18446744073709551615) : ∃ left,
      handleStringBody env c = ({ c with req := { c.req.expandSize with leftBodyLen := left } }, .state .needRead) := by
  obtain ⟨hh, -, hc, -, -⟩ := Request.growTo_sizes c.req c.req.totalLen
  have hpart : sizeT (c.req.expandSize.curSize - sizeT c.req.expandSize.headerLen) ≠ 18446744073709551615 := by
    rw [Request.expandSize, hh, hc]
    unfold sizeT
    omega
  rw [handleStringBody, if_neg (by simp [h1]), if_neg (by simp [h2])]
  simp only [if_neg hpart]
  exact ⟨_, rfl⟩

/-- The members that `check_keep_alive` sets. -/
theorem checkKeepAlive_eq (c : Connection) : ∃ keep ws up,
    c.checkKeepAlive = { c with keepAlive := keep, res := { c.res with keepAlive := keep }, ws := ws, isUpgrade := up } := by
  unfold checkKeepAlive
  dsimp only
  generalize (if c.req.isHttp11 = true then _ else _ : Bool) = keep
  cases keep with
  | true => exact ⟨true, _, _, rfl⟩
  | false => exact ⟨false, c.ws, c.isUpgrade, rfl⟩

/-- `get_content_type` sets the boundary of the reader at most, and answers `chunked` for a chunked request only. -/
theorem getContentType_spec (env : Env) (c : Connection) : (∃ reader, (getContentType env c).1 = { c with reader := reader }) ∧
    ((getContentType env c).2 ≠ .chunked → c.req.isChunked = false) := by
  unfold getContentType
  dsimp only
  split_ifs with h1 <;> exact ⟨⟨_, rfl⟩, by simp [h1]⟩

/-! ## The loop of `handle_ws_data` -/

/-- An iteration of the frame loop on an incomplete header. -/
theorem wsLoop_header_incomplete {data : Bytes} {stop fuel start : Nat} {ws : Websocket}
    (hp : c.ws.parseHeader (data.drop start) (stop - start) = (ws, -2)) :
    wsLoop env data stop (fuel + 1) c start = ({ c with ws := ws }, .state .needRead) := by
  rw [wsLoop, hp]
  rfl

/-- An iteration of the frame loop on an incomplete payload. -/
theorem wsLoop_payload_incomplete {data payload : Bytes} {stop fuel start : Nat} {ws : Websocket} {len : Nat}
    (hp : c.ws.parseHeader (data.drop start) (stop - start) = (ws, (len : Int)))
    (hq : ws.parsePayload (data.drop (start + len)) (stop - (start + len)) = (.incompleteFrame, payload)) :
    wsLoop env data stop (fuel + 1) c start = ({ c with ws := ws }, .state .needRead) := by
  have h1 : (len : Int) ≠ -2 := by omega
  have h2 : ¬(len : Int) < 0 := by omega
  rw [wsLoop, hp]
  simp only [h1, h2, if_false, Int.toNat_natCast, hq, if_true]

/-- What `handle_ws_data` does before it handles a frame: the payload of a fragment is kept. -/
def keepFragment (c : Connection) (type : WsFrameType) (payload : Bytes) : Connection :=
  if type = .incompleteTextFrame ∨ type = .incompleteBinaryFrame then { c with lastWsStr := c.lastWsStr ++ payload } else c

/-- How the frame loop goes on after a frame. -/
def afterFrame (env : Env) (data : Bytes) (stop fuel start : Nat) : Connection × Option Bool → Connection × Answer
  | (c, none) => (c, .nullRead)
  | (c, some false) => (c, .state .needWrite)
  | (c, some true) =>
    if c.ws.msgFin = false then wsLoop env data stop fuel c start
    else ({ c with req := c.req.setCurrentSize 0 }, .state .needWriteThenRead)

/-- An iteration of the frame loop on a complete frame. -/
theorem wsLoop_frame {data payload : Bytes} {stop fuel start : Nat} {ws : Websocket}
    {type : WsFrameType} {len : Nat} (hp : c.ws.parseHeader (data.drop start) (stop - start) = (ws, (len : Int)))
    (hq : ws.parsePayload (data.drop (start + len)) (stop - (start + len)) = (type, payload)) (ht : type ≠ .incompleteFrame) :
    wsLoop env data stop (fuel + 1) c start =
      afterFrame env data stop fuel (start + len)
        (handleWsFrame env (keepFragment { c with ws := ws } type payload) type payload) := by
  have h1 : (len : Int) ≠ -2 := by omega
  have h2 : ¬(len : Int) < 0 := by omega
  rw [wsLoop, hp]
  simp only [h1, h2, if_false, Int.toNat_natCast, hq, ht, keepFragment]
  rfl

end Connection

end Netcore
