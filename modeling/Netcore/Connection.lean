import Netcore.Http.Request
import Netcore.Http.Response
import Netcore.Http.Router
import Netcore.Websocket.Frame

/-!
# `connection`

The state machine of `connection.hpp`: `process` is called after every read and answers whether to read on or to write. What
a connection does to the world outside it (running a handler, raising an event, opening a file, replying to a frame) is also
written down, in order, in `trace`; nothing in the source corresponds to that member and nothing reads it.

What the application supplies is in `Env`: its routes and handlers, its callbacks, and the hooks that `http_server` has
members for but no way to set (`download_check_`, `upload_check_`, `not_found_`, `check_headers_`). A handler or callback
reads and may change the request and the response.
-/

namespace Netcore

open Slices

/-- `process_state`. -/
inductive ProcessState where
  | needRead
  | needWrite
  | needWriteThenRead
  deriving DecidableEq, Repr

/-- What a call of `process` comes to: a state, an exception that leaves it, or a read through a null pointer. -/
inductive Answer where
  | state (s : ProcessState)
  | threw (message : String)
  | nullRead
  deriving DecidableEq, Repr

/-- The member functions that `continue_work_` can point to. -/
inductive Work where
  | doReadMultipart
  | handleWsData
  | continueWriteThenRoute
  deriving DecidableEq, Repr

/-- `m_file_tag`: the content of the file being sent and the read position in it. -/
structure FileTag where
  content : Bytes
  pos : Nat
  deriving DecidableEq, Repr

/-- What a connection does to the world outside it. -/
inductive Act where
  | peek (found : Bool)
  | handler (target : Target) (req : Request)
  | notFound
  | openFile (path : Bytes)
  | frame (type : WsFrameType) (payload : Bytes)
  | event (state : DataProcState) (data : Bytes)
  | reply (data : Bytes)
  | write (data : Bytes)
  | assertFailed
  deriving DecidableEq, Repr

/-- The members of `connection` that the modelled code reads, and the trace. -/
structure Connection where
  req : Request
  res : Response
  ws : Websocket := {}
  isUpgrade : Bool := false
  keepAlive : Bool := false
  lastWsStr : Bytes := []
  reader : Multipart.Reader := {}
  isMultiPartFile : Bool := false
  continueWork : Option Work := none
  hasClosed : Bool := false
  fileTag : Option FileTag := none
  trace : List Act := []
  deriving DecidableEq, Repr

/-- What is outside the connection. -/
structure Env where
  router : Router
  /-- The handlers of the application, by name. -/
  handler : Nat → Request → Response → Request × Response
  /-- The callbacks registered with `request::on`. -/
  event : DataProcState → Option (Request → Response → Request × Response)
  /-- The checks registered with `regist_ws_conn_check`, by URL. -/
  wsCheck : Bytes → Option (Request → Response → Bool × Response)
  checkHeaders : Option (Request → Bool)
  uploadCheck : Option (Request → Response → Bool × Response)
  downloadCheck : Option (Request → Response → Bool × Response)
  notFound : Option (Request → Response → Response)
  /-- The value of `Sec-WebSocket-Accept` for a key: SHA-1 of the key and the GUID, in base 64. -/
  acceptKey : Bytes → Bytes
  /-- The files on disk, by the path they are opened under. -/
  files : Bytes → Option Bytes
  /-- Whether a file can be opened for an upload, and the name it is given. -/
  canCreate : Bytes → Bool
  uploadName : Nat → Bytes
  /-- `get_mime`. -/
  mime : Bytes → Bytes
  /-- What fresh memory holds: the lookbehind buffer of the multipart parser, and bytes after the end of a string. -/
  fill : Nat → UInt8
  heap : Nat → UInt8

namespace Connection

/-- `response_back(status, content)`. -/
def responseBack (c : Connection) (status : StatusType) (content : Bytes) : Connection :=
  { c with res := c.res.setStatusAndContent status content }

/-- The text of a request that is too large. -/
def tooLong : Bytes := bytes "The request is too long, limitation is 3M"

/-- Add to the trace. -/
def log (c : Connection) (a : Act) : Connection := { c with trace := c.trace ++ [a] }

/-- `Close`. -/
def close (c : Connection) : Connection :=
  if c.hasClosed then c
  else { c with req := c.req.reset.closeUploadFile, res := c.res.reset, hasClosed := true, continueWork := none }

/-- `call_event`: the callback runs when there is one; the event, with the part data of the moment, is raised either way. -/
def callEvent (env : Env) (c : Connection) (s : DataProcState) : Connection :=
  let c := c.log (.event s c.req.partData)
  match env.event s with
  | some f =>
    let (req, res) := f c.req c.res
    { c with req := req, res := res }
  | none => c

/-! ## Static files -/

/-- A path as `fopen` sees it: up to the first NUL. -/
def cString (s : Bytes) : Bytes := s.takeWhile (· ≠ 0)

/-- `fs::path::filename`. -/
def fileName (path : Bytes) : Bytes := (path.reverse.takeWhile (· ≠ SLASH)).reverse

/-- `write_ranges_header`. -/
def rangesHeader (mime filename : Bytes) (fileSize : Nat) : Bytes :=
  bytes "HTTP/1.1 200 OK\r\nAccess-Control-Allow-origin: *\r\nAccept-Ranges: bytes\r\n" ++
    bytes "Content-Disposition: attachment;filename=" ++ filename ++ CRLF ++ bytes "Connection: keep-alive\r\n" ++
    bytes "Content-Type: " ++ mime ++ CRLF ++ bytes "Content-Length: " ++ decimal fileSize ++ CRLF ++ CRLF

/-- The position that `cinatra_start_pos` asks for, when it is within the file. -/
def startPos (r : Request) (fileSize : Nat) : Nat :=
  let start := r.getHeaderValue (bytes "cinatra_start_pos")
  if start ≠ [] ∧ 0 < atoll start ∧ atoll start ≤ fileSize then (atoll start).toNat else 0

/-- `process_download`, in the configuration `ACCEPT_RANGES`. -/
def processDownload (env : Env) (c : Connection) (path : Bytes) : Connection :=
  match c.req.state with
  | .dataBegin =>
    let c := c.log (.openFile (cString path))
    match env.files (cString path) with
    | none => { c with res := c.res.setStatusAndContent .notFound [] }
    | some content =>
      let pos := startPos c.req content.length
      let c := { c with fileTag := some ⟨content, pos⟩ }
      if content.length ≤ 5242880 then
        let res := (c.res.addHeader (bytes "Access-Control-Allow-origin") (bytes "*")).addHeader (bytes "Content-type")
          (env.mime path ++ bytes "; charset=utf8")
        { c with res := res.setStatusAndContent .ok (content.drop pos) }
      else
        { c with
          res := c.res.setResponse (rangesHeader (env.mime path) (fileName path) content.length)
          req := { c.req with state := .dataContinue }
          continueWork := some .continueWriteThenRoute }
  | .dataContinue =>
    match c.fileTag with
    | none => c
    | some f =>
      let data := (f.content.drop f.pos).take 3145728
      { c with
        fileTag := some { f with pos := f.pos + data.length }
        res := c.res.setResponse data
        req := { c.req with state := if data.length ≠ 3145728 then .dataEnd else .dataContinue } }
  | .dataEnd => { c with continueWork := none }
  | .dataError =>
    { c with continueWork := none, res := c.res.setStatusAndContent .badRequest (bytes "data proce data error") }
  | .dataAllEnd | .dataClose => c

/-- `__config__::static_dir`. -/
def staticDir : Bytes := bytes "www"

/-- The path that the static handler hands to `process_download`. -/
def staticPath (r : Request) : Bytes := staticDir ++ r.getRelativeFilename

/-- The handler that `set_static_res_handler` registers. -/
def staticHandler (env : Env) (c : Connection) : Connection :=
  match env.downloadCheck with
  | some check =>
    let (ok, res) := check c.req c.res
    let c := { c with res := res }
    if ok then processDownload env c (staticPath c.req) else { c with res := c.res.setStatus .badRequest }
  | none => processDownload env c (staticPath c.req)

/-! ## Routing -/

/-- The answer to a request without a route. -/
def answerNotFound (env : Env) (c : Connection) : Connection :=
  match env.notFound with
  | some f => { c with res := f c.req c.res }
  | none => c.responseBack .notFound (bytes "404")

/-- `peek_route`: look for a route without running it. -/
def peekRoute (env : Env) (c : Connection) : Connection × Bool :=
  match env.router.route c.req.getMethod c.req.getUrl with
  | some _ => (c.log (.peek true), true)
  | none => (answerNotFound env (c.log (.peek false)), false)

/-- `call_back`: find the route and run its handler. An exception that the handler throws is turned into a response by
`http_handler_check_`, so a handler is a function. -/
def callBack (env : Env) (c : Connection) : Connection :=
  match env.router.route c.req.getMethod c.req.getUrl with
  | some t =>
    let c := c.log (.handler t c.req)
    match t with
    | .staticRes => staticHandler env c
    | .user id =>
      let (req, res) := env.handler id c.req c.res
      { c with req := req, res := res }
  | none => answerNotFound env (c.log .notFound)

/-! ## Multipart bodies -/

/-- The callback `on_part_begin`. -/
def onPartBegin (env : Env) (c : Connection) (headers : Multipart.Headers) : Connection :=
  let c := { c with req := c.req.setMultipartHeaders headers }
  let filename := c.req.getMultipartFieldName (bytes "filename")
  let c := { c with isMultiPartFile := c.req.isMultipartFile }
  if filename = [] ∧ c.isMultiPartFile = true then
    { c with
      req := { c.req with state := .dataError }
      res := c.res.setStatusAndContent .badRequest (bytes "mutipart error") }
  else if c.isMultiPartFile then
    -- the name is made from the clock; the result of the open is not looked at
    let path := bytes "www/" ++ env.uploadName c.req.files.length ++ getExtension filename ++ bytes "_ing"
    if env.canCreate path then { c with req := { c.req with files := c.req.files ++ [{ path := path }] } } else c
  else
    { c with req := c.req.saveMultipartKeyValue (c.req.getMultipartFieldName (bytes "name")) [] }

/-- The callback `on_part_data`. -/
def onPartData (c : Connection) (data : Bytes) : Connection :=
  if c.req.state = .dataError then c
  else if c.isMultiPartFile then
    if data ≠ [] ∧ c.req.files = [] then c.log .assertFailed else { c with req := c.req.writeUploadData data }
  else { c with req := c.req.updateMultipartValue (c.req.getMultipartFieldName (bytes "name")) data }

/-- The callback `on_part_end`: the upload is closed and loses its suffix `_ing`. -/
def onPartEnd (c : Connection) : Connection :=
  if c.req.state = .dataError then c
  else if c.isMultiPartFile then
    let req := c.req.closeUploadFile
    match req.files.reverse with
    | [] => { c with req := req }
    | f :: fs =>
      if contains f.path (bytes "_ing") then
        { c with req := { req with files := ({ f with path := f.path.take (f.path.length - 4) } :: fs).reverse } }
      else { c with req := req }
  else c

/-- The callback `on_end`. -/
def onEnd (c : Connection) : Connection :=
  if c.req.state = .dataError then c else { c with req := c.req.handleMultipartKeyValue }

/-- `init_multipart_parser`: what each call of the reader does. -/
def onReaderCall (env : Env) (c : Connection) : Multipart.ReaderCall → Connection
  | .onPartBegin headers => onPartBegin env c headers
  | .onPartData data => c.onPartData data
  | .onPartEnd => c.onPartEnd
  | .onEnd => c.onEnd

/-- The `do`-`while` loop of `parse_multipart`: feed until everything is consumed or the parser has stopped. -/
def feedMultipart : Nat → Multipart.Reader → Bytes → Multipart.ReaderResult
  | 0, _, _ => .running
  | fuel + 1, r, data =>
    match r.feed data with
    | .returned r₁ cs₁ ret =>
      if ret < data.length ∧ r₁.stopped = false then
        match feedMultipart fuel r₁ (data.drop ret) with
        | .returned r₂ cs₂ ret₂ => .returned r₂ (cs₁ ++ cs₂) (ret + ret₂)
        | .threw r₂ cs₂ msg => .threw r₂ (cs₁ ++ cs₂) msg
        | .running => .running
      else .returned r₁ cs₁ ret
    | .threw r₁ cs₁ msg => .threw r₁ cs₁ msg
    | .running => .running

/-- What `parse_multipart` comes to: whether the form is malformed, or an exception. -/
inductive MultipartAnswer where
  | hasError (b : Bool)
  | threw (message : String)
  deriving DecidableEq, Repr

/-- `parse_multipart` on `length` bytes from position `size` of the buffer. -/
def parseMultipart (env : Env) (c : Connection) (size length : Nat) : Connection × MultipartAnswer :=
  if length = 0 then (c, .hasError false)
  else
    let c := { c with req := c.req.setPartData (slice c.req.buf size (size + length)) }
    let data := c.req.getPartData
    match feedMultipart (data.length + 1) c.reader data with
    | .returned r calls _ =>
      let c := calls.foldl (onReaderCall env) { c with reader := r }
      if r.hasError then ({ c with req := { c.req with state := .dataError } }, .hasError true)
      else ({ c with req := c.req.reduceLeftBodySize length }, .hasError false)
    | .threw r calls msg => (calls.foldl (onReaderCall env) { c with reader := r }, .threw msg)
    | .running => (c, .hasError true)

/-- The part of `handle_multipart` that parses the body bytes of the first read. -/
def handleFirstParts (env : Env) (c : Connection) : Connection × Answer :=
  match parseMultipart env c c.req.headerLen.toNat (sizeT (c.req.curSize - c.req.headerLen)) with
  | (c, .threw msg) => (c, .threw msg)
  | (c, .hasError true) => (c.responseBack .badRequest (bytes "mutipart error"), .state .needWrite)
  | (c, .hasError false) =>
    if c.req.hasRecievedAllPart then (callBack env c, .state .needWrite)
    else ({ c with req := c.req.setCurrentSize 0, continueWork := some .doReadMultipart }, .state .needRead)

/-- `handle_multipart`. -/
def handleMultipart (env : Env) (c : Connection) : Connection × Answer :=
  match env.uploadCheck with
  | some check =>
    let (ok, res) := check c.req c.res
    let c := { c with res := res }
    if ok then handleFirstParts env c
    else (c.close.responseBack .badRequest (bytes "upload_check_ error at line 553"), .state .needWrite)
  | none => handleFirstParts env c

/-- `do_read_multipart`. The number of bytes to parse is `last_transfer_`, which is never set. -/
def doReadMultipart (env : Env) (c : Connection) : Connection × Answer :=
  let c := { c with req := c.req.fitSize }
  match parseMultipart env c 0 0 with
  | (c, .threw msg) => (c, .threw msg)
  | (c, .hasError true) =>
    ({ c.responseBack .badRequest (bytes "mutipart error") with keepAlive := false, continueWork := none }, .state .needWrite)
  | (c, .hasError false) =>
    if c.req.bodyFinished then ({ callBack env c with continueWork := none }, .state .needWrite)
    else ({ c with req := c.req.setCurrentSize 0, continueWork := some .doReadMultipart }, .state .needRead)

/-! ## Other bodies -/

/-- `connection::check_request`, on the hook `check_headers_`. -/
def checkRequest (env : Env) (r : Request) : Bool := (env.checkHeaders.map (· r)).getD true

/-- `handle_body`, of which the caller drops the answer. -/
def handleBody (env : Env) (c : Connection) : Connection :=
  if c.req.atCapacity then c.responseBack .badRequest (bytes "The body is too long, limitation is 3M")
  else if c.req.httpType = .multipart then
    match parseMultipart env c c.req.headerLen.toNat (sizeT (c.req.curSize - c.req.headerLen)) with
    | (c, .hasError true) => c.responseBack .badRequest (bytes "mutipart error")
    | (c, _) => c
  else if 0 < c.req.bodyLen ∧ checkRequest env c.req = false then
    c.responseBack .badRequest (bytes "request check error")
  else callBack env c

/-- `handle_string_body`. -/
def handleStringBody (env : Env) (c : Connection) : Connection × Answer :=
  if c.req.atCapacity then (c.responseBack .badRequest tooLong, .state .needWrite)
  else if c.req.hasRecievedAll then (handleBody env c, .state .needWrite)
  else
    let c := { c with req := c.req.expandSize }
    let partSize := sizeT (c.req.curSize - sizeT c.req.headerLen)
    if partSize = 18446744073709551615 then ({ c with res := c.res.setStatus .internalServerError }, .state .needWrite)
    else ({ c with req := c.req.reduceLeftBodySize partSize }, .state .needRead)

/-- `handle_url_urlencoded_body`. -/
def handleUrlUrlencodedBody (env : Env) (c : Connection) : Connection :=
  let (req, success) := c.req.parseFormUrlencoded
  let c := { c with req := req }
  if success = false then c.responseBack .badRequest (bytes "form urlencoded error")
  else if 0 < c.req.bodyLen ∧ checkRequest env c.req = false then
    c.responseBack .badRequest (bytes "request check error")
  else callBack env c

/-- `handle_form_urlencoded`; `bytes_transferred` is `last_transfer_`, which is never set. -/
def handleFormUrlencoded (env : Env) (c : Connection) : Connection :=
  if c.req.atCapacity then c.responseBack .badRequest tooLong
  else if c.req.hasRecievedAll then handleUrlUrlencodedBody env c
  else
    let c := { c with req := c.req.expandSize }
    { c with req := c.req.reduceLeftBodySize (sizeT (0 - sizeT c.req.headerLen)) }

/-! ## WebSocket -/

/-- `is_upgrade`: the header values that ask for a WebSocket; the key is kept once it is looked at. -/
def wsIsUpgrade (w : Websocket) (r : Request) : Websocket × Bool :=
  let h := r.getHeaderValue (bytes "connection")
  let u := r.getHeaderValue (bytes "upgrade")
  if r.getMethod ≠ bytes "GET" ∨ h = [] ∨ u = [] ∨ findStrIC h (bytes "upgrade") = false ∨
    iequal u (bytes "websocket") = false then (w, false)
  else
    let key := r.getHeaderValue (bytes "sec-websocket-key")
    ({ w with secWsKey := key }, decide (key.length = 24))

/-- `check_keep_alive`. -/
def checkKeepAlive (c : Connection) : Connection :=
  let hdr := c.req.getHeaderValue (bytes "connection")
  let keep := if c.req.isHttp11 then decide (hdr = []) || !iequal hdr (bytes "close")
    else decide (hdr ≠ []) && iequal hdr (bytes "keep-alive")
  let c := { c with keepAlive := keep, res := { c.res with keepAlive := keep } }
  if keep then
    let (ws, up) := wsIsUpgrade c.ws c.req
    { c with ws := ws, isUpgrade := up }
  else c

/-- `upgrade_to_websocket`. -/
def upgradeToWebsocket (env : Env) (c : Connection) : Connection :=
  let res := (({ c.res with status := .switchingProtocols }.addHeader (bytes "Upgrade") (bytes "WebSocket")).addHeader
    (bytes "Connection") (bytes "Upgrade")).addHeader (bytes "Sec-WebSocket-Accept") (env.acceptKey c.ws.secWsKey)
  let protocol := c.req.getHeaderValue (bytes "sec-websocket-protocol")
  { c with res := if protocol = [] then res else res.addHeader (bytes "Sec-WebSocket-Protocol") protocol }

/-- `response_handshake`. -/
def responseHandshake (env : Env) (c : Connection) : Connection :=
  let c := { c with res := c.res.buildResponseStr }
  let c := c.log (.write c.res.repStr)
  let c := callBack env { c with req := { c.req with state := .dataBegin } }
  let c := callEvent env c c.req.state
  { c with req := c.req.setCurrentSize 0, continueWork := some .handleWsData }

/-- The `len` bytes from `message` on that `handle_ws_frame` copies for a close frame: they may run past the payload. -/
def closeMessage (env : Env) (payload : Bytes) (len : Nat) : Bytes :=
  (List.range len).map fun i => (payload ++ [0]).getD (2 + i) (env.heap i)

/-- `handle_ws_frame`: whether to go on, or `none` for a copy from a null pointer. -/
def handleWsFrame (env : Env) (c : Connection) (type : WsFrameType) (payload : Bytes) : Connection × Option Bool :=
  let c := c.log (.frame type payload)
  match type with
  | .errorFrame => ((callEvent env c .dataError).close, some false)
  | .textFrame | .binaryFrame =>
    let temp := c.lastWsStr ++ payload
    (callEvent env { c with lastWsStr := [], req := c.req.setPartData temp } .dataContinue, some true)
  | .closeFrame =>
    let len := min 123 payload.length
    if parseClosePayload payload = none ∧ len ≠ 0 then (c, none)
    else
      let message := closeMessage env payload len
      let c := callEvent env { c with req := c.req.setPartData message } .dataClose
      let msg := formatClosePayload Opcode.close message
      let out := formatHeader msg.length Opcode.close ++ msg
      ({ c with res := c.res.setResponse out }.log (.reply out), some false)
  | .pingFrame =>
    let out := formatHeader payload.length Opcode.pong ++ payload
    ({ c with res := c.res.setResponse out }.log (.reply out), some true)
  | .pongFrame | .openingFrame | .incompleteFrame | .incompleteTextFrame | .incompleteBinaryFrame => (c, some true)

/-- The loop of `handle_ws_data` over the bytes `data` up to `stop`, from position `start` on. The position moves past
headers only, by at least two bytes, so that the number of bytes left bounds the iterations; without bytes left the header
is incomplete. -/
def wsLoop (env : Env) (data : Bytes) (stop : Nat) : Nat → Connection → Nat → Connection × Answer
  | 0, c, _ => (c, .state .needRead)
  | fuel + 1, c, start =>
    let (ws, ret) := c.ws.parseHeader (data.drop start) (stop - start)
    let c := { c with ws := ws }
    if ret = -2 then (c, .state .needRead)
    else if ret < 0 then ((callEvent env c .dataError).close, .state .needWrite)
    else
      let start := start + ret.toNat
      let (type, payload) := c.ws.parsePayload (data.drop start) (stop - start)
      if type = .incompleteFrame then (c, .state .needRead)
      else
        let c := if type = .incompleteTextFrame ∨ type = .incompleteBinaryFrame then
          { c with lastWsStr := c.lastWsStr ++ payload } else c
        match handleWsFrame env c type payload with
        | (c, none) => (c, .nullRead)
        | (c, some false) => (c, .state .needWrite)
        | (c, some true) =>
          if c.ws.msgFin = false then wsLoop env data stop fuel c start
          else ({ c with req := c.req.setCurrentSize 0 }, .state .needWriteThenRead)

/-- `handle_ws_data`. -/
def handleWsData (env : Env) (c : Connection) : Connection × Answer :=
  wsLoop env c.req.buf c.req.curSize (c.req.curSize + 1) c 0

/-! ## Requests -/

/-- The boundary that `get_content_type` takes from the header value: all that follows the first `=`, without the quotes
around it. -/
def formBoundary (value : Bytes) : Bytes :=
  let bd := match value.idxOf? 61 with
    | some pos => value.drop (pos + 1)
    | none => value
  if bd.head? = some QUOTE ∧ bd.getLast? = some QUOTE then (bd.drop 1).take (bd.length - 2) else bd

/-- `get_content_type`; for a multipart form the parser is given its boundary. -/
def getContentType (env : Env) (c : Connection) : Connection × ContentType :=
  if c.req.isChunked then (c, .chunked)
  else
    let value := c.req.getHeaderValue (bytes "content-type")
    if value = [] then (c, .unknown)
    else if contains value (bytes "application/x-www-form-urlencoded") then (c, .urlencoded)
    else if contains value (bytes "multipart/form-data") then
      ({ c with reader := c.reader.setBoundary (CRLF ++ [HYPHEN, HYPHEN] ++ formBoundary value) env.fill }, .multipart)
    else if contains value (bytes "application/octet-stream") then (c, .octetStream)
    else if contains value (bytes "application/json") then (c, .json)
    else (c, .string)

/-- `handle_header_request`. (`handle_gzip` succeeds in this build.) -/
def handleHeaderRequest (env : Env) (c : Connection) : Connection × Answer :=
  if c.isUpgrade then
    let (ok, res) := match env.wsCheck c.req.getUrl with
      | some check => check c.req c.res
      | none => (false, c.res)
    let c := { c with res := res }
    if ok = false then
      ({ c.responseBack .forbidden (bytes "not allowed") with isUpgrade := false, keepAlive := false }, .state .needWrite)
    else
      let c := upgradeToWebsocket env { c with req := { c.req with httpType := .websocket } }
      (responseHandshake env c, .state .needRead)
  else (callBack env c, .state .needWrite)

/-- `handle_request`. -/
def handleRequest (env : Env) (c : Connection) : Connection × Answer :=
  if c.req.hasBody then
    let (c, type) := getContentType env c
    let c := { c with req := { c.req with httpType := type } }
    match type with
    | .string | .json | .unknown => handleStringBody env c
    | .multipart => handleMultipart env c
    | .octetStream => (c, .state .needWrite)
    | .urlencoded => (handleFormUrlencoded env c, .state .needWrite)
    | .chunked => (c.responseBack .internalServerError (bytes "not support yet"), .state .needWrite)
    | .websocket => (c, .state .needWrite)
  else handleHeaderRequest env c

/-- `handle_read`. -/
def handleRead (env : Env) (c : Connection) : Connection × Answer :=
  let (req, ret) := c.req.parseHeader env.checkHeaders
  let c := { c with req := req }
  if ret = -1 then ({ c with res := c.res.setStatus .badRequest }, .state .needWrite)
  else
    match peekRoute env c with
    | (c, false) => (c.responseBack .notFound (bytes "404"), .state .needWrite)
    | (c, true) =>
      let c := c.checkKeepAlive
      if ret = -2 then (c, .state .needRead) else handleRequest env c

/-- `process`. -/
def process (env : Env) (c : Connection) : Connection × Answer :=
  if c.req.atCapacity then (c.responseBack .badRequest tooLong, .state .needWrite)
  else
    match c.continueWork with
    | none => handleRead env c
    | some .doReadMultipart => doReadMultipart env c
    | some .handleWsData => handleWsData env c
    | some .continueWriteThenRoute => (callBack env c, .state .needWrite)

end Connection

end Netcore
