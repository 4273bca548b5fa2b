import Netcore.Server.FormBody

/-!
# Errors in forms

A form whose declared bytes are all in the first read can fail in three ways: the reader refuses it, the reader does not get to
the closing delimiter, or a callback puts the request into `data_error`. `handle_multipart` looks only at the first. What is
left to decide is whether the bytes received are as many as were declared; then the handler runs, whatever the other two say.
-/

namespace Netcore

open Slices Multipart

/-! ## What the callbacks make of the parts -/

/-- What decides whether the callbacks of `init_multipart_parser` fail: the headers of the parts so far, whether the current
part is a file, whether `data_error` has been set, whether an upload has been opened, and whether the assertion of
`write_upload_data` has failed. -/
structure PartsLog where
  headers : Headers := []
  isFile : Bool := false
  dataError : Bool := false
  opened : Bool := false
  asserted : Bool := false
  deriving DecidableEq, Repr

/-- A request of which only the headers of the parts matter. -/
def Request.ofPartHeaders (headers : Headers) : Request := { buf := [], multipartHeaders := headers }

namespace PartsLog

/-- A part begins: it is a file by its headers, and then it needs a file name. The name of an upload is made from the clock,
and there is none before the first. -/
def onPartBegin (env : Env) (l : PartsLog) (headers : Headers) : PartsLog :=
  let r := (Request.ofPartHeaders l.headers).setMultipartHeaders headers
  let filename := r.getMultipartFieldName (bytes "filename")
  let l : PartsLog := { l with headers := r.multipartHeaders, isFile := r.isMultipartFile }
  if filename = [] ∧ l.isFile = true then { l with dataError := true }
  else if l.isFile then
    { l with opened := l.opened || env.canCreate (bytes "www/" ++ env.uploadName 0 ++ getExtension filename ++ bytes "_ing") }
  else l

/-- Data of a part: for a file there must be an upload to write to. -/
def onPartData (l : PartsLog) (data : Bytes) : PartsLog :=
  if l.dataError = false ∧ l.isFile = true ∧ data ≠ [] ∧ l.opened = false then { l with asserted := true } else l

/-- One callback. -/
def onCall (env : Env) (l : PartsLog) : ReaderCall → PartsLog
  | .onPartBegin headers => l.onPartBegin env headers
  | .onPartData data => l.onPartData data
  | .onPartEnd | .onEnd => l

end PartsLog

/-- The callbacks of a form, from the first one on. -/
def Env.parts (env : Env) (calls : List ReaderCall) : PartsLog := calls.foldl (PartsLog.onCall env) {}

namespace Connection

/-- What the callbacks have made of the parts so far. -/
def partsLog (c : Connection) : PartsLog where
  headers := c.req.multipartHeaders
  isFile := c.isMultiPartFile
  dataError := decide (c.req.state = .dataError)
  opened := decide (c.req.files ≠ [])
  asserted := decide (Act.assertFailed ∈ c.trace)

variable {env : Env} {c : Connection}

/-- A field of the form is not in the log of the parts. -/
theorem saveMultipartKeyValue_partsLog (c : Connection) (key value : Bytes) :
    { c with req := c.req.saveMultipartKeyValue key value }.partsLog = c.partsLog := by
  unfold Request.saveMultipartKeyValue
  split <;> rfl

/-- Nor is its value. -/
theorem updateMultipartValue_partsLog (c : Connection) (key data : Bytes) :
    { c with req := c.req.updateMultipartValue key data }.partsLog = c.partsLog := by
  unfold Request.updateMultipartValue
  dsimp only
  split <;> split <;> rfl

/-- Changing the last upload leaves the log alone. -/
theorem reverse_cons_partsLog {f f' : UploadFile} {fs : List UploadFile} (h : c.req.files.reverse = f :: fs) :
    { c with req := { c.req with files := (f' :: fs).reverse } }.partsLog = c.partsLog := by
  have hne : c.req.files ≠ [] := by
    intro hnil
    rw [hnil] at h
    cases h
  simp [partsLog, hne]

/-- Data that goes to a file does not change the log. -/
theorem writeUploadData_partsLog (c : Connection) (data : Bytes) :
    { c with req := c.req.writeUploadData data }.partsLog = c.partsLog := by
  unfold Request.writeUploadData
  split
  · rfl
  · rename_i f fs h
    exact reverse_cons_partsLog h

/-- The end of a part does not change the log. -/
theorem onPartEnd_partsLog (c : Connection) : c.onPartEnd.partsLog = c.partsLog := by
  unfold onPartEnd Request.closeUploadFile
  dsimp only
  split_ifs
  · rfl
  · cases h : c.req.files.reverse with
    | nil => simp [h]
    | cons f fs =>
      simp only [List.reverse_reverse]
      split_ifs
      · exact reverse_cons_partsLog h
      · exact reverse_cons_partsLog h
  · rfl

/-- Part data changes the log as the log says. -/
theorem onPartData_partsLog (c : Connection) (data : Bytes) : (c.onPartData data).partsLog = c.partsLog.onPartData data := by
  unfold onPartData PartsLog.onPartData
  by_cases he : c.req.state = .dataError
  · simp [he, partsLog]
  · by_cases hf : c.isMultiPartFile = true
    · by_cases ha : data ≠ [] ∧ c.req.files = []
      · simp [he, hf, ha, partsLog, log]
      · rw [if_neg he, if_pos hf, if_neg ha, writeUploadData_partsLog, if_neg]
        intro h
        exact ha ⟨h.2.2.1, by simpa [partsLog] using h.2.2.2⟩
    · rw [if_neg he, if_neg hf, updateMultipartValue_partsLog, if_neg]
      exact fun h => hf h.2.1

/-- A part that begins changes the log as the log says. -/
theorem onPartBegin_partsLog (env : Env) (c : Connection) (headers : Headers) :
    (onPartBegin env c headers).partsLog = c.partsLog.onPartBegin env headers := by
  -- the file name and the kind of the part depend on the headers of the parts alone
  have hname : ((Request.ofPartHeaders c.partsLog.headers).setMultipartHeaders headers).getMultipartFieldName (bytes "filename") =
      (c.req.setMultipartHeaders headers).getMultipartFieldName (bytes "filename") := rfl
  have hfile : ((Request.ofPartHeaders c.partsLog.headers).setMultipartHeaders headers).isMultipartFile =
      (c.req.setMultipartHeaders headers).isMultipartFile := rfl
  unfold onPartBegin PartsLog.onPartBegin
  dsimp only
  rw [hname, hfile]
  clear hname hfile
  generalize (c.req.setMultipartHeaders headers).getMultipartFieldName (bytes "filename") = filename
  have hopen : c.partsLog.opened = true ∨ (c.req.setMultipartHeaders headers).files.length = 0 := by
    by_cases hf : c.req.files = []
    · exact .inr (congrArg List.length hf)
    · exact .inl (decide_eq_true hf)
  split_ifs with h1 h2 h3
  · rfl
  · have hor : (c.partsLog.opened ||
        env.canCreate (bytes "www/" ++ env.uploadName 0 ++ getExtension filename ++ bytes "_ing")) = true := by
      rcases hopen with ho | h0
      · rw [ho, Bool.true_or]
      · rw [← h0, h3, Bool.or_true]
    rw [hor, partsLog, PartsLog.mk.injEq]
    exact ⟨rfl, rfl, rfl, decide_eq_true (by simp), rfl⟩
  · have hor : (c.partsLog.opened ||
        env.canCreate (bytes "www/" ++ env.uploadName 0 ++ getExtension filename ++ bytes "_ing")) = c.partsLog.opened := by
      rcases hopen with ho | h0
      · rw [ho, Bool.true_or]
      · rw [← h0, Bool.eq_false_iff.mpr h3, Bool.or_false]
    rw [hor]
    rfl
  · exact saveMultipartKeyValue_partsLog
      { c with
        req := c.req.setMultipartHeaders headers
        isMultiPartFile := (c.req.setMultipartHeaders headers).isMultipartFile } _ _

/-- The callbacks do to the log of a connection what they do to the log alone. -/
theorem partsLog_onReaderCall (env : Env) (c : Connection) (call : ReaderCall) :
    (onReaderCall env c call).partsLog = c.partsLog.onCall env call := by
  cases call with
  | onPartBegin headers => exact onPartBegin_partsLog env c headers
  | onPartData data => exact onPartData_partsLog c data
  | onPartEnd => exact onPartEnd_partsLog c
  | onEnd =>
    unfold onReaderCall onEnd
    dsimp only
    split <;> rfl

/-- By induction over the calls: the log of the connection is the one that the calls alone give. -/
theorem partsLog_foldl (env : Env) (calls : List ReaderCall) : ∀ c : Connection,
    (calls.foldl (onReaderCall env) c).partsLog = calls.foldl (PartsLog.onCall env) c.partsLog := by
  induction calls with
  | nil => exact fun c => rfl
  | cons call calls ih =>
    intro c
    rw [List.foldl_cons, List.foldl_cons, ih, partsLog_onReaderCall]

end Connection

/-! ## What the reader makes of the data -/

namespace Multipart.ReaderResult

/-- The calls of the reader's user. -/
def calls : ReaderResult → List ReaderCall
  | .returned _ calls _ | .threw _ calls _ => calls
  | .running => []

/-- The parser has got to `END`. -/
def ended : ReaderResult → Bool
  | .returned r _ _ => r.succeeded
  | _ => false

/-- The parser has set an error. -/
def refused : ReaderResult → Bool
  | .returned r _ _ => r.hasError
  | _ => false

end Multipart.ReaderResult

/-- A call of `feed` on a live parser comes to an end. -/
theorem Multipart.Reader.feed_ne_running {r : Reader} (h : r.parser.Live) (buffer : Bytes) : r.feed buffer ≠ .running := by
  have hends := feed_ends h buffer
  unfold Reader.feed
  cases hf : Multipart.feed r.parser buffer with
  | running p cs =>
    rw [hf] at hends
    exact hends.elim
  | returned p cs ret => simp
  | threw p cs msg => simp

/-- The reader for the boundary of the header, on the data after the header. A header that says `gzip` gets it `gzip_str_`
instead, which is empty. -/
def Head.readForm (fill : Nat → UInt8) (head data : Bytes) : ReaderResult :=
  (({} : Reader).setBoundary (delimiter (Head.boundary head)) fill).feed
    (if contains (Head.value head (bytes "content-encoding")) (bytes "gzip") then [] else data)

/-- The form is complete and free of errors: the parser has got to `END`, and no callback has set `data_error`. -/
def Env.AcceptsForm (env : Env) (head data : Bytes) : Prop :=
  (Head.readForm env.fill head data).ended = true ∧ (env.parts (Head.readForm env.fill head data).calls).dataError = false

/-! ## Runs of handlers, and error responses -/

/-- The handler is run. After an assertion that has failed nothing is. -/
def Step.Invokes (s : Step) (t : Target) : Prop :=
  ∃ pre r post, s.trace = pre ++ .handler t r :: post ∧ .assertFailed ∉ pre

/-- The statuses from 400 on. -/
def StatusType.isError : StatusType → Bool
  | .badRequest | .unauthorized | .forbidden | .notFound | .internalServerError | .notImplemented | .badGateway
  | .serviceUnavailable => true
  | _ => false

/-- An error response is sent. -/
def Step.AnswersError (s : Step) : Prop :=
  .assertFailed ∉ s.trace ∧ ∃ status : StatusType, status.isError = true ∧ status.toRepString <+: s.response

/-- A step that invokes a handler has one. -/
theorem Step.Invokes.handlers_ne_nil {s : Step} {t : Target} (h : s.Invokes t) : s.handlers ≠ [] := by
  obtain ⟨pre, r, post, htr, -⟩ := h
  unfold Step.handlers
  rw [htr, List.filterMap_append, List.filterMap_cons]
  exact List.append_ne_nil_of_right_ne_nil _ (List.cons_ne_nil _ _)

/-- No status line is empty. -/
theorem StatusType.toRepString_ne_nil (status : StatusType) : status.toRepString ≠ [] := by
  cases status <;> decide +kernel

/-- A response begins with the line of its status. -/
theorem Response.toRepString_isPrefix (res : Response) (status : StatusType) (content : Bytes) :
    status.toRepString <+: (res.setStatusAndContent status content).repStr := by
  simp only [setStatusAndContent, buildResponseStr, List.append_assoc]
  exact List.prefix_append _ _

/-- An error response is not empty. -/
theorem Step.AnswersError.response_ne_nil {s : Step} (h : s.AnswersError) : s.response ≠ [] := by
  obtain ⟨-, status, -, hpre⟩ := h
  intro hnil
  rw [hnil, List.prefix_nil] at hpre
  exact status.toRepString_ne_nil hpre

namespace Server

variable {env : Env} {head data : Bytes} {n : Nat} {t : Target} {steps : List Step}

/-- The handler runs if and only if the form is complete and free of errors; otherwise an error response is sent. -/
def HandlesForm (env : Env) (head data : Bytes) (t : Target) (steps : List Step) : Prop :=
  ((∃ s ∈ steps, s.Invokes t) ↔ env.AcceptsForm head data) ∧
    (¬env.AcceptsForm head data → ∃ s ∈ steps, s.AnswersError)

/-- A run in which no handler is run and no error answered. -/
theorem not_handlesForm_of_lost (hi : ∀ s ∈ steps, ¬s.Invokes t) (he : ∀ s ∈ steps, ¬s.AnswersError) :
    ¬HandlesForm env head data t steps := by
  rintro ⟨hiff, hother⟩
  by_cases ha : env.AcceptsForm head data
  · obtain ⟨s, hs, hinv⟩ := hiff.mpr ha
    exact hi s hs hinv
  · obtain ⟨s, hs, hans⟩ := hother ha
    exact he s hs hans

/-- In particular one in which nothing is sent. -/
theorem not_handlesForm_of_silent (h : ∀ s ∈ steps, s.handlers = [] ∧ s.response = []) : ¬HandlesForm env head data t steps :=
  not_handlesForm_of_lost (fun s hs hi => hi.handlers_ne_nil (h s hs).1) fun s hs he => he.response_ne_nil (h s hs).2

end Server

/-! ## What becomes of the connection -/

namespace Connection

variable {env : Env} {c : Connection} {head data fed : Bytes} {reader r : Reader} {calls : List ReaderCall} {t : Target}

/-- A connection that waits for more of a form than was declared: no later read does anything. -/
structure Stalls (c : Connection) : Prop extends WaitsForParts c where
  room : c.req.atCapacity = false

/-- Bytes that come to a connection that stalls leave it stalling. -/
theorem Stalls.process (h : c.Stalls) (env : Env) (a : Bytes) :
    ∃ c', Connection.process env { c with req := Server.receive c.req a } = (c', .state .needRead) ∧ c'.Stalls := by
  have h₁ := h.toWaitsForParts.receive a
  refine ⟨_, h₁.process_eq env h.room, h₁.again, ?_⟩
  rw [Request.setCurrentSize_zero_atCapacity, Request.fitSize, Request.growTo_atCapacity]
  exact h.room

/-- Nothing is sent in a run from such a connection. -/
theorem Stalls.serve (arrivals : List Bytes) : ∀ {c : Connection}, c.Stalls →
    ∀ s ∈ Server.serve env c arrivals, s.handlers = [] ∧ s.response = [] := by
  induction arrivals with
  | nil =>
    intro c _ s hs
    cases hs
  | cons a as ih =>
    intro c h s hs
    cases hstep : Server.step env c a with
    | recvError | ended =>
      rw [Server.serve, hstep] at hs
      rw [List.mem_singleton.mp hs]
      exact ⟨rfl, rfl⟩
    | processed c' answer =>
      obtain ⟨-, -, -, hproc⟩ := Server.step_processed hstep
      obtain ⟨c'', heq, hstalls⟩ := h.process env a
      rw [hproc] at heq
      cases heq
      rw [Server.serve_cons_continues hstep rfl] at hs
      rcases List.mem_cons.mp hs with rfl | hs
      · exact ⟨hstalls.handlers, rfl⟩
      · exact ih hstalls s hs

/-- A connection that has received `data` after the header of a form of `n` bytes, before anything is parsed. -/
structure AtForm (head data : Bytes) (n : Nat) (reader : Reader) (c : Connection) : Prop extends c.HoldsData head data reader where
  bodyLen : c.req.bodyLen = n
  leftBodyLen : c.req.leftBodyLen = n
  fits : head.length + n < 1024
  trace : c.trace = [.peek true]
  log : c.partsLog = {}

namespace AtForm

variable {n : Nat} (h : c.AtForm head data n reader)
include h

/-- The connection after the callbacks. -/
theorem callbacks (env : Env) (r : Reader) (calls : List ReaderCall) {c₁ : Connection}
    (hc₁ : c₁ = calls.foldl (onReaderCall env) { c with req := c.req.setPartData data, reader := r }) :
    c₁.trace.filterMap Act.handler? = [] ∧ (.assertFailed ∈ c₁.trace ↔ (env.parts calls).asserted = true) ∧
      SameMessage c.req c₁.req := by
  obtain ⟨hquiet, hsame⟩ := foldl_setPartData env c data r calls
  rw [← hc₁] at hquiet hsame
  have hlog : c₁.partsLog = env.parts calls := by
    rw [hc₁, partsLog_foldl]
    exact congrArg (calls.foldl (PartsLog.onCall env)) h.log
  refine ⟨hquiet.handlers (by rw [h.trace]; rfl), ?_, hsame⟩
  rw [← hlog]
  exact decide_eq_true_iff.symm

variable (hlive : reader.parser.Live) (hd : (c.req.setPartData data).getPartData = fed)
include hlive hd

/-- The reader throws: the exception leaves `process`. -/
theorem threw (env : Env) {msg : String} (hf : reader.feed fed = .threw r calls msg) :
    ∃ c', handleFirstParts env c = (c', .threw msg) ∧ c'.trace.filterMap Act.handler? = [] := by
  obtain ⟨hnone, -, -⟩ := h.callbacks env r calls rfl
  refine ⟨_, ?_, hnone⟩
  unfold handleFirstParts
  rw [h.toHoldsData.parse_eq env hlive hd, hf]

/-- The reader refuses the form: the answer is `400`. -/
theorem refused (env : Env) {ret : Nat} (hf : reader.feed fed = .returned r calls ret) (he : r.hasError = true) :
    ∃ c', handleFirstParts env c = (c', .state .needWrite) ∧ c'.trace.filterMap Act.handler? = [] ∧
      (.assertFailed ∈ c'.trace ↔ (env.parts calls).asserted = true) ∧
      StatusType.badRequest.toRepString <+: c'.res.repStr := by
  generalize hc₁ : calls.foldl (onReaderCall env) { c with req := c.req.setPartData data, reader := r } = c₁
  obtain ⟨hnone, hassert, -⟩ := h.callbacks env r calls hc₁.symm
  have heq : handleFirstParts env c =
      (({ c₁ with req := { c₁.req with state := .dataError } } : Connection).responseBack .badRequest (bytes "mutipart error"),
        .state .needWrite) := by
    unfold handleFirstParts
    rw [h.toHoldsData.parse_eq env hlive hd, hf]
    simp only [he, if_true, hc₁]
  exact ⟨_, heq, hnone, hassert, Response.toRepString_isPrefix _ _ _⟩

/-- The reader does not refuse the form, and its data is as long as was declared: the handler runs. -/
theorem whole (env : Env) {ret : Nat} (hf : reader.feed fed = .returned r calls ret) (he : r.hasError = false)
    (hn : data.length = n) (hr : env.router.route c.req.getMethod c.req.getUrl = some t) :
    ∃ c' pre q post, handleFirstParts env c = (c', .state .needWrite) ∧ c'.trace = pre ++ .handler t q :: post ∧
      pre.filterMap Act.handler? = [] ∧ (.assertFailed ∈ pre ↔ (env.parts calls).asserted = true) := by
  generalize hc₁ : calls.foldl (onReaderCall env) { c with req := c.req.setPartData data, reader := r } = c₁
  obtain ⟨hnone, hassert, hsame⟩ := h.callbacks env r calls hc₁.symm
  have hpm := h.toHoldsData.parse_eq env hlive hd
  simp only [hf, he, hc₁, Bool.false_eq_true, if_false] at hpm
  obtain ⟨c', acts, heq, htr, -⟩ := handleFirstParts_all h.received (h.bodyLen.trans hn.symm) hpm hsame hr
  exact ⟨c', c₁.trace, _, acts, heq, htr, hnone, hassert⟩

/-- The reader does not refuse the form, but its data is not as long as was declared: the server reads on, in vain. -/
theorem more (env : Env) {ret : Nat} (hf : reader.feed fed = .returned r calls ret) (he : r.hasError = false)
    (hn : data.length ≠ n) : ∃ c', handleFirstParts env c = (c', .state .needRead) ∧ c'.Stalls := by
  have hsmall := h.small
  have hfits := h.fits
  obtain ⟨-, hwaits⟩ := handleFirstParts_part env (c := c) (by rw [h.trace]; rfl) h.headerLen h.curSize (by rw [h.bodyLen]; exact hn)
    (by omega) (h.leftBodyLen.trans h.bodyLen.symm) (by rw [h.bodyLen]; omega)
  generalize hc₁ : calls.foldl (onReaderCall env) { c with req := c.req.setPartData data, reader := r } = c₁
  obtain ⟨-, -, hsame⟩ := h.callbacks env r calls hc₁.symm
  have hpart : (c₁.req.reduceLeftBodySize data.length).hasRecievedAllPart = false := by
    unfold Request.hasRecievedAllPart
    show decide (c₁.req.bodyLen = sizeT (c₁.req.curSize - c₁.req.headerLen)) = false
    rw [hsame.bodyLen, hsame.curSize, hsame.headerLen, h.received, h.bodyLen]
    exact decide_eq_false hn.symm
  have heq : handleFirstParts env c =
      ({ c₁ with req := (c₁.req.reduceLeftBodySize data.length).setCurrentSize 0, continueWork := some .doReadMultipart },
        .state .needRead) := by
    unfold handleFirstParts
    rw [h.toHoldsData.parse_eq env hlive hd, hf]
    simp only [he, hc₁, Bool.false_eq_true, if_false, hpart]
  rw [heq] at hwaits
  refine ⟨_, heq, hwaits rfl, ?_⟩
  rw [Request.setCurrentSize_zero_atCapacity]
  show decide (maxSize < sizeT (c₁.req.headerLen + c₁.req.bodyLen)) = false
  rw [hsame.headerLen, hsame.bodyLen, h.headerLen, h.bodyLen]
  apply decide_eq_false
  rw [show ((head.length : Int) + (n : Int)) = ((head.length + n : Nat) : Int) by omega, sizeT_ofNat (by omega), maxSize]
  omega

end AtForm

end Connection

namespace MultipartRequest

variable {env : Env} {head data : Bytes} {n : Nat} {t : Target}

/-- A first read of a form goes to `handle_multipart`. -/
theorem step_eq (h : MultipartRequest env head n t) (resType : ReqContentType)
    (hu : contains (Head.value head (bytes "content-type")) (bytes "application/x-www-form-urlencoded") = false)
    (hn : n ≤ data.length) (hshort : (head ++ data).length < 1024) : ∃ c : Connection,
      c.AtForm head data n (({} : Reader).setBoundary (delimiter (Head.boundary head)) env.fill) ∧
      env.router.route c.req.getMethod c.req.getUrl = some t ∧
      (c.req.setPartData data).getPartData =
        (if contains (Head.value head (bytes "content-encoding")) (bytes "gzip") then [] else data) ∧
      Server.step env (Server.fresh resType) (head ++ data) =
        .processed (Connection.handleFirstParts env c).1 (Connection.handleFirstParts env c).2 := by
  have h0 := h.complete.len
  have hpos := h.nonempty
  have hlen : head.length + data.length < 1024 := by
    rw [← List.length_append]
    exact hshort
  obtain ⟨q, c, hp, hroute, rfl, htr, hrd, hfile, hfiles, hstep⟩ := Server.step_routed resType (h.complete.append data) hshort
    ((Head.route_append h0 data env.router).trans h.route) h.unchecked.1
  have hb := Server.buffered_received resType hshort
  obtain ⟨h1, h2, h3, -⟩ := h.sizes hb.received hp
  have hcur : c.req.curSize = head.length + data.length := by
    rw [hp.curSize, hb.length_eq, List.length_append]
  have hreceived : c.req.buf.take (head.length + data.length) = head ++ data := by
    rw [← hcur]
    exact hp.received.trans hb.received
  rw [h.handleRequest_eq hb.received hp rfl, hu] at hstep
  refine ⟨{ c with
    reader := c.reader.setBoundary (delimiter (Head.boundary head)) env.fill
    req := { c.req with httpType := .multipart } }, ?_, hroute, ?_, hstep⟩
  · exact
      { headerLen := h1
        curSize := hcur
        nonempty := List.length_pos_iff.mp (by omega)
        small := by omega
        data := by
          show slice c.req.buf head.length (head.length + data.length) = data
          rw [slice, Nat.add_sub_cancel_left, List.take_drop, hreceived, List.drop_left]
        reader := by rw [hrd]
        bodyLen := h2
        leftBodyLen := h3
        fits := by omega
        trace := htr
        log := by
          rw [Connection.partsLog, PartsLog.mk.injEq]
          refine ⟨hp.multipartHeaders, hfile, decide_eq_false ?_, decide_eq_false (not_not.mpr hfiles), decide_eq_false ?_⟩
          · rw [show ({ c.req with httpType := .multipart } : Request).state = .dataBegin from hp.state]
            decide
          · rw [htr]
            simp }
  · have hgz : c.req.hasGzip = contains (Head.value head (bytes "content-encoding")) (bytes "gzip") := by
      rw [hp.hasGzip, hb.received, Head.value_append h0]
    rw [Request.getPartData_setPartData, hgz]

end MultipartRequest

namespace Server

variable {env : Env} {head data : Bytes} {n : Nat} {t : Target}

/-- A run that ends with its first step. -/
theorem handlesForm_singleton {s : Step} : HandlesForm env head data t [s] ↔
    (s.Invokes t ↔ env.AcceptsForm head data) ∧ (¬env.AcceptsForm head data → s.AnswersError) := by
  simp [HandlesForm]

/-- The only handler of a step runs after an assertion has failed. -/
theorem not_invokes_of_asserted {s : Step} {pre post : List Act} {r : Request} (h : s.trace = pre ++ .handler t r :: post)
    (hnone : pre.filterMap Act.handler? = []) (hassert : .assertFailed ∈ pre) : ¬s.Invokes t := by
  rintro ⟨pre', r', post', h', hno⟩
  rw [h, List.append_eq_append_iff] at h'
  rcases h' with ⟨mid, rfl, -⟩ | ⟨mid, rfl, hmid⟩
  · exact hno (List.mem_append_left _ hassert)
  · cases mid with
    | nil =>
      rw [List.append_nil] at hassert
      exact hno hassert
    | cons a mid =>
      obtain ⟨rfl, -⟩ := List.cons.inj hmid
      rw [List.filterMap_append, List.filterMap_cons] at hnone
      exact absurd hnone (List.append_ne_nil_of_right_ne_nil _ (List.cons_ne_nil _ _))

/-- A form that is refused is handled as it should be, unless an assertion has failed before. -/
theorem handlesForm_refused {c : Connection} (hnone : c.trace.filterMap Act.handler? = [])
    (hsent : StatusType.badRequest.toRepString <+: c.res.repStr) (ha : ¬env.AcceptsForm head data) :
    HandlesForm env head data t [.processed c (.state .needWrite)] ↔ .assertFailed ∉ c.trace := by
  rw [handlesForm_singleton]
  constructor
  · rintro ⟨-, hother⟩
    exact (hother ha).1
  · intro hno
    refine ⟨iff_of_false (fun hi => hi.handlers_ne_nil hnone) ha, fun _ => ⟨hno, .badRequest, rfl, hsent⟩⟩

/-- A form for which the handler runs is handled as it should be when no assertion has failed before and the form is complete
and free of errors. -/
theorem handlesForm_handled {c : Connection} {pre post : List Act} {r : Request} (htr : c.trace = pre ++ .handler t r :: post)
    (hnone : pre.filterMap Act.handler? = []) :
    HandlesForm env head data t [.processed c (.state .needWrite)] ↔ .assertFailed ∉ pre ∧ env.AcceptsForm head data := by
  rw [handlesForm_singleton]
  constructor
  · rintro ⟨hiff, hother⟩
    have hno : .assertFailed ∉ pre := by
      intro hassert
      have hinv : ¬(Step.processed c (.state .needWrite)).Invokes t := not_invokes_of_asserted htr hnone hassert
      refine (hother fun hacc => hinv (hiff.mpr hacc)).1 ?_
      show Act.assertFailed ∈ c.trace
      rw [htr]
      exact List.mem_append_left _ hassert
    exact ⟨hno, hiff.mp ⟨pre, r, post, htr, hno⟩⟩
  · rintro ⟨hno, hacc⟩
    exact ⟨iff_of_true ⟨pre, r, post, htr, hno⟩ hacc, fun h => absurd hacc h⟩

/-- A form that is refused is not accepted. -/
theorem not_acceptsForm_of_refused (h : (Head.readForm env.fill head data).refused = true) : ¬env.AcceptsForm head data := by
  rintro ⟨hended, -⟩
  revert h hended
  cases Head.readForm env.fill head data with
  | returned r calls ret =>
    intro h hended
    simp only [ReaderResult.refused, Reader.hasError, Parser.hasError, decide_eq_true_eq] at h
    simp [ReaderResult.ended, Reader.succeeded, Parser.succeeded, h] at hended
  | threw r calls msg => exact fun h _ => by cases h
  | running => exact fun h _ => by cases h

/-- A form whose declared bytes are all in a first read that fits the buffer. -/
theorem handlesForm_short (h : MultipartRequest env head n t) (resType : ReqContentType)
    (hu : contains (Head.value head (bytes "content-type")) (bytes "application/x-www-form-urlencoded") = false)
    (hn : n ≤ data.length) (hshort : (head ++ data).length < 1024) (as : List Bytes) :
    HandlesForm env head data t (serve env (fresh resType) ((head ++ data) :: as)) ↔
      (env.parts (Head.readForm env.fill head data).calls).asserted = false ∧
      ((Head.readForm env.fill head data).refused = true ∨ (data.length = n ∧ env.AcceptsForm head data)) := by
  obtain ⟨c, hc, hroute, hd, hstep⟩ := h.step_eq resType hu hn hshort
  have hlive : (({} : Reader).setBoundary (delimiter (Head.boundary head)) env.fill).parser.Live := Reader.setBoundary_live _ _ _
  have hends : ∀ c' answer, Connection.handleFirstParts env c = (c', answer) → continues answer = false →
      serve env (fresh resType) ((head ++ data) :: as) = [.processed c' answer] := by
    intro c' answer heq hcont
    rw [heq] at hstep
    rw [serve_cons_ends, hstep]
    intro c'' answer' hs
    rw [hstep] at hs
    cases hs
    exact hcont
  cases hf : Head.readForm env.fill head data with
  | running => exact absurd hf (Reader.feed_ne_running hlive _)
  | threw r calls msg =>
    obtain ⟨c', heq, hnone⟩ := hc.threw hlive hd env hf
    rw [hends c' _ heq rfl]
    refine iff_of_false (not_handlesForm_of_silent ?_) ?_
    · intro s hs
      rw [List.mem_singleton.mp hs]
      exact ⟨hnone, rfl⟩
    · rintro ⟨-, hbad | ⟨-, hbad, -⟩⟩
      · cases hbad
      · rw [hf] at hbad
        cases hbad
  | returned r calls ret =>
    show _ ↔ (env.parts calls).asserted = false ∧ (r.hasError = true ∨ _)
    cases he : r.hasError with
    | true =>
      obtain ⟨c', heq, hnone, hassert, hsent⟩ := hc.refused hlive hd env hf he
      rw [hends c' _ heq rfl, handlesForm_refused hnone hsent (not_acceptsForm_of_refused (by rw [hf]; exact he)), hassert]
      simp
    | false =>
      by_cases hlen : data.length = n
      · obtain ⟨c', pre, q, post, heq, htr, hnone, hassert⟩ := hc.whole hlive hd env hf he hlen hroute
        rw [hends c' _ heq rfl, handlesForm_handled htr hnone, hassert]
        simp [hlen]
      · -- the server waits for the bytes that `left_body_len_`, which has wrapped around, still asks for
        obtain ⟨c', heq, hstalls⟩ := hc.more hlive hd env hf he hlen
        rw [heq] at hstep
        rw [serve_cons_continues hstep rfl]
        refine iff_of_false (not_handlesForm_of_silent ?_) (by simp [hlen])
        intro s hs
        rcases List.mem_cons.mp hs with rfl | hs
        · exact ⟨hstalls.handlers, rfl⟩
        · exact hstalls.serve as s hs

/-- **A form whose declared bytes are all in the first read** is handled as it should be exactly when the read fits the first
buffer, no data of an upload comes before one could be opened, and either the reader refuses the form, or the read ends with
the form, the parser gets to `END` and no callback sets `data_error`. -/
theorem handlesForm_iff (h : MultipartRequest env head n t) (resType : ReqContentType)
    (hu : contains (Head.value head (bytes "content-type")) (bytes "application/x-www-form-urlencoded") = false)
    (hn : n ≤ data.length) (as : List Bytes) :
    HandlesForm env head data t (serve env (fresh resType) ((head ++ data) :: as)) ↔
      (head ++ data).length < 1024 ∧ (env.parts (Head.readForm env.fill head data).calls).asserted = false ∧
      ((Head.readForm env.fill head data).refused = true ∨ (data.length = n ∧ env.AcceptsForm head data)) := by
  by_cases hshort : (head ++ data).length < 1024
  · rw [handlesForm_short h resType hu hn hshort]
    exact (and_iff_right hshort).symm
  · refine iff_of_false ?_ fun hc => hshort hc.1
    have hrun : serve env (fresh resType) ((head ++ data) :: as) = [.recvError] := by
      rw [serve_cons_ends, step_fresh_full (by omega)]
      intro c' answer hs
      rw [step_fresh_full (by omega)] at hs
      cases hs
    rw [hrun]
    exact not_handlesForm_of_silent (by simp [Step.handlers, Step.trace, Step.response])

/-- The header of a request with a form of 57 bytes. -/
def formHead : Bytes :=
  bytes "POST / HTTP/1.1\r\nContent-Type: multipart/form-data; boundary=x\r\nContent-Length: 57\r\n\r\n"

/-- The head of a form, for an application with one route. -/
theorem multipartRequest_formHead : MultipartRequest (.bare [(bytes "/", .user 0)]) formHead 57 (.user 0) := by
  decide +kernel

/-- The boundary that the reader is given is the one in the head. -/
theorem readForm_formHead (fill : Nat → UInt8) (data : Bytes) :
    Head.readForm fill formHead data = (({} : Reader).setBoundary (delimiter (bytes "x")) fill).feed data := by
  have hboundary : Head.boundary formHead = bytes "x" := by decide +kernel
  have hgzip : contains (Head.value formHead (bytes "content-encoding")) (bytes "gzip") = false := by decide +kernel
  rw [Head.readForm, hboundary, hgzip]
  rfl

/-- The head of a form is not that of an urlencoded body. -/
theorem formHead_multipart :
    contains (Head.value formHead (bytes "content-type")) (bytes "application/x-www-form-urlencoded") = false := by decide +kernel

/-- A form with one field. -/
theorem handlesForm_iff_field : HandlesForm (.bare [(bytes "/", .user 0)]) formHead
    (bytes "--x\r\nContent-Disposition: form-data; name=\"a\"\r\n\r\n1\r\n--x--") (.user 0)
    (serve (.bare [(bytes "/", .user 0)]) (fresh .none)
      [formHead ++ bytes "--x\r\nContent-Disposition: form-data; name=\"a\"\r\n\r\n1\r\n--x--"]) := by
  refine (handlesForm_iff multipartRequest_formHead .none formHead_multipart (by decide) []).mpr ⟨by decide +kernel, ?_⟩
  rw [Env.AcceptsForm, readForm_formHead]
  decide +kernel

/-- A form that has no closing delimiter: the handler runs, although the parser has not got to `END`. -/
theorem not_handlesForm_unclosed : ¬HandlesForm (.bare [(bytes "/", .user 0)]) formHead
    (bytes "--x\r\nContent-Disposition: form-data; name=\"a\"\r\n\r\n12345678") (.user 0)
    (serve (.bare [(bytes "/", .user 0)]) (fresh .none)
      [formHead ++ bytes "--x\r\nContent-Disposition: form-data; name=\"a\"\r\n\r\n12345678"]) := by
  rw [handlesForm_short multipartRequest_formHead .none formHead_multipart (by decide) (by decide +kernel), Env.AcceptsForm,
    readForm_formHead]
  decide +kernel

end Server
end Netcore
