import Netcore.Connection.FeedLoops
import Netcore.Connection.Fields
import Netcore.Multipart.RoundTrip
import Netcore.Server.Runs

/-!
# Forms over several reads

A multipart form of text fields whose header is in the first read. When the whole request is in that read, the fields are
collected and the handler runs. Otherwise the connection goes on with `do_read_multipart`, which parses `last_transfer_`
bytes; nothing ever sets that member, so no later byte of the form is parsed and the handler is never run.
-/

namespace Netcore

open Slices Multipart

/-- A text field as a part of a form. -/
def fieldPart (f : Bytes × Bytes) : Part := ⟨fieldHeaders f.1, f.2⟩

/-- The body of a form of text fields, and what follows the closing delimiter. -/
def formBody (b : Bytes) (fields : List (Bytes × Bytes)) (epilogue : Bytes) : Bytes :=
  serialize b (fields.map fieldPart) ++ epilogue

/-- The boundary that the header gives for a form. -/
def Head.boundary (head : Bytes) : Bytes := Connection.formBoundary (Head.value head (bytes "content-type"))

/-- The boundary is read from one line. -/
theorem Head.boundary_cr (head : Bytes) : CR ∉ Head.boundary head := by
  have hvalue := Head.value_cr head (bytes "content-type")
  intro h
  unfold Head.boundary Connection.formBoundary at h
  dsimp only at h
  cases hi : (Head.value head (bytes "content-type")).idxOf? 61 with
  | some pos =>
    simp only [hi] at h
    split_ifs at h
    · exact hvalue (List.mem_of_mem_drop (List.mem_of_mem_drop (List.mem_of_mem_take h)))
    · exact hvalue (List.mem_of_mem_drop h)
  | none =>
    simp only [hi] at h
    split_ifs at h
    · exact hvalue (List.mem_of_mem_drop (List.mem_of_mem_take h))
    · exact hvalue h

/-- A request with the header `head` and a form of `n` bytes, for which the application has the route `t`. -/
@[mk_iff]
structure MultipartRequest (env : Env) (head : Bytes) (n : Nat) (t : Target) : Prop where
  complete : Head.Complete head
  len : Head.len head = head.length
  hasLength : Head.value head (bytes "content-length") ≠ []
  contentLength : Head.contentLength head = n
  nonempty : 0 < n
  multipart : contains (Head.value head (bytes "content-type")) (bytes "multipart/form-data") = true
  route : Head.route env.router head = some t
  unchecked : env.checkHeaders = none ∧ env.uploadCheck = none

/-- A request with the header `head` and a form of text fields, for which the application has the route `t`. -/
@[mk_iff]
structure FormRequest (env : Env) (head b : Bytes) (fields : List (Bytes × Bytes)) (epilogue : Bytes) (t : Target) : Prop where
  complete : Head.Complete head
  len : Head.len head = head.length
  hasLength : Head.value head (bytes "content-length") ≠ []
  contentLength : Head.contentLength head = (formBody b fields epilogue).length
  multipart : contains (Head.value head (bytes "content-type")) (bytes "multipart/form-data") = true
  boundaryCR : CR ∉ b
  nonempty : fields ≠ []
  distinct : (fields.map Prod.fst).Nodup
  names : ∀ f ∈ fields, QUOTE ∉ f.1 ∧ CR ∉ f.1
  contents : ∀ f ∈ fields, ¬delimiter b <:+: f.2
  route : Head.route env.router head = some t
  unchecked : env.checkHeaders = none ∧ env.uploadCheck = none

instance decMultipartRequest (env : Env) (head : Bytes) (n : Nat) (t : Target) : Decidable (MultipartRequest env head n t) :=
  decidable_of_iff' _ (multipartRequest_iff ..)

instance decFormRequest (env : Env) (head b : Bytes) (fields : List (Bytes × Bytes)) (epilogue : Bytes) (t : Target) :
    Decidable (FormRequest env head b fields epilogue t) := decidable_of_iff' _ (formRequest_iff ..)

/-- A `Content-Disposition` that is written so that it can be read back. -/
theorem headerOk_disposition {v : Bytes} (hcr : CR ∉ v) (hsp : v.head? ≠ some SPACE) :
    HeaderOk (bytes "Content-Disposition", v) :=
  ⟨show bytes "Content-Disposition" ≠ [] by decide,
    show ∀ c ∈ bytes "Content-Disposition", isNameChar c = true from List.all_eq_true.mp (by decide), hcr, hsp⟩

/-- A field without line breaks in its name and without the delimiter in its value is a part that can be written. -/
theorem fieldPart_ok {b : Bytes} {f : Bytes × Bytes} (hn : CR ∉ f.1) (hc : ¬delimiter b <:+: f.2) : PartOk b (fieldPart f) := by
  refine ⟨?_, hc⟩
  intro h hh
  rw [fieldPart, fieldHeaders, List.mem_singleton] at hh
  rw [hh]
  refine headerOk_disposition ?_ ?_
  · simp only [disposition, List.mem_append, not_or]
    exact ⟨⟨by decide, hn⟩, by decide⟩
  · simp only [disposition, List.append_assoc]
    rw [List.head?_append_of_ne_nil _ (by decide)]
    decide

/-- The body of a form is not empty. -/
theorem formBody_ne_nil (b : Bytes) (fields : List (Bytes × Bytes)) (epilogue : Bytes) : formBody b fields epilogue ≠ [] := by
  simp [formBody, serialize]

/-- The data that `parse_multipart` gives to the reader. -/
theorem Request.getPartData_setPartData (r : Request) (data : Bytes) :
    (r.setPartData data).getPartData = if r.hasGzip then [] else data := rfl

/-! ## A form that is not complete -/

namespace Connection

variable {c : Connection}

/-- A connection that waits for the rest of a form. -/
structure WaitsForParts (c : Connection) : Prop where
  work : c.continueWork = some .doReadMultipart
  left : c.req.leftBodyLen ≠ 0
  handlers : c.trace.filterMap Act.handler? = []

/-- The first read of a form when it has not exactly the bytes of the form. -/
theorem handleFirstParts_part (env : Env) {len m : Nat} (hh : c.trace.filterMap Act.handler? = []) (hhead : c.req.headerLen = len)
    (hcur : c.req.curSize = len + m) (hm : m ≠ c.req.bodyLen) (hsmall : m < 9223372036854775808)
    (hleft : c.req.leftBodyLen = c.req.bodyLen) (hlt : c.req.bodyLen < 9223372036854775808) :
    (handleFirstParts env c).1.trace.filterMap Act.handler? = [] ∧
      (Server.continues (handleFirstParts env c).2 = true → (handleFirstParts env c).1.WaitsForParts) := by
  have hlen : sizeT (c.req.curSize - c.req.headerLen) = m := by
    rw [hhead, hcur, show ((len + m : Nat) : Int) - (len : Int) = (m : Int) by omega]
    exact sizeT_ofNat (by omega)
  obtain ⟨he, -, -⟩ := parseMultipart_extends env c c.req.headerLen.toNat m
  have hsz := parseMultipart_sizes env c c.req.headerLen.toNat m
  have hquiet := he.handlers hh
  unfold handleFirstParts
  rw [hlen]
  rcases hpm : parseMultipart env c c.req.headerLen.toNat m with ⟨c₁, ans⟩
  rw [hpm] at hsz hquiet
  cases ans with
  | threw msg => exact ⟨hquiet, fun hc => by cases hc⟩
  | hasError err =>
    cases err with
    | true => exact ⟨hquiet, fun hc => by cases hc⟩
    | false =>
      obtain ⟨hb₁, hh₁, hc₁, hl₁⟩ := hsz rfl
      have hpart : c₁.req.hasRecievedAllPart = false := by
        unfold Request.hasRecievedAllPart
        rw [hb₁, hc₁, hh₁, hlen]
        exact decide_eq_false (by omega)
      have hleft₁ : c₁.req.leftBodyLen ≠ 0 := by
        rw [hl₁, hleft]
        split_ifs with h0
        · omega
        · unfold sizeT
          omega
      simp only [hpart, Bool.false_eq_true, if_false]
      refine ⟨hquiet, fun _ => ⟨rfl, ?_, hquiet⟩⟩
      rw [Request.setCurrentSize_zero_leftBodyLen]
      exact hleft₁

/-- A later read of a form: nothing is parsed. -/
theorem WaitsForParts.process_eq (h : c.WaitsForParts) (env : Env) (hcap : c.req.atCapacity = false) :
    process env c = ({ c with req := c.req.fitSize.setCurrentSize 0, continueWork := some .doReadMultipart }, .state .needRead) := by
  obtain ⟨-, -, -, -, hleft⟩ := Request.growTo_sizes c.req c.req.leftBodyLen
  have hfin : c.req.fitSize.bodyFinished = false := by
    unfold Request.bodyFinished
    rw [Request.fitSize, hleft]
    exact decide_eq_false h.left
  rw [process_doReadMultipart hcap h.work, doReadMultipart, parseMultipart, if_pos rfl]
  simp only [hfin, Bool.false_eq_true, if_false]

/-- The connection that `do_read_multipart` leaves goes on waiting for parts. -/
theorem WaitsForParts.again (h : c.WaitsForParts) : WaitsForParts
    { c with req := c.req.fitSize.setCurrentSize 0, continueWork := some .doReadMultipart } := by
  obtain ⟨-, -, -, -, hleft⟩ := Request.growTo_sizes c.req c.req.leftBodyLen
  refine ⟨rfl, ?_, h.handlers⟩
  simp only [Request.setCurrentSize_zero_leftBodyLen]
  rw [Request.fitSize, hleft]
  exact h.left

/-- Bytes that come leave it waiting. -/
theorem WaitsForParts.receive (h : c.WaitsForParts) (a : Bytes) : WaitsForParts { c with req := Server.receive c.req a } :=
  ⟨h.work, h.left, h.handlers⟩

/-- A call of `process` leaves it waiting. -/
theorem WaitsForParts.process (h : c.WaitsForParts) (env : Env) (a : Bytes) :
    (process env { c with req := Server.receive c.req a }).1.trace.filterMap Act.handler? = [] ∧
      (Server.continues (process env { c with req := Server.receive c.req a }).2 = true →
        (process env { c with req := Server.receive c.req a }).1.WaitsForParts) := by
  have h₁ := h.receive a
  cases hcap : ({ c with req := Server.receive c.req a } : Connection).req.atCapacity with
  | true =>
    rw [process_atCapacity hcap]
    exact ⟨h₁.handlers, fun hc => by cases hc⟩
  | false =>
    rw [h₁.process_eq env hcap]
    exact ⟨h₁.handlers, fun _ => h₁.again⟩

end Connection

namespace MultipartRequest

variable {env : Env} {head : Bytes} {n : Nat} {t : Target} (h : MultipartRequest env head n t)
include h

/-- The sizes of a request whose header has been parsed. -/
theorem sizes {r q : Request} {tl : Bytes} (hr : r.received = head ++ tl) (hp : r.Parsed q) :
    q.headerLen = head.length ∧ q.bodyLen = n ∧ q.leftBodyLen = n ∧ q.bodyLen < 9223372036854775808 := by
  obtain ⟨hlen, hbody, hleft, hlt⟩ := hp.sizes_of_head hr h.complete.len h.len h.hasLength h.contentLength
  exact ⟨hlen, hbody, hleft, hbody ▸ hlt⟩

/-- Where a request with a form goes. -/
theorem handleRequest_eq {c : Connection} {r : Request} {tl : Bytes} (hr : r.received = head ++ tl) (hp : r.Parsed c.req)
    (hc : r.isChunked = false) : Connection.handleRequest env c =
      if contains (Head.value head (bytes "content-type")) (bytes "application/x-www-form-urlencoded") then
        (Connection.handleFormUrlencoded env { c with req := { c.req with httpType := .urlencoded } }, .state .needWrite)
      else
        Connection.handleFirstParts env { c with
          reader := c.reader.setBoundary (delimiter (Head.boundary head)) env.fill
          req := { c.req with httpType := .multipart } } := by
  obtain ⟨hhas, hch, hval⟩ := hp.hasBody_of_head hr h.complete.len h.len h.hasLength h.contentLength h.nonempty hc
  have hne : Head.value head (bytes "content-type") ≠ [] := by
    intro hnil
    have := h.multipart
    rw [hnil] at this
    exact absurd this (by decide)
  rw [Connection.handleRequest, if_pos hhas, Connection.getContentType, if_neg (by simp [hch]), hval, if_neg hne]
  split_ifs with hu hm
  · rfl
  · simp only [Connection.handleMultipart, h.unchecked.2]
    rfl
  all_goals exact absurd h.multipart hm

end MultipartRequest

namespace FormRequest

variable {env : Env} {head b epilogue : Bytes} {fields : List (Bytes × Bytes)} {t : Target}
variable (h : FormRequest env head b fields epilogue t)
include h

/-- The request of a form is a multipart request. -/
theorem toMultipartRequest : MultipartRequest env head (formBody b fields epilogue).length t where
  complete := h.complete
  len := h.len
  hasLength := h.hasLength
  contentLength := h.contentLength
  nonempty := List.length_pos_iff.mpr (formBody_ne_nil b fields epilogue)
  multipart := h.multipart
  route := h.route
  unchecked := h.unchecked

/-- A form that is cut: the handler never runs, or the first read is the last. -/
theorem cut_form (resType : ReqContentType) {a : Bytes} {as : List Bytes} (hpre : head <+: a)
    (hlt : a.length < head.length + (formBody b fields epilogue).length) :
    (∃ s, Server.serve env (Server.fresh resType) (a :: as) = [s]) ∨
      ∀ s ∈ Server.serve env (Server.fresh resType) (a :: as), s.handlers = [] := by
  obtain ⟨tl, rfl⟩ := hpre
  have hm : tl.length < (formBody b fields epilogue).length := by
    rw [List.length_append] at hlt
    omega
  by_cases hfit : (head ++ tl).length < 1024
  · obtain ⟨q, c, hp, -, rfl, htr, -, -, -, hstep⟩ := Server.step_routed resType (h.complete.append tl) hfit
      ((Head.route_append h.complete.len tl env.router).trans h.route) h.unchecked.1
    have hb := Server.buffered_received resType hfit
    obtain ⟨h1, h2, h3, h4⟩ := h.toMultipartRequest.sizes hb.received hp
    have hcur : c.req.curSize = head.length + tl.length := by
      rw [hp.curSize, hb.length_eq, List.length_append]
    rw [h.toMultipartRequest.handleRequest_eq hb.received hp rfl] at hstep
    split_ifs at hstep with hu
    · left
      exact ⟨_, Server.serve_cons_ends fun c' answer hs => by rw [hstep] at hs; cases hs; rfl⟩
    · right
      obtain ⟨k1, k2⟩ := Connection.handleFirstParts_part env (c := { c with
        reader := c.reader.setBoundary (delimiter (Head.boundary head)) env.fill
        req := { c.req with httpType := .multipart } }) (by rw [htr]; rfl) h1 hcur (by rw [h2]; exact hm.ne) (by omega) (h3.trans h2.symm) h4
      have hnext : ∀ sent c a c' answer, (fun (_ : Bytes) c => Connection.WaitsForParts c) sent c →
          Server.step env c a = .processed c' answer → c'.trace.filterMap Act.handler? = [] ∧
          (Server.continues answer = true → c'.WaitsForParts) := by
        intro sent c a c' answer hw hs
        obtain ⟨-, -, -, hproc⟩ := Server.step_processed hs
        have hboth := hw.process env a
        rw [hproc] at hboth
        exact hboth
      intro s hs
      cases s with
      | recvError | ended => rfl
      | processed c' answer =>
        rcases Server.mem_serve_cons hs with heq | ⟨c₁, ans₁, heq, hc, hmem⟩
        · rw [hstep] at heq
          cases heq
          exact k1
        · rw [hstep] at heq
          cases heq
          obtain ⟨-, -, hpost⟩ := Server.serve_invariant (fun _ c => Connection.WaitsForParts c)
            (fun _ c => c.trace.filterMap Act.handler? = []) hnext as [] _ (k2 hc) c' answer hmem
          exact hpost
  · left
    refine ⟨_, Server.serve_cons_ends fun c' answer hs => ?_⟩
    rw [Server.step_fresh_full (by omega)] at hs
    cases hs

end FormRequest

/-! ## A form in one read -/

namespace Connection

variable {env : Env} {c : Connection}

/-- A connection that has received `data` after the header `head`, and of which nothing has been parsed. -/
structure HoldsData (head data : Bytes) (reader : Reader) (c : Connection) : Prop where
  headerLen : c.req.headerLen = head.length
  curSize : c.req.curSize = head.length + data.length
  nonempty : data ≠ []
  small : data.length < 1024
  data : slice c.req.buf head.length (head.length + data.length) = data
  reader : c.reader = reader

namespace HoldsData

variable {head data : Bytes} {reader : Reader}

/-- The number of bytes that `handle_multipart` parses. -/
theorem received (h : c.HoldsData head data reader) : sizeT (c.req.curSize - c.req.headerLen) = data.length := by
  have hsmall := h.small
  rw [h.headerLen, h.curSize, show ((head.length + data.length : Nat) : Int) - (head.length : Int) = (data.length : Int) by omega]
  exact sizeT_ofNat (by omega)

/-- `parse_multipart` on the data: one `feed`, of the data or, when the header says `gzip`, of nothing. -/
theorem parse_eq (env : Env) (h : c.HoldsData head data reader) (hlive : reader.parser.Live) {fed : Bytes}
    (hd : (c.req.setPartData data).getPartData = fed) :
    parseMultipart env c c.req.headerLen.toNat (sizeT (c.req.curSize - c.req.headerLen)) =
      match reader.feed fed with
      | .returned r calls _ =>
        let c := calls.foldl (onReaderCall env) { c with req := c.req.setPartData data, reader := r }
        if r.hasError then ({ c with req := { c.req with state := .dataError } }, .hasError true)
        else ({ c with req := c.req.reduceLeftBodySize data.length }, .hasError false)
      | .threw r calls msg =>
        (calls.foldl (onReaderCall env) { c with req := c.req.setPartData data, reader := r }, .threw msg)
      | .running => ({ c with req := c.req.setPartData data }, .hasError true) := by
  have hslice : slice c.req.buf c.req.headerLen.toNat (c.req.headerLen.toNat + data.length) = data := by
    rw [h.headerLen]
    exact h.data
  have hfeed : feedMultipart (fed.length + 1) c.reader fed = reader.feed fed := by
    rw [h.reader, feedMultipart_eq_feed hlive.2]
  unfold parseMultipart
  rw [h.received, if_neg (List.length_pos_iff.mpr h.nonempty).ne', hslice]
  cases hf : reader.feed fed with
  | returned r calls ret => simp only [hd, hfeed, hf]
  | threw r calls msg => simp only [hd, hfeed, hf]
  | running => simp only [hd, hfeed, hf]

end HoldsData

/-- The message after the callbacks for a part of the data. -/
theorem foldl_setPartData (env : Env) (c : Connection) (data : Bytes) (r : Reader) (calls : List ReaderCall) :
    Extends Act.Quiet c (calls.foldl (onReaderCall env) { c with req := c.req.setPartData data, reader := r }) ∧
      SameMessage c.req (calls.foldl (onReaderCall env) { c with req := c.req.setPartData data, reader := r }).req := by
  obtain ⟨h1, h2, -⟩ := foldl_onReaderCall env calls { c with req := c.req.setPartData data, reader := r }
  have hset : SameMessage c.req (c.req.setPartData data) := ⟨rfl, rfl, rfl, rfl, rfl, rfl, rfl, rfl, rfl, rfl⟩
  exact ⟨Extends.trans (Extends.of_eq rfl) h1, hset.trans h2⟩

/-- The handler runs on a form that has been received and accepted. -/
theorem handleFirstParts_all {len : Nat} {c₁ : Connection} {t : Target} (hlen : sizeT (c.req.curSize - c.req.headerLen) = len)
    (hb : c.req.bodyLen = len)
    (hpm : parseMultipart env c c.req.headerLen.toNat (sizeT (c.req.curSize - c.req.headerLen)) =
      ({ c₁ with req := c₁.req.reduceLeftBodySize len }, .hasError false))
    (hsame : SameMessage c.req c₁.req) (hr : env.router.route c.req.getMethod c.req.getUrl = some t) : ∃ c' acts,
      handleFirstParts env c = (c', .state .needWrite) ∧
      c'.trace = c₁.trace ++ .handler t (c₁.req.reduceLeftBodySize len) :: acts ∧ ∀ a ∈ acts, a.Quiet := by
  have hall : (c₁.req.reduceLeftBodySize len).hasRecievedAllPart = true := by
    unfold Request.hasRecievedAllPart
    show decide (c₁.req.bodyLen = sizeT (c₁.req.curSize - c₁.req.headerLen)) = true
    rw [hsame.bodyLen, hsame.curSize, hsame.headerLen, hlen, hb]
    exact decide_eq_true rfl
  have hroute : env.router.route (c₁.req.reduceLeftBodySize len).getMethod (c₁.req.reduceLeftBodySize len).getUrl = some t := by
    rw [← hr]
    unfold Request.getMethod Request.getUrl
    show env.router.route (if c₁.req.method.len ≠ 0 then c₁.req.method.read c₁.req.buf else c₁.req.methodStr)
      (if c₁.req.method.len ≠ 0 then c₁.req.url.read c₁.req.buf else c₁.req.urlStr) = _
    rw [hsame.method, hsame.url, hsame.methodStr, hsame.urlStr, hsame.buf]
  obtain ⟨acts, htr, hquiet⟩ := callBack_trace (c := { c₁ with req := c₁.req.reduceLeftBodySize len }) hroute
  refine ⟨callBack env { c₁ with req := c₁.req.reduceLeftBodySize len }, acts, ?_, htr, hquiet⟩
  unfold handleFirstParts
  rw [hpm]
  simp only [hall, if_true]

end Connection

namespace FormRequest

variable {env : Env} {head b epilogue : Bytes} {fields : List (Bytes × Bytes)} {t : Target}
variable (h : FormRequest env head b fields epilogue t)
include h

/-- The calls of the reader for the whole form. -/
theorem feed_form (fill : Nat → UInt8) : ∃ (r : Reader) (sl : List (Headers × List Bytes)) (ret : Nat),
    (({} : Reader).setBoundary (delimiter b) fill).feed (formBody b fields epilogue) = .returned r (Delivery.callsOf sl) ret ∧
    sl.map (fun x => (x.1, x.2.flatten)) = fields.map (fun f => (fieldHeaders f.1, f.2)) ∧ r.hasError = false := by
  have hok : ∀ p ∈ fields.map fieldPart, PartOk b p := by
    intro p hp
    obtain ⟨f, hf, rfl⟩ := List.mem_map.mp hp
    exact fieldPart_ok (h.names f hf).2 (h.contents f hf)
  obtain ⟨r, sl, ret, hfeed, hsl, hsucc⟩ := feedAll_form b (fields.map fieldPart) epilogue [formBody b fields epilogue] fill
    h.boundaryCR (by simpa using h.nonempty) hok (by simp [formBody_ne_nil]) (by simp [formBody])
  rw [Reader.feedAll_singleton] at hfeed
  refine ⟨r, sl, ret, hfeed, ?_, ?_⟩
  · rw [hsl, List.map_map]
    rfl
  · simp only [Reader.succeeded, Parser.succeeded, decide_eq_true_eq] at hsucc
    simp [Reader.hasError, Parser.hasError, hsucc]

end FormRequest

/-- A connection that has received the body of a form and nothing of which has been parsed. -/
structure Connection.HoldsForm (head body : Bytes) (reader : Reader) (c : Connection) : Prop where
  headerLen : c.req.headerLen = head.length
  bodyLen : c.req.bodyLen = body.length
  curSize : c.req.curSize = head.length + body.length
  nonempty : body ≠ []
  small : body.length < 1024
  body : c.req.body = body
  reader : c.reader = reader
  handlers : c.trace.filterMap Act.handler? = []
  map : c.req.multipartFormMap = []
  headers : c.req.multipartHeaders = []
  state : c.req.state = .dataBegin

/-- A connection that holds a form holds the data of its body. -/
theorem Connection.HoldsForm.toHoldsData {c : Connection} {head body : Bytes} {reader : Reader}
    (h : c.HoldsForm head body reader) : c.HoldsData head body reader where
  headerLen := h.headerLen
  curSize := h.curSize
  nonempty := h.nonempty
  small := h.small
  data := by
    have hbody := h.body
    unfold Request.body at hbody
    rwa [h.headerLen, h.bodyLen] at hbody
  reader := h.reader

/-- The handler gets the fields that the callbacks have collected. -/
theorem Connection.HoldsForm.delivers {env : Env} {c : Connection} {head body data : Bytes} {reader r : Reader} {t : Target}
    {calls : List ReaderCall} {ret : Nat} (h : c.HoldsForm head body reader) (hlive : reader.parser.Live)
    (hr : env.router.route c.req.getMethod c.req.getUrl = some t) (hd : (c.req.setPartData body).getPartData = data)
    (hf : reader.feed data = .returned r calls ret) (he : r.hasError = false) :
    ∃ c' q, handleFirstParts env c = (c', .state .needWrite) ∧
      (Step.processed c' (.state .needWrite)).handlers = [(t, q)] ∧
      q.multipartFormMap =
        (calls.foldl (onReaderCall env) { c with req := c.req.setPartData body, reader := r }).req.multipartFormMap := by
  have hpm := h.toHoldsData.parse_eq env hlive hd
  simp only [hf, he, Bool.false_eq_true, if_false] at hpm
  obtain ⟨hquiet, hsame⟩ := foldl_setPartData env c body r calls
  obtain ⟨c', acts, hpart, htr, hacts⟩ := handleFirstParts_all h.toHoldsData.received h.bodyLen hpm hsame hr
  obtain ⟨hhs, -⟩ := Step.handlers_of_trace (s := .processed c' (.state .needWrite)) htr hacts
  rw [hquiet.handlers h.handlers, List.nil_append] at hhs
  exact ⟨c', _, hpart, hhs, rfl⟩

/-- A form that the reader refuses is answered with an error. -/
theorem Connection.HoldsForm.refused {env : Env} {c : Connection} {head body : Bytes} {reader r : Reader}
    {calls : List ReaderCall} {ret : Nat} (h : c.HoldsForm head body reader) (hlive : reader.parser.Live)
    (hd : (c.req.setPartData body).getPartData = body) (hf : reader.feed body = .returned r calls ret) (he : r.hasError = true) :
    (Step.processed (handleFirstParts env c).1 (handleFirstParts env c).2).handlers = [] := by
  obtain ⟨hquiet, -⟩ := foldl_setPartData env c body r calls
  unfold handleFirstParts
  rw [h.toHoldsData.parse_eq env hlive hd, hf]
  simp only [he, if_true]
  exact hquiet.handlers h.handlers

/-- An act that runs no handler on a request with form fields. -/
def Act.NoFields : Act → Prop
  | .handler _ r => r.multipartFormMap = []
  | _ => True

/-- Without fields the handling of an urlencoded body adds none. -/
theorem Connection.handleFormUrlencoded_noFields (env : Env) {c : Connection} (h : c.req.multipartFormMap = []) :
    Extends Act.NoFields c (handleFormUrlencoded env c) := by
  have hcall : ∀ c₁ : Connection, c₁.req.multipartFormMap = [] → Extends Act.NoFields c₁ (callBack env c₁) := by
    intro c₁ h₁
    refine (callBack_extends env c₁).mono ?_
    intro a ha
    cases a with
    | handler t r =>
      have hr : r = c₁.req := ha
      rw [hr]
      exact h₁
    | _ => trivial
  unfold handleFormUrlencoded handleUrlUrlencodedBody
  dsimp only
  split_ifs
  · exact Extends.of_eq rfl
  · exact Extends.of_eq rfl
  · exact Extends.of_eq rfl
  · exact Extends.trans (Extends.of_eq rfl) (hcall _ h)
  · exact Extends.of_eq rfl

/-- The header and the names are such that the form is parsed, and each part of it taken for a text field. -/
@[mk_iff]
structure FormRequest.Plain (head b : Bytes) (fields : List (Bytes × Bytes)) : Prop where
  boundary : Head.boundary head = b
  multipart : contains (Head.value head (bytes "content-type")) (bytes "application/x-www-form-urlencoded") = false
  unpacked : contains (Head.value head (bytes "content-encoding")) (bytes "gzip") = false
  names : ∀ f ∈ fields, GoodName f.1

instance decPlain (head b : Bytes) (fields : List (Bytes × Bytes)) : Decidable (FormRequest.Plain head b fields) :=
  decidable_of_iff' _ (FormRequest.plain_iff ..)

namespace FormRequest

variable {env : Env} {head b epilogue : Bytes} {fields : List (Bytes × Bytes)} {t : Target}
variable (h : FormRequest env head b fields epilogue t)
include h

/-- The calls of a form of text fields. -/
theorem fieldCalls {sl : List (Headers × List Bytes)}
    (hsl : sl.map (fun x => (x.1, x.2.flatten)) = fields.map (fun f => (fieldHeaders f.1, f.2))) :
    ∀ call ∈ Delivery.callsOf sl, Connection.FieldCall call := by
  apply Connection.fieldCall_of_mem
  intro x hx
  have hx' : (x.1, x.2.flatten) ∈ fields.map (fun f => (fieldHeaders f.1, f.2)) := by
    rw [← hsl]
    exact List.mem_map_of_mem hx
  obtain ⟨g, hg, heq⟩ := List.mem_map.mp hx'
  injection heq with h1 h2
  exact ⟨g.1, (h.names g hg).1, h1.symm⟩

/-- A field that is missing in every request that the handler gets. -/
def Misses (fields : List (Bytes × Bytes)) (t : Target) (s : Step) : Prop :=
  ∀ q, s.handlers = [(t, q)] → ∃ f ∈ fields, OrderedMap.find q.multipartFormMap f.1 = none

/-- A type that is taken for that of a form of another kind: no handler runs on a request with fields. -/
theorem outcome_urlencoded {c : Connection} (hmap : c.req.multipartFormMap = []) (htrace : ∀ act ∈ c.trace, act.NoFields) :
    Misses fields t (.processed (Connection.handleFormUrlencoded env c) (.state .needWrite)) := by
  have hall := (Connection.handleFormUrlencoded_noFields env hmap).forall_mem htrace
  intro r hr
  have hmem : (t, r) ∈ (Step.processed (Connection.handleFormUrlencoded env c) (.state .needWrite)).handlers := by
    rw [hr]
    simp
  obtain ⟨act, hact, heq⟩ := List.mem_filterMap.mp hmem
  obtain ⟨f, hf⟩ := List.exists_mem_of_ne_nil fields h.nonempty
  refine ⟨f, hf, ?_⟩
  cases act with
  | handler t' r' =>
    cases heq
    have hnil : r.multipartFormMap = [] := hall _ hact
    rw [hnil, OrderedMap.find_nil]
  | _ => cases heq

/-- A header that says `gzip`: the reader is given `gzip_str_`, which is empty, and the handler runs without fields. -/
theorem outcome_gzip {c : Connection}
    (hc : c.HoldsForm head (formBody b fields epilogue) (({} : Reader).setBoundary (delimiter (Head.boundary head)) env.fill))
    (hroute : env.router.route c.req.getMethod c.req.getUrl = some t) (hzip : c.req.hasGzip = true) :
    ∃ c', Connection.handleFirstParts env c = (c', .state .needWrite) ∧ Misses fields t (.processed c' (.state .needWrite)) := by
  have hdata : (c.req.setPartData (formBody b fields epilogue)).getPartData = [] := by
    rw [Request.getPartData_setPartData, if_pos hzip]
  obtain ⟨c', q, hc', hhs, hq⟩ := hc.delivers (Reader.setBoundary_live _ _ _)
    (r := ({} : Reader).setBoundary (delimiter (Head.boundary head)) env.fill) hroute hdata rfl rfl
  refine ⟨c', hc', ?_⟩
  intro q' hq'
  rw [hhs] at hq'
  cases hq'
  obtain ⟨f, hf⟩ := List.exists_mem_of_ne_nil fields h.nonempty
  refine ⟨f, hf, ?_⟩
  rw [hq]
  exact (congrArg (OrderedMap.find · f.1) hc.map).trans (OrderedMap.find_nil f.1)

/-- A boundary that is not the one of the header: the first line of the form is not the delimiter line that the reader waits
for, and the handler does not run. -/
theorem outcome_refused {c : Connection}
    (hc : c.HoldsForm head (formBody b fields epilogue) (({} : Reader).setBoundary (delimiter (Head.boundary head)) env.fill))
    (hzip : c.req.hasGzip = false) (hbd : Head.boundary head ≠ b) :
    Misses fields t (.processed (Connection.handleFirstParts env c).1 (Connection.handleFirstParts env c).2) := by
  have hdata : (c.req.setPartData (formBody b fields epilogue)).getPartData = formBody b fields epilogue := by
    rw [Request.getPartData_setPartData, if_neg (ne_true_of_eq_false hzip)]
  obtain ⟨r, calls, ret, hfeed, herr⟩ := feedAll_wrong_boundary (Head.boundary_cr head) h.boundaryCR hbd
    (serializeParts b (fields.map fieldPart) ++ epilogue) env.fill
  rw [show [HYPHEN, HYPHEN] ++ b ++ CRLF ++ (serializeParts b (fields.map fieldPart) ++ epilogue) = formBody b fields epilogue by
    simp [formBody, serialize], Reader.feedAll_singleton] at hfeed
  intro q hq
  rw [hc.refused (Reader.setBoundary_live _ _ _) hdata hfeed herr] at hq
  cases hq

/-- The form is parsed: the handler gets all fields when their names are good, else one is missing. -/
theorem outcome_parsed {c : Connection}
    (hc : c.HoldsForm head (formBody b fields epilogue) (({} : Reader).setBoundary (delimiter b) env.fill))
    (hroute : env.router.route c.req.getMethod c.req.getUrl = some t) (hzip : c.req.hasGzip = false) :
    ∃ c', Connection.handleFirstParts env c = (c', .state .needWrite) ∧
      ((∀ f ∈ fields, GoodName f.1) → ∃ q, (Step.processed c' (.state .needWrite)).handlers = [(t, q)] ∧
        ∀ f ∈ fields, OrderedMap.find q.multipartFormMap f.1 = some f.2) ∧
      ((∃ f ∈ fields, ¬GoodName f.1) → Misses fields t (.processed c' (.state .needWrite))) := by
  have hnew : ∀ k, OrderedMap.find c.req.multipartFormMap k = none := by
    intro k
    rw [hc.map, OrderedMap.find_nil]
  have hdata : (c.req.setPartData (formBody b fields epilogue)).getPartData = formBody b fields epilogue := by
    rw [Request.getPartData_setPartData, if_neg (ne_true_of_eq_false hzip)]
  obtain ⟨r, sl, ret, hfeed, hsl, herr⟩ := h.feed_form env.fill
  obtain ⟨c', q, hc', hhs, hq⟩ := hc.delivers (Reader.setBoundary_live _ _ _) hroute hdata hfeed herr
  have hone : Connection.OneHeader c.req := .inl hc.headers
  refine ⟨c', hc', ?_, ?_⟩
  · intro hnames
    have hcol : Connection.Collecting { c with req := c.req.setPartData (formBody b fields epilogue), reader := r } := by
      refine ⟨hone, ?_⟩
      show c.req.state ≠ .dataError
      rw [hc.state]
      decide
    refine ⟨q, hhs, ?_⟩
    rw [hq]
    exact (Connection.foldl_callsOf hsl hcol (fun f hf => ⟨hnames f hf, (h.names f hf).1, hnew f.1⟩) h.distinct).1
  · rintro ⟨f, hf, hn⟩ q' hq'
    rw [hhs] at hq'
    cases hq'
    refine ⟨f, hf, ?_⟩
    have hlacks : Connection.Lacks f.1 { c with req := c.req.setPartData (formBody b fields epilogue), reader := r } :=
      ⟨hnew f.1, hone⟩
    rw [hq]
    exact (Connection.foldl_lacks hn (h.fieldCalls hsl) hlacks).1

/-- A form that was received whole and goes to `handle_multipart`: the handler gets all fields, or it does not run, or at least
one field is missing. -/
theorem multipart_outcome {c : Connection}
    (hc : c.HoldsForm head (formBody b fields epilogue) (({} : Reader).setBoundary (delimiter (Head.boundary head)) env.fill))
    (hroute : env.router.route c.req.getMethod c.req.getUrl = some t)
    (hgz : c.req.hasGzip = contains (Head.value head (bytes "content-encoding")) (bytes "gzip"))
    (hu : contains (Head.value head (bytes "content-type")) (bytes "application/x-www-form-urlencoded") = false) :
    ∃ c' answer, Connection.handleFirstParts env c = (c', answer) ∧
      (Plain head b fields → ∃ q, (Step.processed c' answer).handlers = [(t, q)] ∧
        ∀ f ∈ fields, OrderedMap.find q.multipartFormMap f.1 = some f.2) ∧
      (¬Plain head b fields → Misses fields t (.processed c' answer)) := by
  cases hzip : contains (Head.value head (bytes "content-encoding")) (bytes "gzip") with
  | true =>
    obtain ⟨c', hc', hmiss⟩ := h.outcome_gzip hc hroute (hgz.trans hzip)
    refine ⟨c', _, hc', ?_, fun _ => hmiss⟩
    intro hplain
    rw [hplain.unpacked] at hzip
    cases hzip
  | false =>
    by_cases hbd : Head.boundary head = b
    · rw [hbd] at hc
      obtain ⟨c', hc', hgood, hmiss⟩ := h.outcome_parsed hc hroute (hgz.trans hzip)
      refine ⟨c', _, hc', fun hplain => hgood hplain.names, fun hbad => hmiss ?_⟩
      by_contra hno
      push Not at hno
      exact hbad ⟨hbd, hu, hzip, hno⟩
    · exact ⟨_, _, rfl, fun hplain => absurd hplain.boundary hbd, fun _ => h.outcome_refused hc (hgz.trans hzip) hbd⟩

/-- A form in one read: the handler gets all fields, or at least one is missing. -/
theorem whole_form (resType : ReqContentType) (hshort : head.length + (formBody b fields epilogue).length < 1024) :
    ∃ s, Server.serve env (Server.fresh resType) [head ++ formBody b fields epilogue] = [s] ∧
      (Plain head b fields → ∃ r, s.handlers = [(t, r)] ∧ ∀ f ∈ fields, OrderedMap.find r.multipartFormMap f.1 = some f.2) ∧
      (¬Plain head b fields → ∀ r, s.handlers = [(t, r)] → ∃ f ∈ fields, OrderedMap.find r.multipartFormMap f.1 = none) := by
  have h0 := h.complete.len
  have hlt : (head ++ formBody b fields epilogue).length < 1024 := by
    rw [List.length_append]
    exact hshort
  obtain ⟨q, c, hp, hroute, rfl, htr, hrd, -, -, hstep⟩ := Server.step_routed resType (h.complete.append _) hlt
    ((Head.route_append h0 _ env.router).trans h.route) h.unchecked.1
  have hb := Server.buffered_received resType hlt
  obtain ⟨h1, h2, -, -⟩ := h.toMultipartRequest.sizes hb.received hp
  have hmap : c.req.multipartFormMap = [] := hp.multipartFormMap
  refine ⟨_, Server.serve_singleton _ _ _, ?_⟩
  rw [hstep, h.toMultipartRequest.handleRequest_eq hb.received hp rfl]
  split_ifs with hu
  · -- the type is taken for that of a form of another kind
    refine ⟨?_, ?_⟩
    · intro hplain
      rw [hplain.multipart] at hu
      cases hu
    · intro _
      exact h.outcome_urlencoded hmap (by rw [htr]; simp [Act.NoFields])
  · have hholds : Connection.HoldsForm head (formBody b fields epilogue)
        (({} : Reader).setBoundary (delimiter (Head.boundary head)) env.fill)
        { c with
          reader := c.reader.setBoundary (delimiter (Head.boundary head)) env.fill
          req := { c.req with httpType := .multipart } } :=
      { headerLen := h1
        bodyLen := h2
        curSize := by
          show c.req.curSize = _
          rw [hp.curSize, hb.length_eq, List.length_append]
        nonempty := formBody_ne_nil b fields epilogue
        small := by omega
        body := hp.body_eq hb.received hb.curSize h1 h2
        reader := by rw [hrd]
        handlers := by
          show c.trace.filterMap _ = []
          rw [htr]
          rfl
        map := hmap
        headers := hp.multipartHeaders
        state := hp.state }
    have hgz : c.req.hasGzip = contains (Head.value head (bytes "content-encoding")) (bytes "gzip") := by
      rw [hp.hasGzip, hb.received, Head.value_append h0]
    obtain ⟨c', answer, hc', hgood, hbad⟩ := h.multipart_outcome hholds hroute hgz (by simpa using hu)
    rw [hc']
    exact ⟨hgood, hbad⟩

end FormRequest

namespace Server

variable {env : Env} {head b epilogue : Bytes} {fields : List (Bytes × Bytes)} {t : Target}

/-- The form is delivered: the handler runs once, when the last byte has arrived, with every field and its content. -/
def DeliversForm (env : Env) (resType : ReqContentType) (arrivals : List Bytes) (t : Target)
    (fields : List (Bytes × Bytes)) : Prop :=
  ∃ init last r, serve env (fresh resType) arrivals = init ++ [last] ∧ init.length + 1 = arrivals.length ∧
    (∀ s ∈ init, s.handlers = []) ∧ last.handlers = [(t, r)] ∧
    ∀ f ∈ fields, OrderedMap.find r.multipartFormMap f.1 = some f.2

/-- A form that takes more than one read is not delivered. -/
theorem not_deliversForm_cut (h : FormRequest env head b fields epilogue t) (resType : ReqContentType) {a₁ a₂ : Bytes}
    {as : List Bytes} (hne : a₂ ≠ []) (hpre : head <+: a₁)
    (hflat : (a₁ :: a₂ :: as).flatten = head ++ formBody b fields epilogue) :
    ¬DeliversForm env resType (a₁ :: a₂ :: as) t fields := by
  have hlt : a₁.length < head.length + (formBody b fields epilogue).length := by
    have := congrArg List.length hflat
    have hpos := List.length_pos_iff.mpr hne
    simp only [List.flatten_cons, List.length_append] at this
    omega
  rintro ⟨init, last, r, hrun, hlen, -, hhs, -⟩
  rcases h.cut_form resType hpre hlt with ⟨s, hs⟩ | hnone
  · have := congrArg List.length (hrun.symm.trans hs)
    simp only [List.length_append, List.length_cons, List.length_nil] at this hlen
    omega
  · have := hnone last (by rw [hrun]; simp)
    rw [this] at hhs
    cases hhs

/-- A form that does not fit the first buffer is not delivered. -/
theorem not_deliversForm_long (resType : ReqContentType) {a : Bytes} (hlong : 1024 ≤ a.length) :
    ¬DeliversForm env resType [a] t fields := by
  rintro ⟨init, last, r, hrun, hlen, -, hhs, -⟩
  obtain rfl : init = [] := by simpa using hlen
  rw [serve_singleton, step_fresh_full hlong] at hrun
  obtain rfl : Step.recvError = last := by simpa using hrun
  cases hhs

/-- A form of text fields whose header is in the first read is delivered exactly when the whole request is in that read and
shorter than the first buffer, and header and names are such that it is parsed as what it is. -/
theorem deliversForm_iff (h : FormRequest env head b fields epilogue t) (resType : ReqContentType) {a : Bytes}
    {as : List Bytes} (hne : ∀ x ∈ a :: as, x ≠ []) (hpre : head <+: a)
    (hflat : (a :: as).flatten = head ++ formBody b fields epilogue) :
    DeliversForm env resType (a :: as) t fields ↔
      as = [] ∧ head.length + (formBody b fields epilogue).length < 1024 ∧ FormRequest.Plain head b fields := by
  cases as with
  | cons a₂ as => exact iff_of_false (not_deliversForm_cut h resType (hne a₂ (by simp)) hpre hflat) (by simp)
  | nil =>
    obtain rfl : a = head ++ formBody b fields epilogue := by simpa using hflat
    by_cases hshort : head.length + (formBody b fields epilogue).length < 1024
    · obtain ⟨s, hs, hgood, hbad⟩ := h.whole_form resType hshort
      constructor
      · rintro ⟨init, last, r, hrun, hlen, -, hhs, hall⟩
        obtain rfl : init = [] := by simpa using hlen
        obtain rfl : s = last := by simpa using hs.symm.trans hrun
        refine ⟨rfl, hshort, ?_⟩
        by_contra hplain
        obtain ⟨f, hf, hnone⟩ := hbad hplain r hhs
        rw [hall f hf] at hnone
        cases hnone
      · rintro ⟨-, -, hplain⟩
        obtain ⟨r, hhs, hall⟩ := hgood hplain
        exact ⟨[], s, r, hs, rfl, by simp, hhs, hall⟩
    · refine iff_of_false (not_deliversForm_long resType ?_) fun hc => hshort hc.2.1
      rw [List.length_append]
      omega

/-- A request with the fields `a` and `b`. -/
theorem formRequest_two : FormRequest (.bare [(bytes "/", .user 0)])
    (bytes "POST / HTTP/1.1\r\nContent-Type: multipart/form-data; boundary=x\r\nContent-Length: 110\r\n\r\n") (bytes "x")
    [(bytes "a", bytes "1"), (bytes "b", [])] CRLF (.user 0) := by
  decide +kernel

theorem deliversForm_iff_two : DeliversForm (.bare [(bytes "/", .user 0)]) .none
    [bytes "POST / HTTP/1.1\r\nContent-Type: multipart/form-data; boundary=x\r\nContent-Length: 110\r\n\r\n" ++
      bytes "--x\r\nContent-Disposition: form-data; name=\"a\"\r\n\r\n1\r\n" ++
      bytes "--x\r\nContent-Disposition: form-data; name=\"b\"\r\n\r\n\r\n--x--\r\n"]
    (.user 0) [(bytes "a", bytes "1"), (bytes "b", [])] :=
  (deliversForm_iff formRequest_two .none (by decide +kernel) (by decide +kernel) (by decide +kernel)).mpr
    (by decide +kernel)

/-- The same request, cut between its two fields: the handler is never run. -/
theorem not_deliversForm_two_reads : ¬DeliversForm (.bare [(bytes "/", .user 0)]) .none
    [bytes "POST / HTTP/1.1\r\nContent-Type: multipart/form-data; boundary=x\r\nContent-Length: 110\r\n\r\n" ++
      bytes "--x\r\nContent-Disposition: form-data; name=\"a\"\r\n\r\n1\r\n",
      bytes "--x\r\nContent-Disposition: form-data; name=\"b\"\r\n\r\n\r\n--x--\r\n"]
    (.user 0) [(bytes "a", bytes "1"), (bytes "b", [])] :=
  not_deliversForm_cut formRequest_two .none (by decide +kernel) (by decide +kernel) (by decide +kernel)

end Server

end Netcore
