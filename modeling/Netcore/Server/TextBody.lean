import Netcore.Http.Header
import Netcore.Server.Runs

/-!
# Text bodies over several reads

A request with a text body whose header is in the first read. The buffer starts with 1024 bytes and `expand_size` makes it
exactly as long as the request; `netcore::recv` throws when a read fills the buffer. A request that is shorter than the first
buffer is read to its end and handled with its body; a longer one never leaves a free byte for the last read.
-/

namespace Netcore

open Slices

/-- The header does not name a form or a binary body. -/
def Head.IsText (data : Bytes) : Prop :=
  contains (Head.value data (bytes "content-type")) (bytes "application/x-www-form-urlencoded") = false ∧
    contains (Head.value data (bytes "content-type")) (bytes "multipart/form-data") = false ∧
    contains (Head.value data (bytes "content-type")) (bytes "application/octet-stream") = false

instance decIsText (data : Bytes) : Decidable (Head.IsText data) := inferInstanceAs (Decidable (_ ∧ _ ∧ _))

/-- A request with the header `head` and the text `body`, for which the application has the route `t`. -/
@[mk_iff]
structure TextRequest (env : Env) (head body : Bytes) (t : Target) : Prop where
  complete : Head.Complete head
  len : Head.len head = head.length
  hasLength : Head.value head (bytes "content-length") ≠ []
  contentLength : Head.contentLength head = body.length
  nonempty : body ≠ []
  isText : Head.IsText head
  fits : head.length + body.length ≤ maxSize
  route : Head.route env.router head = some t
  unchecked : env.checkHeaders = none

instance decTextRequest (env : Env) (head body : Bytes) (t : Target) : Decidable (TextRequest env head body t) :=
  decidable_of_iff' _ (textRequest_iff ..)

namespace TextRequest

variable {env : Env} {head body : Bytes} {t : Target} (h : TextRequest env head body t)
include h

/-- The sizes of a request that has the header parsed. -/
theorem sizes {r q : Request} {tl : Bytes} (hr : r.received = head ++ tl) (hp : r.Parsed q) :
    q.headerLen = head.length ∧ q.bodyLen = body.length ∧ q.totalLen = head.length + body.length ∧ q.atCapacity = false := by
  obtain ⟨hlen, hbody, -, -⟩ := hp.sizes_of_head hr h.complete.len h.len h.hasLength h.contentLength
  obtain ⟨htot, hcap⟩ := Request.totalLen_of_head hlen hbody h.fits
  exact ⟨hlen, hbody, htot, hcap⟩

/-- A request with a text body goes to `handle_string_body`. -/
theorem handleRequest_eq {c : Connection} {r : Request} {tl : Bytes} (hr : r.received = head ++ tl) (hp : r.Parsed c.req)
    (hc : r.isChunked = false) : ∃ type : ContentType, type ≠ .multipart ∧
      Connection.handleRequest env c = Connection.handleStringBody env { c with req := { c.req with httpType := type } } := by
  obtain ⟨hhas, hch, hval⟩ := hp.hasBody_of_head hr h.complete.len h.len h.hasLength h.contentLength
    (List.length_pos_iff.mpr h.nonempty) hc
  obtain ⟨h1, h2, h3⟩ := h.isText
  rw [Connection.handleRequest, if_pos hhas, Connection.getContentType, if_neg (by simp [hch]), hval]
  simp only [h1, h2, h3, Bool.false_eq_true, if_false]
  split_ifs with hv hj
  · exact ⟨.unknown, by simp, rfl⟩
  · exact ⟨.json, by simp, rfl⟩
  · exact ⟨.string, by simp, rfl⟩

end TextRequest

/-- What holds between two reads of a text body: no handler was run, and the header parsed so far does not forbid the next
read. -/
structure Connection.Waiting (sent : Bytes) (c : Connection) : Prop where
  work : c.continueWork = none
  buffered : c.req.Buffered sent
  atCapacity : c.req.atCapacity = false
  isChunked : c.req.isChunked = false
  handlers : c.trace.filterMap Act.handler? = []

/-- The buffer is the first one, and nothing was copied out of it. -/
structure Request.Unmoved (r : Request) : Prop where
  length : r.buf.length = 1024
  maxHeaderLen : r.maxHeaderLen = 1048576
  methodStr : r.methodStr = []
  urlStr : r.urlStr = []

theorem Server.length_receive {r : Request} {a : Bytes} (hcur : r.curSize ≤ r.buf.length) (ha : a.length ≤ r.leftSize) :
    (receive r a).buf.length = r.buf.length := by
  unfold Request.leftSize at ha
  exact length_overwrite (by omega)

theorem Request.Unmoved.receive {r : Request} (hu : r.Unmoved) {a : Bytes} (hcur : r.curSize ≤ r.buf.length)
    (ha : a.length ≤ r.leftSize) : (Server.receive r a).Unmoved :=
  ⟨(Server.length_receive hcur ha).trans hu.length, hu.maxHeaderLen, hu.methodStr, hu.urlStr⟩

/-- Parsing the header moves nothing either. -/
theorem Request.Unmoved.expandSize_eq {r : Request} (hu : r.Unmoved) (h : r.totalLen < 1024) : r.expandSize = r := by
  refine growTo_of_le ?_ ?_
  · rw [hu.length]
    exact h.le
  · unfold maxSize
    omega

theorem Request.Unmoved.parsed {r q : Request} (hu : r.Unmoved) (hp : r.Parsed q) : q.Unmoved :=
  ⟨(congrArg List.length hp.buf).trans hu.length, hp.maxHeaderLen.trans hu.maxHeaderLen, hp.methodStr.trans hu.methodStr,
    hp.urlStr.trans hu.urlStr⟩

theorem Server.waiting_fresh (resType : ReqContentType) : (fresh resType).Waiting [] :=
  ⟨rfl, buffered_fresh resType, rfl, rfl, rfl⟩

namespace Connection

variable {env : Env} {c : Connection} {sent : Bytes}

/-- The bytes of a read are put behind the ones before. -/
theorem Waiting.receive (hw : c.Waiting sent) {a : Bytes} (ha : a.length ≤ c.req.leftSize) :
    Waiting (sent ++ a) { c with req := Server.receive c.req a } :=
  ⟨hw.work, hw.buffered.receive ha, hw.atCapacity, hw.isChunked, hw.handlers⟩

/-- The bytes of a read go to `handle_read`. -/
theorem Waiting.process (hw : c.Waiting sent) (a : Bytes) :
    process env { c with req := Server.receive c.req a } = handleRead env { c with req := Server.receive c.req a } :=
  process_none hw.atCapacity hw.work

/-- The connection after a complete header with a route. -/
def routed (c : Connection) (q : Request) (type : ContentType) : Connection :=
  { ({ c with req := q }.log (.peek true)).checkKeepAlive with req := { q with httpType := type } }

theorem routed_trace (c : Connection) (q : Request) (type : ContentType) :
    (routed c q type).trace = c.trace ++ [.peek true] := by
  simp [routed]

theorem routed_continueWork (c : Connection) (q : Request) (type : ContentType) :
    (routed c q type).continueWork = c.continueWork := by
  simp [routed]

theorem routed_handlers (q : Request) (type : ContentType) (h : c.trace.filterMap Act.handler? = []) :
    (routed c q type).trace.filterMap Act.handler? = [] := by
  rw [routed_trace, List.filterMap_append, h]
  rfl

end Connection

namespace TextRequest

variable {env : Env} {head body : Bytes} {t : Target} {c : Connection} (h : TextRequest env head body t)
include h

/-- A complete header with a route and a text body. -/
theorem handleRead_routed {tl : Bytes} {q : Request} {t' : Target} (hr : c.req.received = head ++ tl)
    (hc : c.req.isChunked = false) (hq : c.req.parseHeader env.checkHeaders = (q, Head.len c.req.received))
    (hp : c.req.Parsed q) (ht : env.router.route q.getMethod q.getUrl = some t') : ∃ type, type ≠ .multipart ∧
      Connection.handleRead env c = Connection.handleStringBody env (c.routed q type) := by
  rw [Connection.handleRead_complete hq hp.complete.len ht]
  obtain ⟨type, hne, he⟩ := h.handleRequest_eq (c := ({ c with req := q }.log (.peek true)).checkKeepAlive) hr (by simpa using hp) hc
  refine ⟨type, hne, ?_⟩
  rw [he]
  unfold Connection.routed
  simp

/-- A part of the body is waited for. -/
theorem handleStringBody_waits {tl : Bytes} {q : Request} {r : Request} (hb : r.Buffered (head ++ tl)) (hp : r.Parsed q)
    (hc : r.isChunked = false) (hw : c.continueWork = none) (hh : c.trace.filterMap Act.handler? = [])
    (hlt : (head ++ tl).length < head.length + body.length) (type : ContentType) : ∃ left,
      Connection.handleStringBody env (c.routed q type) = ({ c.routed q type with
        req := { { q with httpType := type }.expandSize with leftBodyLen := left } }, .state .needRead) ∧
      Connection.Waiting (head ++ tl) { c.routed q type with
        req := { { q with httpType := type }.expandSize with leftBodyLen := left } } := by
  obtain ⟨hlen, hbody, htot, hcap⟩ := h.sizes hb.received hp
  have hcur : q.curSize = (head ++ tl).length := by
    rw [hp.curSize, hb.length_eq]
  have hall : q.hasRecievedAll = false := by
    unfold Request.hasRecievedAll
    exact decide_eq_false (by omega)
  have hle : (head ++ tl).length ≤ maxSize := hb.length_eq ▸ hb.curSize.trans hb.length
  have hmax : q.curSize < 18446744073709551615 := by
    unfold maxSize at hle
    omega
  obtain ⟨left, he⟩ := Connection.handleStringBody_part env (c := c.routed q type) hcap hall hp.headerLen_pos.le
    hp.headerLen_le hmax
  have hq : { q with httpType := type }.Buffered (head ++ tl) := by
    refine ⟨hp.received.trans hb.received, ?_, ?_⟩
    · show q.curSize ≤ q.buf.length
      rw [hp.curSize, hp.buf]
      exact hb.curSize
    · show q.buf.length ≤ maxSize
      rw [hp.buf]
      exact hb.length
  obtain ⟨g1, g2, -, g4, -⟩ := Request.growTo_sizes { q with httpType := type } { q with httpType := type }.totalLen
  refine ⟨left, he, ?_, ?_, ?_, ?_, ?_⟩
  · exact (Connection.routed_continueWork c q type).trans hw
  · exact ⟨hq.expandSize.received, hq.expandSize.curSize, hq.expandSize.length⟩
  · show decide (maxSize < sizeT ((Request.growTo _ _).headerLen + (Request.growTo _ _).bodyLen)) = false
    rw [g1, g2]
    exact hcap
  · refine g4.trans ?_
    show q.isChunked = false
    rw [hp.isChunked, hc, hb.received, Head.value_append h.complete.len]
    simp [h.hasLength]
  · exact Connection.routed_handlers q type hh

/-! ## Longer than the first buffer -/

/-- A read of a request that is no shorter than the buffer runs no handler. -/
theorem long_read {sent a : Bytes} {c' : Connection} {answer : Answer} (hw : c.Waiting sent)
    (hlen : c.req.buf.length ≤ head.length + body.length) (hpre : head <+: sent ++ a)
    (hs : Server.step env c a = .processed c' answer) : c'.trace.filterMap Act.handler? = [] ∧
      (Server.continues answer = true → c'.Waiting (sent ++ a) ∧ c'.req.buf.length ≤ head.length + body.length) := by
  obtain ⟨tl, htl⟩ := hpre
  obtain ⟨-, hlt, -, hproc⟩ := Server.step_processed hs
  have hw₁ := hw.receive hlt.le
  have hlen₁ : ({ c with req := Server.receive c.req a } : Connection).req.buf.length ≤ head.length + body.length :=
    (Server.length_receive hw.buffered.curSize hlt.le).trans_le hlen
  rw [hw.process] at hproc
  have hroom : (sent ++ a).length < head.length + body.length := by
    have hcur := hw.buffered.length_eq
    unfold Request.leftSize at hlt
    rw [List.length_append]
    omega
  rw [← htl] at hw₁ hroom ⊢
  generalize ({ c with req := Server.receive c.req a } : Connection) = c₁ at hw₁ hlen₁ hproc
  have hb := hw₁.buffered
  rcases c₁.req.parseHeader_cases env.checkHeaders with ⟨q, hq, -, -⟩ | ⟨-, hl, -⟩ | ⟨q, hq, hp⟩
  · rw [Connection.handleRead_malformed hq] at hproc
    cases hproc
    exact ⟨hw₁.handlers, fun hc => by cases hc⟩
  · rw [hb.received, Head.len_append h.complete.len, h.len] at hl
    omega
  · cases hr : env.router.route q.getMethod q.getUrl with
    | none =>
      rw [Connection.handleRead_notFound hq (by have := hp.complete.len; omega) hr] at hproc
      cases hproc
      refine ⟨?_, fun hc => by cases hc⟩
      rw [Connection.responseBack_trace, Connection.answerNotFound_trace, Connection.log_trace, List.filterMap_append]
      exact List.append_eq_nil_iff.mpr ⟨hw₁.handlers, rfl⟩
    | some t' =>
      obtain ⟨type, -, he⟩ := h.handleRead_routed hb.received hw₁.isChunked hq hp hr
      obtain ⟨left, hpart, hwait⟩ := h.handleStringBody_waits hb hp hw₁.isChunked hw₁.work hw₁.handlers hroom type
      rw [he, hpart] at hproc
      cases hproc
      refine ⟨hwait.handlers, fun _ => ⟨hwait, ?_⟩⟩
      obtain ⟨-, -, htot, -⟩ := h.sizes hb.received hp
      have hbuf : q.buf.length ≤ head.length + body.length := by
        rw [hp.buf]
        exact hlen₁
      have hgrow := Request.growTo_length_le (r := { q with httpType := type }) hbuf h.fits
      rw [← htot] at hgrow ⊢
      exact hgrow

/-- No read of such a request runs a handler. -/
theorem long_run (resType : ReqContentType) (hlong : 1024 ≤ head.length + body.length) {a : Bytes} {as : List Bytes}
    (hpre : head <+: a) {c' : Connection} {answer : Answer}
    (hmem : .processed c' answer ∈ Server.serve env (Server.fresh resType) (a :: as)) :
    c'.trace.filterMap Act.handler? = [] := by
  have hfresh : (Server.fresh resType).req.buf.length ≤ head.length + body.length := by
    rw [Server.fresh_length]
    exact hlong
  rcases Server.mem_serve_cons hmem with hs | ⟨c₁, ans₁, hs, hc, hmem⟩
  · exact (h.long_read (Server.waiting_fresh resType) hfresh hpre hs).1
  · obtain ⟨hw, hlen⟩ := (h.long_read (Server.waiting_fresh resType) hfresh hpre hs).2 hc
    have hstep : ∀ sent c a c' answer, head <+: sent ∧ c.Waiting sent ∧ c.req.buf.length ≤ head.length + body.length →
        Server.step env c a = .processed c' answer → c'.trace.filterMap Act.handler? = [] ∧
        (Server.continues answer = true →
          head <+: sent ++ a ∧ c'.Waiting (sent ++ a) ∧ c'.req.buf.length ≤ head.length + body.length) := by
      rintro sent c a c' answer ⟨hp, hw, hl⟩ hs
      have hp' : head <+: sent ++ a := hp.trans (List.prefix_append _ _)
      obtain ⟨k1, k2⟩ := h.long_read hw hl hp' hs
      exact ⟨k1, fun hc => ⟨hp', k2 hc⟩⟩
    obtain ⟨-, -, hpost⟩ := Server.serve_invariant
      (fun sent c => head <+: sent ∧ c.Waiting sent ∧ c.req.buf.length ≤ head.length + body.length)
      (fun _ c => c.trace.filterMap Act.handler? = []) hstep as _ c₁ ⟨hpre, hw, hlen⟩ c' answer hmem
    exact hpost

/-! ## Shorter than the first buffer -/

/-- The whole body goes to the handler. -/
theorem handleStringBody_delivers {q : Request} {r : Request} {type : ContentType} (hb : r.Buffered (head ++ body))
    (hp : r.Parsed q) (hh : c.trace.filterMap Act.handler? = []) (ht : type ≠ .multipart)
    (hr : env.router.route q.getMethod q.getUrl = some t) : ∃ c', Connection.handleStringBody env (c.routed q type) =
      (c', .state .needWrite) ∧ ∃ r', (Step.processed c' (.state .needWrite)).handlers = [(t, r')] ∧ r'.body = body := by
  obtain ⟨hlen, hbody, htot, hcap⟩ := h.sizes hb.received hp
  have hcur : q.curSize = head.length + body.length := by
    rw [hp.curSize, hb.length_eq, List.length_append]
  have hall : q.hasRecievedAll = true := by
    unfold Request.hasRecievedAll
    exact decide_eq_true (by omega)
  obtain ⟨acts, htr, hquiet⟩ := Connection.callBack_trace (c := c.routed q type) hr
  refine ⟨_, Connection.handleStringBody_all hcap hall ht h.unchecked, { q with httpType := type }, ?_, ?_⟩
  · obtain ⟨hhs, -⟩ := Step.handlers_of_trace (s := .processed (Connection.callBack env (c.routed q type)) (.state .needWrite))
      htr hquiet
    rw [hhs, Connection.routed_handlers q type hh]
    rfl
  · exact hp.body_eq hb.received hb.curSize hlen hbody

/-- A read of a request that is shorter than the first buffer: the handler runs when the request is complete, and not
before. -/
theorem short_read {sent a : Bytes} (hshort : head.length + body.length < 1024) (hw : c.Waiting sent) (hu : c.req.Unmoved)
    (hne : a ≠ []) (hpre : head <+: sent ++ a) (hsub : sent ++ a <+: head ++ body) : ∃ c' answer,
      Server.step env c a = .processed c' answer ∧
      (sent ++ a = head ++ body → answer = .state .needWrite ∧
        ∃ r, (Step.processed c' answer).handlers = [(t, r)] ∧ r.body = body) ∧
      (sent ++ a ≠ head ++ body → answer = .state .needRead ∧ c'.Waiting (sent ++ a) ∧ c'.req.Unmoved) := by
  obtain ⟨tl, htl⟩ := hpre
  have hle : (sent ++ a).length ≤ head.length + body.length := by
    rw [← List.length_append]
    exact hsub.length_le
  have hlen' : sent.length + a.length ≤ head.length + body.length := by
    rwa [List.length_append] at hle
  have hcur := hw.buffered.length_eq
  have hroom : a.length < c.req.leftSize := by
    unfold Request.leftSize
    rw [hu.length]
    omega
  have hw₁ := hw.receive hroom.le
  have hu₁ : ({ c with req := Server.receive c.req a } : Connection).req.Unmoved := hu.receive hw.buffered.curSize hroom.le
  rw [Server.step_eq hne hroom (by unfold maxSize; omega), hw.process]
  refine ⟨_, _, rfl, ?_⟩
  rw [← htl] at hw₁ hsub hle ⊢
  generalize ({ c with req := Server.receive c.req a } : Connection) = c₁ at hw₁ hu₁ ⊢
  have hb := hw₁.buffered
  have hcomp : Head.Complete c₁.req.received := by
    rw [hb.received]
    exact h.complete.append tl
  obtain ⟨q, hq, hp⟩ := Request.parseHeader_complete hcomp hb.curSize (by rw [hb.length_eq, hu₁.maxHeaderLen]; omega)
  rw [← h.unchecked] at hq
  have hr : env.router.route q.getMethod q.getUrl = some t := by
    rw [hp.route hu₁.methodStr hu₁.urlStr, hb.received, Head.route_append h.complete.len, h.route]
  obtain ⟨type, htype, he⟩ := h.handleRead_routed hb.received hw₁.isChunked hq hp hr
  rw [he]
  refine ⟨?_, ?_⟩
  · intro hdone
    rw [hdone] at hb
    obtain ⟨c', hc', r', hhs, hbody⟩ := h.handleStringBody_delivers hb hp hw₁.handlers htype hr
    rw [hc']
    exact ⟨rfl, r', hhs, hbody⟩
  · intro hmore
    have hlt : (head ++ tl).length < head.length + body.length := by
      refine lt_of_le_of_ne hle ?_
      intro heq
      rw [← List.length_append] at heq
      exact hmore (hsub.eq_of_length heq)
    obtain ⟨left, hpart, hwait⟩ := h.handleStringBody_waits hb hp hw₁.isChunked hw₁.work hw₁.handlers hlt type
    rw [hpart]
    refine ⟨rfl, hwait, ?_⟩
    obtain ⟨-, -, htot, -⟩ := h.sizes hb.received hp
    obtain ⟨hlen, hmax, hmethod, hurl⟩ := hu₁.parsed hp
    have hq₁ : ({ q with httpType := type } : Request).Unmoved := ⟨hlen, hmax, hmethod, hurl⟩
    have hsize : ({ q with httpType := type } : Request).totalLen < 1024 := htot.trans_lt hshort
    rw [hq₁.expandSize_eq hsize]
    exact ⟨hlen, hmax, hmethod, hurl⟩

/-- The reads of such a request, from any point after the header on. -/
theorem short_run (hshort : head.length + body.length < 1024) : ∀ (as : List Bytes) (a sent : Bytes) (c : Connection),
    (∀ x ∈ a :: as, x ≠ []) → c.Waiting sent → c.req.Unmoved → head <+: sent ++ a →
    sent ++ (a :: as).flatten = head ++ body → ∃ init last r, Server.serve env c (a :: as) = init ++ [last] ∧
      init.length = as.length ∧ (∀ s ∈ init, s.handlers = [] ∧ s ≠ .recvError) ∧ last ≠ .recvError ∧
      last.handlers = [(t, r)] ∧ r.body = body := by
  intro as
  induction as with
  | nil =>
    intro a sent c hne hw hu hpre hflat
    have hdone : sent ++ a = head ++ body := by simpa using hflat
    obtain ⟨c', answer, hs, hfin, -⟩ := h.short_read hshort hw hu (hne a (by simp)) hpre (hdone ▸ List.prefix_refl _)
    obtain ⟨-, r, hhs, hbody⟩ := hfin hdone
    refine ⟨[], .processed c' answer, r, ?_, rfl, by simp, by simp, hhs, hbody⟩
    rw [Server.serve_singleton, hs]
    rfl
  | cons b as ih =>
    intro a sent c hne hw hu hpre hflat
    have hassoc : (sent ++ a) ++ (b :: as).flatten = head ++ body := by
      rw [← hflat]
      simp
    have hmore : sent ++ a ≠ head ++ body := by
      intro heq
      rw [heq] at hassoc
      have hb : (b :: as).flatten = [] := by simpa using hassoc
      exact hne b (by simp) (by simpa using (List.append_eq_nil_iff.mp hb).1)
    obtain ⟨c', answer, hs, -, hgo⟩ := h.short_read hshort hw hu (hne a (by simp)) hpre ⟨_, hassoc⟩
    obtain ⟨rfl, hw', hu'⟩ := hgo hmore
    obtain ⟨init, last, r, hrun, hlen, hinit, hlast⟩ := ih b (sent ++ a) c' (fun x hx => hne x (List.mem_cons_of_mem a hx)) hw' hu'
      (hpre.trans (List.prefix_append _ _)) hassoc
    refine ⟨.processed c' (.state .needRead) :: init, last, r, ?_, by simp [hlen], ?_, hlast⟩
    · rw [Server.serve_cons_continues hs rfl, hrun]
      rfl
    · intro s hs'
      rcases List.mem_cons.mp hs' with rfl | hs'
      · exact ⟨hw'.handlers, by simp⟩
      · exact hinit s hs'

end TextRequest

namespace Server

/-- The body is delivered: the handler runs once, when the last byte has arrived, with the body, and no read fails. -/
def Delivers (env : Env) (resType : ReqContentType) (arrivals : List Bytes) (t : Target) (body : Bytes) : Prop :=
  ∃ init last r, serve env (fresh resType) arrivals = init ++ [last] ∧ init.length + 1 = arrivals.length ∧
    (∀ s ∈ init, s.handlers = [] ∧ s ≠ .recvError) ∧ last ≠ .recvError ∧ last.handlers = [(t, r)] ∧ r.body = body

/-- A request that is no shorter than the first buffer is not delivered. -/
theorem not_delivers_long {env : Env} {head body : Bytes} {t : Target} (h : TextRequest env head body t)
    (resType : ReqContentType) {a : Bytes} (as : List Bytes) (hpre : head <+: a)
    (hlong : 1024 ≤ head.length + body.length) : ¬Delivers env resType (a :: as) t body := by
  rintro ⟨init, last, r, hrun, -, -, -, hhs, -⟩
  cases last with
  | recvError | ended => cases hhs
  | processed c' answer =>
    have hmem : .processed c' answer ∈ serve env (fresh resType) (a :: as) := by
      rw [hrun]
      simp
    have hnil := h.long_run resType hlong hpre hmem
    have hhs' : c'.trace.filterMap Act.handler? = [(t, r)] := hhs
    rw [hnil] at hhs'
    cases hhs'

/-- A request with a text body and its header in the first read is delivered exactly when it is shorter than the first
buffer, however the rest of it is cut. -/
theorem delivers_iff {env : Env} {head body : Bytes} {t : Target} (h : TextRequest env head body t)
    (resType : ReqContentType) {a : Bytes} {as : List Bytes} (hne : ∀ x ∈ a :: as, x ≠ []) (hpre : head <+: a)
    (hflat : (a :: as).flatten = head ++ body) :
    Delivers env resType (a :: as) t body ↔ head.length + body.length < 1024 := by
  constructor
  · intro hd
    by_contra hlong
    exact not_delivers_long h resType as hpre (by omega) hd
  · intro hshort
    have hun : (fresh resType).req.Unmoved := ⟨fresh_length resType, rfl, rfl, rfl⟩
    obtain ⟨init, last, r, hrun, hlen, hrest⟩ :=
      h.short_run hshort as a [] (fresh resType) hne (waiting_fresh resType) hun hpre hflat
    exact ⟨init, last, r, hrun, by rw [hlen]; rfl, hrest⟩

theorem delivers_iff_hello : Delivers (.bare [(bytes "/", .user 0)]) .none
    [bytes "POST / HTTP/1.1\r\nContent-Length: 5\r\n\r\nhe", bytes "llo"] (.user 0) (bytes "hello") := by
  have h : TextRequest (.bare [(bytes "/", .user 0)]) (bytes "POST / HTTP/1.1\r\nContent-Length: 5\r\n\r\n")
      (bytes "hello") (.user 0) := by
    decide +kernel
  exact (delivers_iff h .none (by decide +kernel) (by decide +kernel) (by decide +kernel)).mpr (by decide +kernel)

/-- A body of 1000 bytes is not delivered: the header and the body together fill the buffer that was made for them. -/
theorem not_delivers_thousand : ¬Delivers (.bare [(bytes "/", .user 0)]) .none
    [bytes "POST / HTTP/1.1\r\nContent-Length: 1000\r\n\r\n" ++ List.replicate 500 97, List.replicate 500 97] (.user 0)
    (List.replicate 1000 97) := by
  have h : TextRequest (.bare [(bytes "/", .user 0)]) (bytes "POST / HTTP/1.1\r\nContent-Length: 1000\r\n\r\n")
      (List.replicate 1000 97) (.user 0) := by
    decide +kernel
  exact not_delivers_long h .none _ (List.prefix_append _ _) (by decide +kernel)

end Server

end Netcore
