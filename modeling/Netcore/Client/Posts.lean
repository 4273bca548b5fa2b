import Netcore.Client.Exchange

/-!
# A `POST` and its response

`post` of a new client against the server. The body of the request arrives after the head, in any pieces, and the server is silent until
its last byte is there. Then the handler runs once, on the body that the client was given, and its response is the only thing that is
sent.

`post_answered` has this for requests that fit the first buffer and whose head is in the first read; what becomes of others is said in
`Netcore.Server.TextBody` and `Netcore.Server.Segmentation`.
-/

namespace Netcore

open Slices

/-! ## The reads of the server -/

/-- Between two reads of a text body nothing has been answered either. -/
structure Connection.Silent (sent : Bytes) (c : Connection) : Prop where
  waiting : c.Waiting sent
  unmoved : c.req.Unmoved
  fresh : c.res.Fresh

/-- The connection when a read has completed a request: what the handler is called with. -/
structure Connection.HasRequest (env : Env) (head body : Bytes) (t : Target) (c : Connection) : Prop where
  fresh : c.res.Fresh
  handlers : c.trace.filterMap Act.handler? = []
  route : env.router.route c.req.getMethod c.req.getUrl = some t
  body : c.req.body = body
  method : c.req.getMethod = Head.method head
  url : c.req.getUrl = if (phrParseRequest head).method.len ≠ 0 then Head.url head else []

theorem Server.silent_fresh (resType : ReqContentType) : (fresh resType).Silent [] :=
  ⟨waiting_fresh resType, ⟨fresh_length resType, rfl, rfl, rfl⟩, rfl, rfl⟩

theorem Connection.routed_fresh {c : Connection} (h : c.res.Fresh) (q : Request) (type : ContentType) : (c.routed q type).res.Fresh := by
  obtain ⟨keep, ws, up, hk⟩ := checkKeepAlive_eq ({ c with req := q }.log (.peek true))
  unfold routed
  rw [hk]
  exact ⟨h.headers, h.cookie⟩

namespace TextRequest

variable {env : Env} {head body : Bytes} {t : Target} {c : Connection} (h : TextRequest env head body t)
include h

/-- A read of a request that is shorter than the first buffer, once its head is there: what is left of the step is `handleStringBody`. -/
theorem read_routed {sent a : Bytes} (hshort : head.length + body.length < 1024) (hc : c.Silent sent) (hne : a ≠ [])
    (hpre : head <+: sent ++ a) (hsub : sent ++ a <+: head ++ body) :
    ∃ (tl : Bytes) (c₀ : Connection) (q : Request) (type : ContentType), sent ++ a = head ++ tl ∧ c₀.Silent (head ++ tl) ∧
      c₀.req.Parsed q ∧ type ≠ .multipart ∧ env.router.route q.getMethod q.getUrl = some t ∧
        Server.step env c a = .processed (Connection.handleStringBody env (c₀.routed q type)).1
          (Connection.handleStringBody env (c₀.routed q type)).2 := by
  obtain ⟨tl, htl⟩ := hpre
  have hle : (sent ++ a).length ≤ head.length + body.length := by
    rw [← List.length_append]
    exact hsub.length_le
  have hcur := hc.waiting.buffered.length_eq
  have hroom : a.length < c.req.leftSize := by
    unfold Request.leftSize
    rw [hc.unmoved.length]
    rw [List.length_append] at hle
    omega
  have hlen : c.req.curSize + a.length ≤ maxSize := by
    rw [List.length_append] at hle
    unfold maxSize
    omega
  have hw₁ := hc.waiting.receive hroom.le
  have hu₁ : ({ c with req := Server.receive c.req a } : Connection).req.Unmoved :=
    hc.unmoved.receive hc.waiting.buffered.curSize hroom.le
  have hf₁ : ({ c with req := Server.receive c.req a } : Connection).res.Fresh := hc.fresh
  rw [Server.step_eq hne hroom hlen, hc.waiting.process]
  rw [← htl] at hw₁ hle ⊢
  generalize ({ c with req := Server.receive c.req a } : Connection) = c₀ at hw₁ hu₁ hf₁ ⊢
  have hb := hw₁.buffered
  have hcomp : Head.Complete c₀.req.received := by
    rw [hb.received]
    exact h.complete.append tl
  obtain ⟨q, hq, hp⟩ := Request.parseHeader_complete hcomp hb.curSize (by rw [hb.length_eq, hu₁.maxHeaderLen]; omega)
  rw [← h.unchecked] at hq
  have hr : env.router.route q.getMethod q.getUrl = some t := by
    rw [hp.route hu₁.methodStr hu₁.urlStr, hb.received, Head.route_append h.complete.len, h.route]
  obtain ⟨type, htype, he⟩ := h.handleRead_routed hb.received hw₁.isChunked hq hp hr
  exact ⟨tl, c₀, q, type, rfl, ⟨hw₁, hu₁, hf₁⟩, hp, htype, hr, by rw [he]⟩

/-- The read that completes the request: the handler is called. -/
theorem read_completes {sent a : Bytes} (hshort : head.length + body.length < 1024) (hc : c.Silent sent) (hne : a ≠ [])
    (hpre : head <+: sent ++ a) (hdone : sent ++ a = head ++ body) : ∃ c₁ : Connection,
      Server.step env c a = .processed (Connection.callBack env c₁) (.state .needWrite) ∧ c₁.HasRequest env head body t := by
  obtain ⟨tl, c₀, q, type, htl, hc₀, hp, htype, hr, hstep⟩ := h.read_routed hshort hc hne hpre (hdone ▸ List.prefix_refl _)
  rw [← htl, hdone] at hc₀
  have hb := hc₀.waiting.buffered
  have hu := hc₀.unmoved
  obtain ⟨hlen, hbody, htot, hcap⟩ := h.sizes hb.received hp
  have hall : q.hasRecievedAll = true := by
    have hcur : q.curSize = head.length + body.length := by
      rw [hp.curSize, hb.length_eq, List.length_append]
    unfold Request.hasRecievedAll
    exact decide_eq_true (by omega)
  have hans : Connection.handleStringBody env (c₀.routed q type) = (Connection.callBack env (c₀.routed q type), .state .needWrite) :=
    Connection.handleStringBody_all hcap hall htype h.unchecked
  refine ⟨c₀.routed q type, by rw [hstep, hans], ?_⟩
  exact {
    fresh := Connection.routed_fresh hc₀.fresh q type
    handlers := Connection.routed_handlers q type hc₀.waiting.handlers
    route := hr
    body := hp.body_eq hb.received hb.curSize hlen hbody
    method := by
      refine (hp.getMethod_of_nil hu.methodStr).trans ?_
      rw [hb.received, Head.method_append h.complete.len]
    url := by
      refine hp.getUrl.trans ?_
      rw [hb.received, Head.parse_append h.complete.len, Head.url_append h.complete.len, hu.urlStr] }

/-- Any other read: the connection stays silent. -/
theorem read_waits {sent a : Bytes} (hshort : head.length + body.length < 1024) (hc : c.Silent sent) (hne : a ≠ [])
    (hpre : head <+: sent ++ a) (hsub : sent ++ a <+: head ++ body) (hmore : sent ++ a ≠ head ++ body) :
    ∃ c₁ : Connection, Server.step env c a = .processed c₁ (.state .needRead) ∧ c₁.Silent (sent ++ a) := by
  obtain ⟨tl, c₀, q, type, htl, hc₀, hp, -, -, hstep⟩ := h.read_routed hshort hc hne hpre hsub
  rw [htl] at hsub hmore ⊢
  have hlt : (head ++ tl).length < head.length + body.length := by
    rw [← List.length_append]
    refine lt_of_le_of_ne hsub.length_le fun heq => ?_
    exact hmore (hsub.eq_of_length heq)
  obtain ⟨left, hpart, hwait⟩ :=
    h.handleStringBody_waits hc₀.waiting.buffered hp hc₀.waiting.isChunked hc₀.waiting.work hc₀.waiting.handlers hlt type
  obtain ⟨-, -, htot, -⟩ := h.sizes hc₀.waiting.buffered.received hp
  obtain ⟨hlen, hmax, hmethod, hurl⟩ := hc₀.unmoved.parsed hp
  have hq₁ : ({ q with httpType := type } : Request).Unmoved := ⟨hlen, hmax, hmethod, hurl⟩
  have hsame : ({ q with httpType := type } : Request).expandSize = { q with httpType := type } :=
    hq₁.expandSize_eq (htot.trans_lt hshort)
  refine ⟨_, by rw [hstep, hpart], hwait, ?_, Connection.routed_fresh hc₀.fresh q type⟩
  rw [hsame]
  exact ⟨hlen, hmax, hmethod, hurl⟩

/-- The reads of such a request: silent steps, and a last one in which the handler is called. -/
theorem post_run (hshort : head.length + body.length < 1024) : ∀ (as : List Bytes) (a sent : Bytes) (c : Connection),
    (∀ x ∈ a :: as, x ≠ []) → c.Silent sent → head <+: sent ++ a → sent ++ (a :: as).flatten = head ++ body →
      ∃ (init : List Step) (c₁ : Connection),
        Server.serve env c (a :: as) = init ++ [.processed (Connection.callBack env c₁) (.state .needWrite)] ∧
        (∀ s ∈ init, s.handlers = [] ∧ s.response = []) ∧ c₁.HasRequest env head body t := by
  intro as
  induction as with
  | nil =>
    intro a sent c hne hc hpre hflat
    have hdone : sent ++ a = head ++ body := by simpa using hflat
    obtain ⟨c₁, hs, hrest⟩ := h.read_completes hshort hc (hne a (by simp)) hpre hdone
    refine ⟨[], c₁, ?_, fun s hs => (nomatch hs), hrest⟩
    rw [Server.serve_singleton, hs]
    rfl
  | cons b as ih =>
    intro a sent c hne hc hpre hflat
    have hassoc : (sent ++ a) ++ (b :: as).flatten = head ++ body := by
      rw [← hflat, List.flatten_cons, List.flatten_cons, List.flatten_cons, List.append_assoc]
    have hmore : sent ++ a ≠ head ++ body := by
      intro heq
      rw [heq] at hassoc
      have hnil : b ++ as.flatten = [] := List.append_right_eq_self.mp hassoc
      exact hne b (by simp) (List.append_eq_nil_iff.mp hnil).1
    obtain ⟨c', hs, hc'⟩ := h.read_waits hshort hc (hne a (by simp)) hpre ⟨_, hassoc⟩ hmore
    obtain ⟨init, c₁, hrun, hinit, hrest⟩ := ih b (sent ++ a) c' (fun x hx => hne x (List.mem_cons_of_mem a hx)) hc'
      (hpre.trans (List.prefix_append _ _)) hassoc
    refine ⟨.processed c' (.state .needRead) :: init, c₁, ?_, ?_, hrest⟩
    · rw [Server.serve_cons_continues hs rfl, hrun]
      rfl
    · exact List.forall_mem_cons.mpr ⟨⟨hc'.waiting.handlers, rfl⟩, hinit⟩

end TextRequest

/-! ## The request of the client -/

section Request

variable {ctx : Context} (hbody : ctx.body ≠ []) (type : ReqContentType)

/-- A type of content that is not a form of files. -/
theorem contentType_messageHead : Head.value (messageHead ctx type).write (bytes "content-type") = type.str := by
  have hnames : iequal (bytes "Host") (bytes "content-type") = false ∧ iequal (bytes "Content-Length") (bytes "content-type") = false ∧
      iequal (bytes "Connection") (bytes "content-type") = false ∧ iequal (bytes "Content-Type") (bytes "content-type") = true := by
    decide
  obtain ⟨hhost, hlength, hconnection, htype⟩ := hnames
  have hlines : (messageHead ctx type).lines = _ :: (typeLines type ++ (lengthLines ctx ++ [_])) := rfl
  rw [RequestHead.value_write, hlines]
  unfold typeLines lengthLines
  by_cases ht : type.str = []
  · rw [if_pos ht, ht]
    split <;> simp [hhost, hlength, hconnection]
  · rw [if_neg ht]
    have hblank : (SPACE :: type.str).dropWhile isBlank = type.str := by cases type <;> decide
    simp only [List.find?_cons, HeaderLine.name_named, hhost, htype, List.cons_append, Option.map_some, Option.getD_some]
    exact hblank

include hbody

theorem contentLength_messageHead :
    Head.value (messageHead ctx type).write (bytes "content-length") = decimal (int32 ctx.body.length) := by
  have hnames : iequal (bytes "Host") (bytes "content-length") = false ∧ iequal (bytes "Content-Type") (bytes "content-length") = false ∧
      iequal (bytes "Content-Length") (bytes "content-length") = true := by
    decide
  obtain ⟨hhost, htype, hlength⟩ := hnames
  obtain ⟨line, hline, hname, htext⟩ : ∃ line : HeaderLine, lengthLines ctx = [line] ∧ line.name = bytes "Content-Length" ∧
      line.text = SPACE :: decimal (int32 ctx.body.length) := ⟨_, if_neg fun h => hbody h.1, rfl, rfl⟩
  have htypes : (typeLines type).find? (fun l => iequal l.name (bytes "content-length")) = none := by
    refine List.find?_eq_none.mpr fun l hl => ?_
    unfold typeLines at hl
    split at hl
    · exact (nomatch hl)
    · rw [List.mem_singleton.mp hl, HeaderLine.name_named, htype]
      exact Bool.false_ne_true
  have hlines : (messageHead ctx type).lines = _ :: (typeLines type ++ (lengthLines ctx ++ [_])) := rfl
  rw [RequestHead.value_write, hlines, List.find?_cons_of_neg (by rw [HeaderLine.name_named, hhost]; exact Bool.false_ne_true),
    List.find?_append, htypes, Option.none_or, hline, List.singleton_append, List.find?_cons_of_pos (by rw [hname, hlength]),
    Option.map_some, Option.getD_some, HeaderLine.value, htext]
  exact dropWhile_isBlank_decimal _

/-- What a new client writes is a request with a text body, for every type but that of a form of files. -/
theorem textRequest_messageHead {env : Env} {t : Target} (hcheck : env.checkHeaders = none) (htype : type ≠ .multipart)
    (hslash : SLASH ∈ ctx.path) (hroute : env.router.route ctx.method.name ctx.path = some t)
    (hshort : (messageHead ctx type).write.length + ctx.body.length < 1024) :
    TextRequest env (messageHead ctx type).write ctx.body t := by
  have hlen := (messageHead ctx type).len_write
  have hsmall : int32 ctx.body.length = ctx.body.length := int32_of_lt (by omega)
  refine ⟨⟨by rw [hlen]; exact Int.natCast_nonneg _, ?_⟩, hlen, ?_, ?_, hbody, ?_, ?_, ?_, hcheck⟩
  · rw [RequestHead.target_write]
    exact List.mem_append_left _ hslash
  · rw [contentLength_messageHead hbody]
    exact decimal_ne_nil _
  · rw [Head.contentLength, contentLength_messageHead hbody, hsmall, atoll_decimal (by omega) (by omega)]
  · rw [Head.IsText, contentType_messageHead]
    cases type with
    | multipart => exact absurd rfl htype
    | html | json | string | none => decide +kernel
  · unfold maxSize
    omega
  · rw [Head.route, if_pos (messageHead ctx type).method_len, RequestHead.method_write, url_messageHead]
    exact hroute

end Request

/-- The request that `post` writes for a URI. -/
def UriText.postHead (w : UriText) (type : ReqContentType) (body : Bytes) : Bytes := (messageHead (w.context .post body) type).write

/-- **`post`.** The message of a new client is a head and the body. When the head is in the first read, and head and body fit the first
buffer, then, in whatever pieces the body arrives, nothing is sent before its last byte; the handler of the path runs once, on that body;
and what the client reports of any pieces of the answer is the status and the content that the handler has chosen. -/
theorem post_answered {env : Env} {id : Nat} {status : Request → StatusType} {content : Request → Bytes}
    (henv : Responds env id status content) (hcheck : env.checkHeaders = none) {w : UriText} (hw : w.authority ≠ none) {body : Bytes}
    (hbody : body ≠ []) {type : ReqContentType} (htype : type ≠ .multipart)
    (hroute : env.router.route (bytes "POST") w.fields.getPath = some (.user id))
    (hshort : (w.postHead type body).length + body.length < 1024) {a : Bytes} {as : List Bytes} (hne : ∀ x ∈ a :: as, x ≠ [])
    (hpre : w.postHead type body <+: a)
    (hflat : (a :: as).flatten = (Client.buildWriteMsg { reqContentType := type } (w.context .post body) 0).2)
    (resType : ReqContentType) : ∃ (init : List Step) (last : Step) (q : Request) (headers : List (Bytes × Bytes)),
      Server.serve env (Server.fresh resType) (a :: as) = init ++ [last] ∧ (∀ s ∈ init, s.handlers = [] ∧ s.response = []) ∧
        last.handlers = [(.user id, q)] ∧ q.body = body ∧ q.getMethod = bytes "POST" ∧ q.getUrl = w.fields.getPath ∧
          ∀ chunks, arrived chunks = last.response →
            (ResponseReader.doRead {} chunks).2 = some ⟨0, (status q).code, content q, headers⟩ := by
  have hslash := w.slash_getPath hw
  have hposts : (w.context .post body).body ≠ [] := hbody
  have hrequest : TextRequest env (w.postHead type body) body (.user id) :=
    textRequest_messageHead hposts type hcheck htype hslash hroute hshort
  rw [buildWriteMsg_new] at hflat
  obtain ⟨init, c, hrun, hinit, ⟨hfresh, hhandlers, hr, hq, hmethod, hurl⟩⟩ := hrequest.post_run hshort as a [] _ hne
    (Server.silent_fresh resType) hpre hflat
  obtain ⟨res', resType', hproper, hset⟩ := henv.response c.req c.res hfresh.proper
  obtain ⟨h, hwrite, hcode, hheaders, hannounces⟩ := exists_responseHead hproper (status c.req) resType' (henv.length c.req)
  refine ⟨init, _, c.req, res'.reported resType' (content c.req).length, hrun, hinit, ?_, hq, ?_, ?_, fun chunks harr => ?_⟩
  · obtain ⟨acts, htr, hquiet⟩ := Connection.callBack_trace (c := c) hr
    obtain ⟨hhs, -⟩ := Step.handlers_of_trace (s := .processed (Connection.callBack env c) (.state .needWrite)) htr hquiet
    rw [hhs, hhandlers]
    rfl
  · rw [hmethod, UriText.postHead, RequestHead.method_write]
    rfl
  · rw [hurl, UriText.postHead, if_pos (messageHead (w.context .post body) type).method_len, url_messageHead]
    rfl
  · have hsent : (Step.processed (Connection.callBack env c) (.state .needWrite)).response = h.write ++ content c.req := by
      rw [← hwrite, ← hset]
      exact congrArg Response.repStr (Connection.callBack_user hr)
    have harr' : arrived chunks = (h.write ++ content c.req).take (h.write ++ content c.req).length := by
      rw [harr, hsent, List.take_length]
    rw [ResponseReader.doRead_response hannounces harr', hcode, hheaders, List.length_append, if_neg (by omega), if_pos le_rfl]

theorem post_answered_hello : ∃ (init : List Step) (last : Step) (q : Request) (headers : List (Bytes × Bytes)),
    Server.serve (.bare [(bytes "/", .user 7)]) (Server.fresh .none) [localRoot.postHead .json (bytes "hello"), bytes "hel", bytes "lo"] =
        init ++ [last] ∧ (∀ s ∈ init, s.handlers = [] ∧ s.response = []) ∧ last.handlers = [(.user 7, q)] ∧ q.body = bytes "hello" ∧
      q.getMethod = bytes "POST" ∧ q.getUrl = localRoot.fields.getPath ∧ ∀ chunks, arrived chunks = last.response →
        (ResponseReader.doRead {} chunks).2 = some ⟨0, StatusType.ok.code, decimal 7, headers⟩ :=
  post_answered (responds_bare [(bytes "/", .user 7)] 7 (by decide)) rfl (by decide) (by decide) (by decide) (by decide +kernel)
    (by decide +kernel) (by decide +kernel) (List.prefix_refl _) (by decide +kernel) .none

end Netcore
