import Netcore.Http.Header
import Netcore.Server.Runs

/-!
# The bounds of a body

Along every run of the server, a handler that gets a text body gets it after two checks: that the request fits `MaxSize` and
that all of it has been received. Both checks are made on the sum of `header_len_` and `body_len_` as a `size_t`. The sum is
the exact one unless the `Content-Length` is negative and small enough to make it wrap around: then the checks pass and the
body is a view of almost `2 ^ 64` bytes.
-/

namespace Netcore

open Slices

/-- The bodies that a handler gets as text. -/
def ContentType.isText : ContentType → Bool
  | .string | .json | .unknown | .urlencoded => true
  | _ => false

/-- The body of a request lies in the bytes received. -/
structure Request.BodyInside (sent : Bytes) (r : Request) : Prop where
  curSize : r.headerLen + r.bodyLen ≤ r.curSize
  maxSize : r.headerLen + r.bodyLen ≤ maxSize
  length : r.body.length = r.bodyLen
  body : r.body <:+: sent

/-- What the checks before a handler have found. -/
structure Request.Checked (sent : Bytes) (r : Request) : Prop where
  received : r.received <+: sent
  curSize : r.curSize ≤ r.buf.length
  length : r.buf.length ≤ maxSize
  headerLen : r.headerLen = Head.len r.received
  headerLen_pos : 0 < r.headerLen
  headerLen_le : r.headerLen ≤ r.curSize
  bodyLen : r.bodyLen = sizeT (Head.contentLength r.received)
  atCapacity : r.atCapacity = false
  hasRecievedAll : r.hasRecievedAll = true

/-- A handler that gets a text body gets it after the checks. -/
def Act.Checked (sent : Bytes) : Act → Prop
  | .handler _ r => r.hasBody = true → r.httpType.isText = true → r.Checked sent
  | _ => True

/-! ## Arithmetic -/

/-- A sum of two sizes that does not wrap around: exactly when the second is not a negative number of at most the first. -/
theorem exact_iff_of_wrapped_le {h v : Int} {lim : Nat} (hpos : 0 < h) (hle : h ≤ 3145728)
    (hlow : -9223372036854775808 ≤ v) (hhigh : v ≤ 9223372036854775807) (hlim : lim ≤ 3145728)
    (hs : sizeT (h + sizeT v) ≤ lim) : h + sizeT v ≤ lim ↔ ¬(-h ≤ v ∧ v < 0) := by
  unfold sizeT at *
  omega

/-- After the checks, the body lies in the bytes received unless the length wraps around. -/
theorem Request.Checked.bodyInside_iff {sent : Bytes} {r : Request} (h : r.Checked sent) :
    r.BodyInside sent ↔ ¬(-Head.len r.received ≤ Head.contentLength r.received ∧ Head.contentLength r.received < 0) := by
  obtain ⟨hlow, hhigh⟩ := atoll_bounds (Head.value r.received (bytes "content-length"))
  have hall : sizeT (r.headerLen + r.bodyLen) ≤ r.curSize := of_decide_eq_true h.hasRecievedAll
  have hcur : r.curSize ≤ 3145728 := h.curSize.trans h.length
  have hmax : r.headerLen ≤ 3145728 := h.headerLen_le.trans (by omega)
  rw [h.bodyLen] at hall
  have hiff := exact_iff_of_wrapped_le h.headerLen_pos hmax hlow hhigh hcur hall
  rw [← Head.contentLength, ← h.bodyLen, h.headerLen] at hiff
  rw [← hiff, ← h.headerLen]
  constructor
  · intro hin
    exact hin.curSize
  · intro hle
    obtain ⟨hbody, hlen⟩ := Request.body_of_le h.headerLen_pos.le hle h.curSize
    refine ⟨hle, hle.trans (by exact_mod_cast hcur), hlen, ?_⟩
    rw [hbody]
    exact ((List.take_prefix _ _).isInfix.trans (List.drop_suffix _ _).isInfix).trans h.received.isInfix

/-! ## The steps of a connection -/

/-- An act that runs no handler has nothing to check. -/
theorem Act.Quiet.checked {a : Act} (h : a.Quiet) (sent : Bytes) : a.Checked sent := by
  cases a with
  | handler t r => exact h.elim
  | _ => trivial

/-- A handler that runs on a request with no text body, or on one that has passed the checks. -/
theorem Act.RunsOn.checked {a : Act} {r : Request} (h : a.RunsOn r) {sent : Bytes}
    (hr : r.hasBody = true → r.httpType.isText = true → r.Checked sent) : a.Checked sent := by
  cases a with
  | handler t q =>
    have hq : q = r := h
    rw [hq]
    exact hr
  | _ => trivial

/-- Bytes that are sent later do not undo the checks. -/
theorem Act.Checked.append {a : Act} {sent : Bytes} (h : a.Checked sent) (t : Bytes) : a.Checked (sent ++ t) := by
  cases a with
  | handler _ r =>
    intro h1 h2
    have hc := h h1 h2
    exact { hc with received := hc.received.trans (List.prefix_append _ _) }
  | _ => trivial

/-- What holds between two reads: every handler so far was run after the checks; and until the connection is bound to a
multipart body or a WebSocket, all that was sent is in the buffer. -/
structure Connection.Reading (sent : Bytes) (c : Connection) : Prop where
  acts : ∀ a ∈ c.trace, a.Checked sent
  next : (c.continueWork = none ∧ c.req.Buffered sent) ∨
    (c.continueWork = some .doReadMultipart ∧ c.req.httpType = .multipart) ∨ c.continueWork = some .handleWsData

/-- What a call leaves: the checks, and the state between two reads when it asks to read on. -/
def Connection.Leaves (sent : Bytes) (r : Connection × Answer) : Prop :=
  (∀ a ∈ r.1.trace, a.Checked sent) ∧
    (r.2 = .state .needRead ∨ r.2 = .state .needWriteThenRead → r.1.Reading sent)

namespace Connection

variable {sent : Bytes} {c : Connection}

/-- A call that ends with a write has only to keep the trace. -/
theorem leaves_needWrite {c' : Connection} (h : ∀ a ∈ c.trace, a.Checked sent) (he : Extends (Act.Checked sent) c c') :
    Leaves sent (c', .state .needWrite) := by
  refine ⟨he.forall_mem h, ?_⟩
  rintro (h | h) <;> cases h

/-- `call_back` runs its handler on a request that was checked. -/
theorem callBack_checked (env : Env) (hr : c.req.hasBody = true → c.req.httpType.isText = true → c.req.Checked sent) :
    Extends (Act.Checked sent) c (callBack env c) :=
  (callBack_extends env c).mono fun _ ha => ha.checked hr

/-- The body of a request whose header has been parsed, once both checks have passed. -/
theorem checked_of_parsed {r q : Request} (hb : r.Buffered sent) (hp : r.Parsed q) (hbody : q.hasBody = true)
    (hch : q.isChunked = false) (h1 : q.atCapacity = false) (h2 : q.hasRecievedAll = true) : q.Checked sent := by
  have hrec := hp.received
  refine
    { received := by rw [hrec, hb.received]
      curSize := by rw [hp.curSize, hp.buf]; exact hb.curSize
      length := by rw [hp.buf]; exact hb.length
      headerLen := by rw [hrec]; exact hp.headerLen
      headerLen_pos := hp.headerLen_pos
      headerLen_le := hp.headerLen_le
      bodyLen := ?_
      atCapacity := h1
      hasRecievedAll := h2 }
  have hne : q.bodyLen ≠ 0 := by
    simpa [Request.hasBody, hch] using hbody
  have hlen := hp.bodyLen
  split_ifs at hlen with hv
  · exact absurd hlen hne
  · rw [hlen, hrec]

/-- The type of the request is no part of the checks. -/
theorem checked_httpType {r : Request} (h : r.Checked sent) (type : ContentType) : { r with httpType := type }.Checked sent :=
  ⟨h.received, h.curSize, h.length, h.headerLen, h.headerLen_pos, h.headerLen_le, h.bodyLen, h.atCapacity, h.hasRecievedAll⟩

/-- `handle_body` runs its handler on a request that was checked. -/
theorem handleBody_extends (env : Env) (h : c.req.httpType.isText = true → c.req.Checked sent) :
    Extends (Act.Checked sent) c (handleBody env c) := by
  unfold handleBody
  split_ifs with h1 h2 h3
  · exact Extends.of_eq rfl
  · obtain ⟨he, -, -⟩ := parseMultipart_extends env c c.req.headerLen.toNat (sizeT (c.req.curSize - c.req.headerLen))
    have he' := he.mono fun a ha => ha.checked sent
    split
    · rename_i c' hm
      rw [hm] at he'
      exact he'.trans (Extends.of_eq rfl)
    · rename_i c' ans hne hm
      rw [hm] at he'
      exact he'
  · exact Extends.of_eq rfl
  · exact callBack_checked env fun _ => h

/-- So does the handling of an urlencoded body. -/
theorem handleUrlUrlencodedBody_extends (env : Env) (h : c.req.Checked sent) :
    Extends (Act.Checked sent) c (handleUrlUrlencodedBody env c) := by
  have hq : (c.req.parseFormUrlencoded.1).Checked sent :=
    ⟨h.received, h.curSize, h.length, h.headerLen, h.headerLen_pos, h.headerLen_le, h.bodyLen, h.atCapacity, h.hasRecievedAll⟩
  unfold handleUrlUrlencodedBody
  dsimp only
  split_ifs
  · exact Extends.of_eq rfl
  · exact Extends.of_eq rfl
  · exact Extends.trans (Extends.of_eq rfl) (callBack_checked env fun _ _ => hq)

/-- The body of a form is no text. -/
theorem checked_of_multipart {r : Request} (h : r.httpType = .multipart) :
    r.hasBody = true → r.httpType.isText = true → r.Checked sent := by
  intro _ ht
  rw [h] at ht
  cases ht

/-- A multipart body that is not complete is read on. -/
theorem leaves_readMultipart (h : ∀ a ∈ c.trace, a.Checked sent) (ht : c.req.httpType = .multipart) :
    Leaves sent ({ c with req := c.req.setCurrentSize 0, continueWork := some .doReadMultipart }, .state .needRead) :=
  ⟨h, fun _ => ⟨h, .inr (.inl ⟨rfl, by simp [ht]⟩)⟩⟩

/-- The first bytes of a form run no handler on a body that is text. -/
theorem handleFirstParts_leaves (env : Env) (ht : c.req.httpType = .multipart) (h : ∀ a ∈ c.trace, a.Checked sent) :
    Leaves sent (handleFirstParts env c) := by
  obtain ⟨he, hty, -⟩ := parseMultipart_extends env c c.req.headerLen.toNat (sizeT (c.req.curSize - c.req.headerLen))
  have he' := he.mono fun a ha => ha.checked sent
  rw [ht] at hty
  unfold handleFirstParts
  split
  · rename_i c₂ msg hm
    rw [hm] at he'
    refine ⟨he'.forall_mem h, ?_⟩
    rintro (h | h) <;> cases h
  · rename_i c₂ hm
    rw [hm] at he'
    exact leaves_needWrite h (he'.trans (Extends.of_eq rfl))
  · rename_i c₂ hm
    rw [hm] at he' hty
    split_ifs with hall
    · exact leaves_needWrite h (he'.trans (callBack_checked env (checked_of_multipart hty)))
    · exact leaves_readMultipart (he'.forall_mem h) hty

/-- `handle_multipart` runs the handler on a request of type multipart only. -/
theorem handleMultipart_leaves (env : Env) (ht : c.req.httpType = .multipart) (h : ∀ a ∈ c.trace, a.Checked sent) :
    Leaves sent (handleMultipart env c) := by
  unfold handleMultipart
  cases env.uploadCheck with
  | none => exact handleFirstParts_leaves env ht h
  | some check =>
    dsimp only
    split_ifs
    · exact handleFirstParts_leaves env ht h
    · exact leaves_needWrite h (Extends.of_eq (by simp))

/-- So does `do_read_multipart`. -/
theorem doReadMultipart_leaves (env : Env) (ht : c.req.httpType = .multipart) (h : ∀ a ∈ c.trace, a.Checked sent) :
    Leaves sent (doReadMultipart env c) := by
  unfold doReadMultipart parseMultipart
  have hty : c.req.fitSize.httpType = .multipart := by
    rw [← ht]
    exact Request.growTo_httpType c.req _
  simp only [if_true]
  split_ifs with hfin
  · have hcb : Extends (Act.Checked sent) { c with req := c.req.fitSize } (callBack env { c with req := c.req.fitSize }) :=
      callBack_checked env (checked_of_multipart hty)
    exact leaves_needWrite (c := { c with req := c.req.fitSize }) h (hcb.trans (Extends.of_eq rfl))
  · exact leaves_readMultipart (c := { c with req := c.req.fitSize }) h hty

/-- `handle_string_body` runs its handler after the checks, or leaves a connection that reads. -/
theorem handleStringBody_leaves (env : Env) (hb : c.req.Buffered sent) (hw : c.continueWork = none)
    (h : ∀ a ∈ c.trace, a.Checked sent)
    (hc : c.req.atCapacity = false → c.req.hasRecievedAll = true → c.req.Checked sent) : Leaves sent (handleStringBody env c) := by
  unfold handleStringBody
  dsimp only
  split_ifs with h1 h2 h3
  · exact leaves_needWrite h (Extends.of_eq rfl)
  · exact leaves_needWrite h (handleBody_extends env fun _ => hc (by simpa using h1) h2)
  · exact leaves_needWrite h (Extends.of_eq rfl)
  · refine ⟨h, fun _ => ⟨h, .inl ⟨hw, ?_⟩⟩⟩
    exact ⟨hb.expandSize.received, hb.expandSize.curSize, hb.expandSize.length⟩

/-- `handle_form_urlencoded` runs its handler after the checks. -/
theorem handleFormUrlencoded_extends (env : Env)
    (hc : c.req.atCapacity = false → c.req.hasRecievedAll = true → c.req.Checked sent) :
    Extends (Act.Checked sent) c (handleFormUrlencoded env c) := by
  unfold handleFormUrlencoded
  dsimp only
  split_ifs with h1 h2
  · exact Extends.of_eq rfl
  · exact handleUrlUrlencodedBody_extends env (hc (by simpa using h1) h2)
  · exact Extends.of_eq rfl

/-- A request without a body: the handler gets no text body, and after a handshake only frames are read. -/
theorem handleHeaderRequest_leaves (env : Env) (hb : c.req.hasBody = false) (h : ∀ a ∈ c.trace, a.Checked sent) :
    Leaves sent (handleHeaderRequest env c) := by
  have hvac : ∀ r : Request, r.bodyLen = c.req.bodyLen → r.isChunked = c.req.isChunked →
      r.hasBody = true → r.httpType.isText = true → r.Checked sent := by
    intro r h1 h2 hr
    rw [Request.hasBody, h1, h2, ← Request.hasBody, hb] at hr
    cases hr
  unfold handleHeaderRequest
  dsimp only
  split_ifs with h1 h2
  · exact leaves_needWrite h (Extends.of_eq rfl)
  · have hhs : ∀ c₁ : Connection, c₁.trace = c.trace → c₁.req.bodyLen = c.req.bodyLen → c₁.req.isChunked = c.req.isChunked →
        Leaves sent (responseHandshake env c₁, .state .needRead) := by
      intro c₁ ht hl hk
      obtain ⟨he, hw⟩ := responseHandshake_extends env c₁
      have hall := (he.mono fun a ha => ha.checked (hvac _ hl hk)).forall_mem (ht ▸ h)
      exact ⟨hall, fun _ => ⟨hall, .inr (.inr hw)⟩⟩
    exact hhs _ rfl rfl rfl
  · exact leaves_needWrite h (callBack_checked env (hvac c.req rfl rfl))

/-- A request whose header has been parsed. -/
theorem handleRequest_leaves (env : Env) {r : Request} (hb : r.Buffered sent) (hp : r.Parsed c.req)
    (hw : c.continueWork = none) (h : ∀ a ∈ c.trace, a.Checked sent) : Leaves sent (handleRequest env c) := by
  unfold handleRequest
  split_ifs with hbody
  · obtain ⟨⟨reader, hc⟩, hch⟩ := getContentType_spec env c
    rcases hg : getContentType env c with ⟨c₁, type⟩
    rw [hg] at hc hch
    simp only at hc hch ⊢
    subst hc
    have hbuf : c.req.Buffered sent := by
      refine ⟨by rw [hp.received, hb.received], ?_, by rw [hp.buf]; exact hb.length⟩
      rw [hp.curSize, hp.buf]
      exact hb.curSize
    have hchk : type ≠ .chunked → c.req.atCapacity = false → c.req.hasRecievedAll = true → c.req.Checked sent :=
      fun hne => checked_of_parsed hb hp hbody (hch hne)
    have hstr : type ≠ .chunked →
        Leaves sent (handleStringBody env { c with reader := reader, req := { c.req with httpType := type } }) := by
      intro hne
      refine handleStringBody_leaves env ⟨hbuf.received, hbuf.curSize, hbuf.length⟩ hw h ?_
      intro h1 h2
      exact checked_httpType (hchk hne h1 h2) type
    cases type with
    | string | json | unknown => exact hstr (by simp)
    | multipart => exact handleMultipart_leaves env rfl h
    | octetStream | websocket | chunked => exact leaves_needWrite h (Extends.of_eq rfl)
    | urlencoded =>
      refine leaves_needWrite (c := { c with reader := reader, req := { c.req with httpType := .urlencoded } }) h
        (handleFormUrlencoded_extends env ?_)
      intro h1 h2
      exact checked_httpType (hchk (by simp) h1 h2) _
  · exact handleHeaderRequest_leaves env (by simpa using hbody) h

/-- The first part of every request. -/
theorem handleRead_leaves (env : Env) (hb : c.req.Buffered sent) (hw : c.continueWork = none)
    (h : ∀ a ∈ c.trace, a.Checked sent) : Leaves sent (handleRead env c) := by
  have hpeek : ∀ (q : Request) (b : Bool), Extends (Act.Checked sent) c ({ c with req := q }.log (.peek b)) :=
    fun _ _ => Extends.of_snoc rfl trivial
  rcases c.req.parseHeader_cases env.checkHeaders with ⟨q, hq, -, -⟩ | ⟨-, -, hq⟩ | ⟨q, hq, hp⟩
  · rw [handleRead_malformed hq]
    exact leaves_needWrite h (Extends.of_eq rfl)
  · cases hr : env.router.route c.req.parseTokens.getMethod c.req.parseTokens.getUrl with
    | none =>
      rw [handleRead_notFound hq (by simp) hr]
      exact leaves_needWrite h ((hpeek c.req.parseTokens false).trans (Extends.of_eq (by simp)))
    | some t =>
      rw [handleRead_incomplete hq hr]
      have hall := (hpeek c.req.parseTokens true).forall_mem h
      refine ⟨by simpa using hall, fun _ => ⟨by simpa using hall, .inl ⟨by simpa using hw, ?_⟩⟩⟩
      simpa using (⟨hb.received, hb.curSize, hb.length⟩ : c.req.parseTokens.Buffered sent)
  · have hlen : 0 ≤ Head.len c.req.received := hp.complete.len
    cases hr : env.router.route q.getMethod q.getUrl with
    | none =>
      rw [handleRead_notFound hq (by omega) hr]
      exact leaves_needWrite h ((hpeek q false).trans (Extends.of_eq (by simp)))
    | some t =>
      rw [handleRead_complete hq hlen hr]
      have hall := (hpeek q true).forall_mem h
      exact handleRequest_leaves env hb (by simpa using hp) (by simpa using hw) (by simpa using hall)

/-- One call of `process`. -/
theorem process_leaves (env : Env) (h : c.Reading sent) : Leaves sent (process env c) := by
  cases hcap : c.req.atCapacity with
  | true =>
    rw [process_atCapacity hcap]
    exact leaves_needWrite h.acts (Extends.of_eq rfl)
  | false =>
    rcases h.next with ⟨hw, hb⟩ | ⟨hw, ht⟩ | hw
    · rw [process_none hcap hw]
      exact handleRead_leaves env hb hw h.acts
    · rw [process_doReadMultipart hcap hw]
      exact doReadMultipart_leaves env ht h.acts
    · rw [process_handleWsData hcap hw]
      obtain ⟨he, hk⟩ := wsLoop_extends env c.req.buf c.req.curSize (c.req.curSize + 1) c 0
      have hall := (he.mono fun a ha => ha.checked sent).forall_mem h.acts
      refine ⟨hall, ?_⟩
      intro hans
      refine ⟨hall, .inr (.inr ?_)⟩
      rw [handleWsData, hk, hw]
      · rcases hans with hans | hans <;> rw [handleWsData] at hans <;> rw [hans] <;> simp
      · rcases hans with hans | hans <;> rw [handleWsData] at hans <;> rw [hans] <;> simp

end Connection

/-! ## Runs -/

/-- The bytes of a read do not change what holds between two reads. -/
theorem Connection.Reading.receive {sent a : Bytes} {c : Connection} (h : c.Reading sent) (ha : a.length ≤ c.req.leftSize) :
    { c with req := Server.receive c.req a }.Reading (sent ++ a) := by
  refine ⟨fun x hx => (h.acts x hx).append a, ?_⟩
  rcases h.next with ⟨hw, hb⟩ | ⟨hw, ht⟩ | hw
  · exact .inl ⟨hw, hb.receive ha⟩
  · exact .inr (.inl ⟨hw, ht⟩)
  · exact .inr (.inr hw)

/-- One read. -/
theorem Server.step_leaves {env : Env} {sent a : Bytes} {c c' : Connection} {answer : Answer} (h : c.Reading sent)
    (hs : step env c a = .processed c' answer) :
    (∀ x ∈ c'.trace, x.Checked (sent ++ a)) ∧ (continues answer = true → c'.Reading (sent ++ a)) := by
  obtain ⟨-, hlt, -, hproc⟩ := step_processed hs
  obtain ⟨h1, h2⟩ := Connection.process_leaves env (h.receive hlt.le)
  rw [hproc] at h1 h2
  refine ⟨h1, fun hc => h2 ?_⟩
  match answer, hc with
  | .state .needRead, _ => exact .inl rfl
  | .state .needWriteThenRead, _ => exact .inr rfl

/-- A new connection reads. -/
theorem Server.reading_fresh (resType : ReqContentType) : (fresh resType).Reading [] := by
  refine ⟨?_, .inl ⟨rfl, buffered_fresh resType⟩⟩
  intro a ha
  cases ha

/-- Along every run: every handler that got a text body got it after the checks. -/
theorem Server.serve_checked (env : Env) (resType : ReqContentType) (arrivals : List Bytes) {s : Step}
    (hs : s ∈ serve env (fresh resType) arrivals) : ∀ a ∈ s.trace, a.Checked arrivals.flatten := by
  cases s with
  | recvError | ended => intro a ha; cases ha
  | processed c' answer =>
    obtain ⟨now, ⟨rest, hrest⟩, hall⟩ :=
      serve_invariant Connection.Reading (fun sent c => ∀ a ∈ c.trace, a.Checked sent) (fun _ _ _ _ _ => step_leaves) arrivals
        [] _ (reading_fresh resType) c' answer hs
    intro a ha
    rw [← List.nil_append arrivals.flatten, ← hrest]
    exact (hall a ha).append rest

/-- Along every run: a handler gets a text body that lies in the bytes received exactly when the `Content-Length` is not a
negative number of at most the length of the header. -/
theorem Server.handler_body_inside_iff (env : Env) (resType : ReqContentType) (arrivals : List Bytes) {s : Step}
    (hs : s ∈ serve env (fresh resType) arrivals) {t : Target} {r : Request} (hr : .handler t r ∈ s.trace)
    (hb : r.hasBody = true) (ht : r.httpType.isText = true) :
    r.BodyInside arrivals.flatten ↔
      ¬(-Head.len r.received ≤ Head.contentLength r.received ∧ Head.contentLength r.received < 0) :=
  (serve_checked env resType arrivals hs _ hr hb ht).bodyInside_iff

/-- A handler of a run, with what a test says of its request. -/
def Server.handlerWith (test : Request → Bool) (steps : List Step) : Bool :=
  steps.any fun s => s.trace.any fun a =>
    match a with
    | .handler _ r => r.hasBody && r.httpType.isText && test r
    | _ => false

/-- A test that finds a handler finds one that ran. -/
theorem Server.of_handlerWith {test : Request → Bool} {steps : List Step} (h : handlerWith test steps = true) :
    ∃ s ∈ steps, ∃ t r, .handler t r ∈ s.trace ∧ r.hasBody = true ∧ r.httpType.isText = true ∧ test r = true := by
  obtain ⟨s, hs, h⟩ := List.any_eq_true.mp h
  obtain ⟨a, ha, h⟩ := List.any_eq_true.mp h
  cases a with
  | handler t r =>
    simp only [Bool.and_eq_true] at h
    exact ⟨s, hs, t, r, ha, h.1.1, h.1.2, h.2⟩
  | _ => cases h

theorem Server.handler_body_inside_iff_five :
    ∃ s ∈ serve (.bare [(bytes "/", .user 0)]) (fresh .none) [bytes "POST / HTTP/1.1\r\nContent-Length: 5\r\n\r\nhello"],
      ∃ t r, .handler t r ∈ s.trace ∧ r.hasBody = true ∧ r.httpType.isText = true ∧
        r.BodyInside (bytes "POST / HTTP/1.1\r\nContent-Length: 5\r\n\r\nhello") := by
  have hrun : handlerWith (fun r => decide (0 ≤ Head.contentLength r.received)) (serve (.bare [(bytes "/", .user 0)])
      (fresh .none) [bytes "POST / HTTP/1.1\r\nContent-Length: 5\r\n\r\nhello"]) = true := by decide +kernel
  obtain ⟨s, hs, t, r, ha, hb, ht, htest⟩ := of_handlerWith hrun
  refine ⟨s, hs, t, r, ha, hb, ht, ?_⟩
  have hv : 0 ≤ Head.contentLength r.received := of_decide_eq_true htest
  have hin := (handler_body_inside_iff _ _ _ hs ha hb ht).mpr (by omega)
  simpa using hin

/-- `Content-Length: -1`: the checks pass and the handler gets a body of `2 ^ 64 - 1` bytes. -/
theorem Server.handler_body_outside :
    ∃ s ∈ serve (.bare [(bytes "/", .user 0)]) (fresh .none) [bytes "POST / HTTP/1.1\r\nContent-Length: -1\r\n\r\n"],
      ∃ t r, .handler t r ∈ s.trace ∧ r.hasBody = true ∧ r.httpType.isText = true ∧
        ¬r.BodyInside (bytes "POST / HTTP/1.1\r\nContent-Length: -1\r\n\r\n") := by
  have hrun : handlerWith (fun r => decide (¬r.headerLen + r.bodyLen ≤ r.curSize)) (serve (.bare [(bytes "/", .user 0)])
      (fresh .none) [bytes "POST / HTTP/1.1\r\nContent-Length: -1\r\n\r\n"]) = true := by decide +kernel
  obtain ⟨s, hs, t, r, ha, hb, ht, htest⟩ := of_handlerWith hrun
  exact ⟨s, hs, t, r, ha, hb, ht, fun hin => of_decide_eq_true htest hin.curSize⟩

end Netcore
