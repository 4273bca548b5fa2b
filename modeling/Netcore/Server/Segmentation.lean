import Netcore.Http.Header
import Netcore.Server.Runs

/-!
# How a header is cut into reads

A request without a body that arrives in one read is routed, handled and answered. When its header is cut, the first read
parses as incomplete and leaves `header_len_ = -2`; `process` adds that to `body_len_` before it does anything else on the
second read, and the sum, as a `size_t`, is beyond `MaxSize`. No header that is cut is ever handled.
-/

namespace Netcore

open Slices

namespace Server

variable {env : Env} {resType : ReqContentType} {msg : Bytes}

/-- What a client sees of a step that ends a request, and what the application sees of it. -/
structure SameOutcome (s s' : Step) : Prop where
  answer : s.answer = s'.answer
  routing : s.peeks.getLast? = s'.peeks.getLast?
  handlers : s.handlers.map Prod.fst = s'.handlers.map Prod.fst
  response : s.response = s'.response

/-- The reads `arrivals` are answered like one read of all bytes: `need_read` until the last of them, and then the same
outcome, with one handler at most. -/
def AsOneRead (env : Env) (resType : ReqContentType) (arrivals : List Bytes) : Prop :=
  ∃ init last one, serve env (fresh resType) arrivals = init ++ [last] ∧ init.length + 1 = arrivals.length ∧
    (∀ s ∈ init, s.answer = some (.state .needRead)) ∧ last.handlers.length ≤ 1 ∧
    serve env (fresh resType) [arrivals.flatten] = [one] ∧ SameOutcome last one

/-- A request in one read: one handler at most, and one if a route was found. -/
theorem one_read (env : Env) (resType : ReqContentType) (hlen : Head.len msg = msg.length) (hshort : msg.length < 1024)
    (hbody : Head.hasBody msg = false) (hup : Head.isUpgrade msg = false) : ∃ s, serve env (fresh resType) [msg] = [s] ∧
      s.handlers.length ≤ 1 ∧ (s.peeks.getLast? = some true → s.handlers ≠ []) := by
  have hpos : 0 < Head.len msg := (Head.len_bounded msg).2.2 (by omega)
  have hne : msg ≠ [] := by
    intro h0
    rw [hlen, h0] at hpos
    exact absurd hpos (by simp)
  refine ⟨_, serve_singleton _ _ _, ?_⟩
  have hb := buffered_received resType hshort
  rw [step_fresh hne hshort]
  rcases (received resType msg).req.parseHeader_cases env.checkHeaders with ⟨q, hq, -, -⟩ | ⟨-, hl, -⟩ | ⟨q, hq, hp⟩
  · rw [Connection.handleRead_malformed hq]
    exact ⟨Nat.zero_le 1, fun h => by cases h⟩
  · rw [hb.received] at hl
    omega
  · rw [hb.received] at hq
    cases hr : env.router.route q.getMethod q.getUrl with
    | none =>
      rw [Connection.handleRead_notFound hq (by omega) hr]
      simp only [Step.handlers, Step.peeks, Step.trace, Connection.responseBack_trace, Connection.answerNotFound_trace,
        Connection.log_trace]
      exact ⟨Nat.zero_le 1, fun h => by cases h⟩
    | some t =>
      let c₁ := ({ received resType msg with req := q }.log (.peek true)).checkKeepAlive
      have hreq : c₁.req = q := by simp [c₁]
      have hhb : c₁.req.hasBody = false := by
        rw [hreq, hp.hasBody rfl, hb.received]
        exact hbody
      have hu : c₁.isUpgrade = false := by
        refine Connection.checkKeepAlive_isUpgrade rfl ?_
        rw [Connection.log_req, Connection.wsIsUpgrade_parsed hp rfl, hb.received]
        exact hup
      obtain ⟨acts, htr, hquiet⟩ := Connection.callBack_trace (c := c₁) (by rw [hreq]; exact hr)
      have htr₁ : c₁.trace = [.peek true] := by simp [c₁]; rfl
      rw [Connection.handleRead_complete hq hpos.le hr, Connection.handleRequest_bodyless hhb hu]
      rw [htr₁] at htr
      obtain ⟨hh, -⟩ := Step.handlers_of_trace (s := .processed (Connection.callBack env c₁) (.state .needWrite)) htr hquiet
      rw [hh]
      exact ⟨Nat.le_refl 1, fun _ h => by cases h⟩

/-- After a header that is not complete, `process` takes the request for one that is too long. -/
theorem process_after_incomplete {c : Connection} (h : c.req.headerLen = -2) (hb : c.req.bodyLen = 0) :
    Connection.process env c = (c.responseBack .badRequest Connection.tooLong, .state .needWrite) := by
  apply Connection.process_atCapacity
  unfold Request.atCapacity
  rw [h, hb]
  decide

/-- A header that is cut: the first read is answered 404, or the second one is refused, without a handler. -/
theorem cut_read (env : Env) (resType : ReqContentType) {a₁ a₂ : Bytes} {as : List Bytes} (h1 : a₁ ≠ []) (h2 : a₂ ≠ [])
    (hlen : Head.len (a₁ :: a₂ :: as).flatten = (a₁ :: a₂ :: as).flatten.length)
    (hshort : (a₁ :: a₂ :: as).flatten.length < 1024) :
    (∃ s, serve env (fresh resType) (a₁ :: a₂ :: as) = [s]) ∨
    ∃ s₁ s₂, serve env (fresh resType) (a₁ :: a₂ :: as) = [s₁, s₂] ∧ s₂.handlers = [] ∧ s₂.peeks = [true] := by
  have hl : a₁.length + a₂.length < 1024 := by
    simp only [List.flatten_cons, List.length_append] at hshort
    omega
  have hcut : Head.len a₁ = -2 := by
    have ht : (a₂ :: as).flatten ≠ [] := by simp [h2]
    exact phrParseRequest_incomplete ht hlen
  have hlt : a₁.length < 1024 := by omega
  have hb := buffered_received resType hlt
  have hstep : step env (fresh resType) a₁ = _ := step_fresh h1 hlt
  have hcut' : Head.len (received resType a₁).req.received = -2 := by
    rw [hb.received]
    exact hcut
  rcases (received resType a₁).req.parseHeader_cases env.checkHeaders with ⟨q, hq, -, -⟩ | ⟨-, -, hq⟩ | ⟨q, -, hp⟩
  · rw [Connection.handleRead_malformed hq] at hstep
    exact .inl ⟨_, serve_cons_ends fun c' answer hs => by rw [hstep] at hs; cases hs; rfl⟩
  · cases hr : env.router.route (received resType a₁).req.parseTokens.getMethod
        (received resType a₁).req.parseTokens.getUrl with
    | none =>
      rw [Connection.handleRead_notFound hq (by omega) hr] at hstep
      exact .inl ⟨_, serve_cons_ends fun c' answer hs => by rw [hstep] at hs; cases hs; rfl⟩
    | some t =>
      rw [Connection.handleRead_incomplete hq hr] at hstep
      right
      rw [serve_cons_continues hstep rfl]
      generalize hc : ({ received resType a₁ with req := (received resType a₁).req.parseTokens }.log
        (.peek true)).checkKeepAlive = c
      have hreq : c.req = (received resType a₁).req.parseTokens := by rw [← hc]; simp
      have htr : c.trace = [.peek true] := by rw [← hc]; simp; rfl
      have hroom : a₂.length < c.req.leftSize := by
        have hleft := received_leftSize resType hlt
        rw [hreq]
        show a₂.length < (received resType a₁).req.leftSize
        omega
      have hfit : c.req.curSize + a₂.length ≤ maxSize := by
        have hcur := hb.length_eq
        rw [hreq]
        show (received resType a₁).req.curSize + a₂.length ≤ 3145728
        omega
      have hhead : c.req.headerLen = -2 := by
        rw [hreq, ← hcut']
        rfl
      have hbody : c.req.bodyLen = 0 := by
        rw [hreq]
        rfl
      have hstep₂ : step env c a₂ = _ := step_eq h2 hroom hfit
      rw [process_after_incomplete (c := { c with req := receive c.req a₂ }) hhead hbody] at hstep₂
      refine ⟨_, _, by rw [serve_cons_ends fun c' answer hs => by rw [hstep₂] at hs; cases hs; rfl], ?_⟩
      rw [hstep₂, Step.handlers, Step.peeks, Step.trace, Connection.responseBack_trace]
      show c.trace.filterMap _ = [] ∧ c.trace.filterMap _ = [true]
      rw [htr]
      exact ⟨rfl, rfl⟩
  · have := hp.complete.len
    omega

/-- A header that is cut is not handled like one read. -/
theorem not_asOneRead_cut (env : Env) (resType : ReqContentType) {a₁ a₂ : Bytes} {as : List Bytes} (h1 : a₁ ≠ []) (h2 : a₂ ≠ [])
    (hlen : Head.len (a₁ :: a₂ :: as).flatten = (a₁ :: a₂ :: as).flatten.length)
    (hshort : (a₁ :: a₂ :: as).flatten.length < 1024) (hbody : Head.hasBody (a₁ :: a₂ :: as).flatten = false)
    (hup : Head.isUpgrade (a₁ :: a₂ :: as).flatten = false) : ¬AsOneRead env resType (a₁ :: a₂ :: as) := by
  obtain ⟨one, hone, -, hroute⟩ := one_read env resType hlen hshort hbody hup
  rintro ⟨init, last, one', hrun, hn, -, -, hone', hsame⟩
  rw [hone] at hone'
  obtain rfl := List.singleton_inj.mp hone'
  have hinit : 1 ≤ init.length := by
    simp only [List.length_cons] at hn
    omega
  rcases cut_read env resType h1 h2 hlen hshort with ⟨s, hs⟩ | ⟨s₁, s₂, hs, hh, hp⟩
  · have := congrArg List.length (hrun.symm.trans hs)
    simp only [List.length_append, List.length_cons, List.length_nil] at this
    omega
  · have hlast : last = s₂ := by
      have := congrArg List.getLast? (hrun.symm.trans hs)
      simpa using this
    rw [hlast] at hsame
    have hpeek : one.peeks.getLast? = some true := by
      rw [← hsame.routing, hp]
      rfl
    have hnil : one.handlers = [] := by
      have := hsame.handlers
      rw [hh] at this
      exact List.map_eq_nil_iff.mp this.symm
    exact hroute hpeek hnil

/-- A request without a body, shorter than the first buffer: cut into reads it is handled like one read exactly when it is
one read. -/
theorem asOneRead_iff (env : Env) (resType : ReqContentType) {arrivals : List Bytes} (hne : ∀ a ∈ arrivals, a ≠ [])
    (hlen : Head.len arrivals.flatten = arrivals.flatten.length) (hshort : arrivals.flatten.length < 1024)
    (hbody : Head.hasBody arrivals.flatten = false) (hup : Head.isUpgrade arrivals.flatten = false) :
    AsOneRead env resType arrivals ↔ arrivals.length = 1 := by
  have hpos : 0 < Head.len arrivals.flatten := (Head.len_bounded _).2.2 (by omega)
  rw [hlen] at hpos
  rcases arrivals with _ | ⟨a₁, _ | ⟨a₂, as⟩⟩
  · exact absurd hpos (by simp)
  · obtain ⟨one, hone, hcount, -⟩ := one_read env resType hlen hshort hbody hup
    have hflat : List.flatten [a₁] = a₁ := by simp
    rw [hflat] at hone
    exact iff_of_true ⟨[], one, one, hone, rfl, by simp, hcount, by rw [hflat]; exact hone, rfl, rfl, rfl, rfl⟩ rfl
  · exact iff_of_false (not_asOneRead_cut env resType (hne a₁ (by simp)) (hne a₂ (by simp)) hlen hshort hbody hup) (by simp)

theorem asOneRead_iff_whole :
    AsOneRead (.bare [(bytes "/", .user 0)]) .none [bytes "GET / HTTP/1.1\r\nHost: a\r\n\r\n"] :=
  (asOneRead_iff _ _ (by decide +kernel) (by decide +kernel) (by decide +kernel) (by decide +kernel) (by decide +kernel)).mpr rfl

/-- A cut inside a header line: the second read is answered 400. -/
theorem not_asOneRead_cut_host :
    ¬AsOneRead (.bare [(bytes "/", .user 0)]) .none [bytes "GET / HTTP/1.1\r\nHo", bytes "st: a\r\n\r\n"] :=
  not_asOneRead_cut _ _ (by decide +kernel) (by decide +kernel) (by decide +kernel) (by decide +kernel) (by decide +kernel)
    (by decide +kernel)

end Server

end Netcore
