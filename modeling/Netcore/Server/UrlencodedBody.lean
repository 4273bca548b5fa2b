import Netcore.Http.Header
import Netcore.Server.Runs

/-!
# Urlencoded forms over several reads

A request with an urlencoded form whose header is in the first read. When the whole request is in that read, the form is parsed and
the handler runs; a form of no bytes is no body, and its handler runs at once. Otherwise `handle_form_urlencoded` only makes room for
the rest, and `handle_request` goes on to write whatever it did: the connection never reads the rest of the form.
-/

namespace Netcore

open Slices

/-- A request with the header `head` and the urlencoded form `body`, smaller than the first buffer, for which the application has the
route `t`. The header announces the form, or no body when there is nothing in it. -/
@[mk_iff]
structure UrlencodedRequest (env : Env) (head body : Bytes) (t : Target) : Prop where
  complete : Head.Complete head
  len : Head.len head = head.length
  announced : body ≠ [] → Head.value head (bytes "content-length") ≠ [] ∧ Head.contentLength head = body.length
  bodiless : body = [] → Head.hasBody head = false ∧ Head.isUpgrade head = false
  urlencoded : contains (Head.value head (bytes "content-type")) (bytes "application/x-www-form-urlencoded") = true
  fits : head.length + body.length < 1024
  route : Head.route env.router head = some t
  unchecked : env.checkHeaders = none

instance decUrlencodedRequest (env : Env) (head body : Bytes) (t : Target) : Decidable (UrlencodedRequest env head body t) :=
  decidable_of_iff' _ (urlencodedRequest_iff ..)

namespace Connection

/-- A form that has been received as a whole: the handler runs when there is something in it. -/
theorem handleFormUrlencoded_all (env : Env) {c : Connection} {t : Target} (hcap : c.req.atCapacity = false)
    (hrec : c.req.hasRecievedAll = true) (hn : env.checkHeaders = none)
    (hr : env.router.route c.req.getMethod c.req.getUrl = some t) :
    (handleFormUrlencoded env c).trace.filterMap Act.handler? = c.trace.filterMap Act.handler? ++
      if parseQuery c.req.body ≠ [] then [(t, { c.req with formUrlMap := parseQuery c.req.body })] else [] := by
  have hcheck : ∀ r, checkRequest env r = true := by
    intro r
    simp [checkRequest, hn]
  rw [handleFormUrlencoded, if_neg (by simp [hcap]), if_pos hrec, handleUrlUrlencodedBody, Request.parseFormUrlencoded]
  dsimp only
  by_cases hq : parseQuery c.req.body = []
  · rw [if_pos (by simp [hq]), if_neg (not_not.mpr hq), List.append_nil]
    rfl
  · rw [if_neg (by simp [hq]), hcheck, if_neg (by simp), if_pos hq]
    obtain ⟨acts, htr, hquiet⟩ := callBack_trace
      (c := { c with req := { c.req with formUrlMap := parseQuery c.req.body } }) hr
    rw [htr, List.filterMap_append, List.filterMap_cons, (Act.Quiet.filterMap hquiet).1]
    rfl

end Connection

namespace UrlencodedRequest

variable {env : Env} {head body : Bytes} {t : Target} (h : UrlencodedRequest env head body t)
include h

/-- A request with a form goes to `handle_form_urlencoded`, and after it to the write. -/
theorem handleRequest_eq (hbody : body ≠ []) {c : Connection} {r : Request} {tl : Bytes} (hr : r.received = head ++ tl)
    (hp : r.Parsed c.req) (hc : r.isChunked = false) : Connection.handleRequest env c =
      (Connection.handleFormUrlencoded env { c with req := { c.req with httpType := .urlencoded } }, .state .needWrite) := by
  obtain ⟨hlength, hcontent⟩ := h.announced hbody
  obtain ⟨hhas, hch, hval⟩ := hp.hasBody_of_head hr h.complete.len h.len hlength hcontent (List.length_pos_iff.mpr hbody) hc
  have hne : Head.value head (bytes "content-type") ≠ [] := by
    intro hnil
    have hurl := h.urlencoded
    rw [hnil] at hurl
    exact absurd hurl (by decide)
  rw [Connection.handleRequest, if_pos hhas, Connection.getContentType, if_neg (by simp [hch]), hval, if_neg hne, if_pos h.urlencoded]

/-- The first read, whatever it has of the body. -/
theorem step_first (hbody : body ≠ []) (resType : ReqContentType) {tl : Bytes} (hlt : (head ++ tl).length < 1024) :
    ∃ (c : Connection) (q : Request), (Server.received resType (head ++ tl)).req.Parsed q ∧ env.router.route q.getMethod q.getUrl = some t ∧ c.req = q ∧
      c.trace = [.peek true] ∧ Server.step env (Server.fresh resType) (head ++ tl) =
        .processed (Connection.handleFormUrlencoded env { c with req := { q with httpType := .urlencoded } }) (.state .needWrite) := by
  have hroute : Head.route env.router (head ++ tl) = some t := by rw [Head.route_append h.complete.len, h.route]
  obtain ⟨q, c, hp, hr, rfl, htr, -, -, -, hs⟩ :=
    Server.step_routed resType (h.complete.append tl) hlt hroute h.unchecked
  refine ⟨c, c.req, hp, hr, rfl, htr, ?_⟩
  rw [hs, h.handleRequest_eq hbody (Server.buffered_received resType hlt).received hp rfl]

/-- When the whole request is in the first read, the handler runs if there is a separator in the form. -/
theorem step_whole (hbody : body ≠ []) (resType : ReqContentType) : ∃ c', Server.step env (Server.fresh resType) (head ++ body) =
    .processed c' (.state .needWrite) ∧ ∃ r, r.formUrlMap = parseQuery body ∧
      (Step.processed c' (.state .needWrite)).handlers = if 61 ∈ body ∨ 38 ∈ body then [(t, r)] else [] := by
  have hlt : (head ++ body).length < 1024 := by
    rw [List.length_append]
    exact h.fits
  obtain ⟨c, q, hp, hr, hreq, htr, hs⟩ := h.step_first hbody resType hlt
  have hb := Server.buffered_received resType hlt
  obtain ⟨hlength, hcontent⟩ := h.announced hbody
  obtain ⟨hlen, hsize, -, -⟩ := hp.sizes_of_head hb.received h.complete.len h.len hlength hcontent
  obtain ⟨htot, hcap⟩ := Request.totalLen_of_head hlen hsize (h.fits.le.trans (by decide))
  have hrec : q.hasRecievedAll = true := by
    refine decide_eq_true ?_
    rw [htot, hp.curSize, hb.length_eq, List.length_append]
  have hwhole : q.body = body := hp.body_eq hb.received hb.curSize hlen hsize
  have hhandlers := Connection.handleFormUrlencoded_all env
    (c := { c with req := { q with httpType := .urlencoded } }) hcap hrec h.unchecked hr
  have hparse : parseQuery ({ q with httpType := .urlencoded } : Request).body = parseQuery body := congrArg parseQuery hwhole
  refine ⟨_, hs, { q with httpType := .urlencoded, formUrlMap := parseQuery body }, rfl, ?_⟩
  refine hhandlers.trans ?_
  simp only [htr, hparse, parseQuery_ne_nil_iff]
  rfl

/-- When there is nothing in the form, the handler runs after the header. -/
theorem step_bodiless (hnil : body = []) (resType : ReqContentType) : ∃ c', Server.step env (Server.fresh resType) head =
    .processed c' (.state .needWrite) ∧ ∃ r, r.formUrlMap = [] ∧
      (Step.processed c' (.state .needWrite)).handlers = [(t, r)] := by
  obtain ⟨hbody, hup⟩ := h.bodiless hnil
  have hlt : head.length < 1024 := Nat.lt_of_le_of_lt (Nat.le_add_right _ _) h.fits
  obtain ⟨q, -, hform, hroute, hread⟩ := Server.handleRead_bodiless resType h.complete hlt h.route h.unchecked hbody hup
  obtain ⟨acts, htr, hquiet⟩ := Connection.callBack_trace
    (c := ({ Server.received resType head with req := q }.log (.peek true)).checkKeepAlive) (by simpa using hroute)
  have hstep : Server.step env (Server.fresh resType) head = _ := Server.step_fresh (Server.ne_nil_of_complete h.complete) hlt
  rw [hread] at hstep
  rw [Connection.checkKeepAlive_req, Connection.checkKeepAlive_trace] at htr
  have hall : (Step.processed (Connection.callBack env
      ({ Server.received resType head with req := q }.log (.peek true)).checkKeepAlive) (.state .needWrite)).trace =
      [.peek true] ++ .handler t q :: acts := htr
  exact ⟨_, hstep, q, hform, (Step.handlers_of_trace hall hquiet).1⟩

end UrlencodedRequest

namespace Server

/-- The form is delivered: every read before the last byte of the form is answered by waiting for the next one, and then the handler
runs once, with what `parse_query` makes of the form. -/
def DeliversUrlencoded (env : Env) (resType : ReqContentType) (arrivals : List Bytes) (t : Target) (body : Bytes) : Prop :=
  ∃ init last r, serve env (fresh resType) arrivals = init ++ [last] ∧ init.length + 1 = arrivals.length ∧
    (∀ s ∈ init, s.answer = some (.state .needRead) ∧ s.handlers = []) ∧ last.handlers = [(t, r)] ∧ r.formUrlMap = parseQuery body

/-- A form that is not in the first read as a whole is not delivered. -/
theorem not_deliversUrlencoded {env : Env} {head body : Bytes} {t : Target} (h : UrlencodedRequest env head body t)
    (hbody : body ≠ []) (resType : ReqContentType) {a : Bytes} {as : List Bytes} (hpre : head <+: a) (hlt : a.length < 1024) (has : as ≠ []) :
    ¬DeliversUrlencoded env resType (a :: as) t body := by
  rintro ⟨init, last, r, hrun, hlen, -, -, -⟩
  obtain ⟨tl, rfl⟩ := hpre
  obtain ⟨c, q, -, -, -, -, hs⟩ := h.step_first hbody resType hlt
  have hends : serve env (fresh resType) ((head ++ tl) :: as) = [step env (fresh resType) (head ++ tl)] := by
    refine serve_cons_ends fun c' answer hs' => ?_
    rw [hs] at hs'
    cases hs'
    rfl
  have hone := congrArg List.length (hends.symm.trans hrun)
  rw [List.length_append, List.length_singleton, List.length_singleton] at hone
  rw [List.length_cons] at hlen
  exact has (List.eq_nil_of_length_eq_zero (by omega))

/-- A form in one read that is answered with a write is delivered when the handler has run once, with the values of the form. -/
theorem deliversUrlencoded_singleton {env : Env} {resType : ReqContentType} {a body : Bytes} {t : Target} {c' : Connection}
    (hs : step env (fresh resType) a = .processed c' (.state .needWrite)) :
    DeliversUrlencoded env resType [a] t body ↔
      ∃ r, (Step.processed c' (.state .needWrite)).handlers = [(t, r)] ∧ r.formUrlMap = parseQuery body := by
  unfold DeliversUrlencoded
  rw [serve_singleton, hs]
  constructor
  · rintro ⟨init, last, r, hrun, hone, -, hlast, hmap⟩
    obtain rfl : init = [] := List.eq_nil_of_length_eq_zero (by simpa using hone)
    obtain rfl : Step.processed c' (.state .needWrite) = last := by simpa using hrun
    exact ⟨r, hlast, hmap⟩
  · rintro ⟨r, hlast, hmap⟩
    exact ⟨[], _, r, rfl, rfl, by simp, hlast, hmap⟩

/-- A form whose request is smaller than the first buffer, with its header in the first read, is delivered exactly when the whole
request is in that read, and the form is empty or has a separator. -/
theorem deliversUrlencoded_iff {env : Env} {head body : Bytes} {t : Target} (h : UrlencodedRequest env head body t)
    (resType : ReqContentType) {a : Bytes} {as : List Bytes} (hne : ∀ x ∈ a :: as, x ≠ []) (hpre : head <+: a)
    (hflat : (a :: as).flatten = head ++ body) :
    DeliversUrlencoded env resType (a :: as) t body ↔ as = [] ∧ (body = [] ∨ 61 ∈ body ∨ 38 ∈ body) := by
  have hlen := congrArg List.length hflat
  rw [List.flatten_cons, List.length_append, List.length_append] at hlen
  have hfits := h.fits
  by_cases has : as = []
  · subst has
    obtain rfl : a = head ++ body := by simpa using hflat
    by_cases hbody : body = []
    · obtain ⟨c', hs, r, hmap, hhandlers⟩ := h.step_bodiless hbody resType
      subst hbody
      rw [List.append_nil, deliversUrlencoded_singleton hs]
      exact iff_of_true ⟨r, hhandlers, hmap⟩ ⟨rfl, .inl rfl⟩
    · obtain ⟨c', hs, r, hmap, hhandlers⟩ := h.step_whole hbody resType
      rw [deliversUrlencoded_singleton hs, hhandlers]
      constructor
      · rintro ⟨r', hlast, -⟩
        refine ⟨rfl, .inr ?_⟩
        by_contra hsep
        rw [if_neg hsep] at hlast
        cases hlast
      · rintro ⟨-, hnil | hsep⟩
        · exact absurd hnil hbody
        · exact ⟨r, if_pos hsep, hmap⟩
  · have hbody : body ≠ [] := by
      rintro rfl
      obtain ⟨x, as, rfl⟩ := List.exists_cons_of_ne_nil has
      have hx : x.length ≠ 0 := fun h0 => hne x (by simp) (List.eq_nil_of_length_eq_zero h0)
      have hle := hpre.length_le
      rw [List.flatten_cons, List.length_append, List.length_nil] at hlen
      omega
    refine iff_of_false (not_deliversUrlencoded h hbody resType hpre (by omega) has) ?_
    rintro ⟨hnil, -⟩
    exact has hnil

/-- The header of a form of `n` bytes. -/
def urlencodedHead (n : String) : Bytes :=
  bytes "POST /f HTTP/1.1\r\nContent-Type: application/x-www-form-urlencoded\r\nContent-Length: " ++ bytes n ++ bytes "\r\n\r\n"

theorem deliversUrlencoded_iff_ab : DeliversUrlencoded (.bare [(bytes "/f", .user 0)]) .none [urlencodedHead "3" ++ bytes "a=b"]
    (.user 0) (bytes "a=b") ↔ ([] : List Bytes) = [] ∧ (bytes "a=b" = [] ∨ 61 ∈ bytes "a=b" ∨ 38 ∈ bytes "a=b") := by
  have h : UrlencodedRequest (.bare [(bytes "/f", .user 0)]) (urlencodedHead "3") (bytes "a=b") (.user 0) := by
    decide +kernel
  exact deliversUrlencoded_iff h .none (by decide +kernel) (List.prefix_append _ _) (by simp)

/-- The form `a=b` in two reads is not delivered: after the first one the connection writes. -/
theorem not_deliversUrlencoded_ab : ¬DeliversUrlencoded (.bare [(bytes "/f", .user 0)]) .none
    [urlencodedHead "3" ++ bytes "a", bytes "=b"] (.user 0) (bytes "a=b") := by
  have h : UrlencodedRequest (.bare [(bytes "/f", .user 0)]) (urlencodedHead "3") (bytes "a=b") (.user 0) := by
    decide +kernel
  exact not_deliversUrlencoded h (by decide) .none (List.prefix_append _ _) (by decide +kernel) (by simp)

end Server

end Netcore
