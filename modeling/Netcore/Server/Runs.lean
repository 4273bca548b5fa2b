import Netcore.Connection.Trace
import Netcore.Http.Buffer
import Netcore.Http.Header
import Netcore.Server

/-!
# Runs of the server

What one step of the loop of `Server::handle` can be, and the rule by which a property of one step becomes a property of
every run.
-/

namespace Netcore

open Slices

/-- An application without callbacks and hooks: exact routes for all methods, handlers that answer with their number, and
no files. -/
def Env.bare (routes : List (Bytes × Target)) : Env where
  router := { mapInvokers := routes.map fun e => (e.1, ⟨[.get, .post, .put, .del, .head], e.2⟩) }
  handler := fun id req res => (req, res.setStatusAndContent .ok (decimal id))
  event := fun _ => none
  wsCheck := fun _ => none
  checkHeaders := none
  uploadCheck := none
  downloadCheck := none
  notFound := none
  acceptKey := id
  files := fun _ => none
  canCreate := fun _ => false
  uploadName := fun n => decimal n
  mime := fun _ => bytes "text/plain"
  fill := fun _ => 0
  heap := fun _ => 0

/-- The run of a handler, with its request. -/
def Act.handler? : Act → Option (Target × Request)
  | .handler t r => some (t, r)
  | _ => none

/-- The lookup of a route. -/
def Act.peek? : Act → Option Bool
  | .peek b => some b
  | _ => none

/-- The handlers run by the end of a step. -/
def Step.handlers (s : Step) : List (Target × Request) := s.trace.filterMap Act.handler?

/-- The lookups of routes made by the end of a step. -/
def Step.peeks (s : Step) : List Bool := s.trace.filterMap Act.peek?

/-- Quiet acts are neither. -/
theorem Act.Quiet.filterMap {acts : List Act} (h : ∀ a ∈ acts, a.Quiet) :
    acts.filterMap Act.handler? = [] ∧ acts.filterMap Act.peek? = [] := by
  simp only [List.filterMap_eq_nil_iff]
  refine ⟨?_, ?_⟩ <;> intro a ha <;> have hq := h a ha <;> cases a <;> first | rfl | exact hq.elim

/-- Where only quiet acts were added, no handler has run. -/
theorem Connection.Extends.handlers {c c' : Connection} (h : Connection.Extends Act.Quiet c c')
    (h0 : c.trace.filterMap Act.handler? = []) : c'.trace.filterMap Act.handler? = [] := by
  obtain ⟨acts, he, hq⟩ := h
  rw [he, List.filterMap_append, h0, (Act.Quiet.filterMap hq).1]
  rfl

/-- A step that ends with the run of a handler. -/
theorem Step.handlers_of_trace {s : Step} {pre acts : List Act} {t : Target} {r : Request}
    (h : s.trace = pre ++ .handler t r :: acts) (hq : ∀ a ∈ acts, a.Quiet) :
    s.handlers = pre.filterMap Act.handler? ++ [(t, r)] ∧ s.peeks = pre.filterMap Act.peek? := by
  obtain ⟨h1, h2⟩ := Act.Quiet.filterMap hq
  rw [Step.handlers, Step.peeks, h, List.filterMap_append, List.filterMap_append]
  rw [List.filterMap_cons, List.filterMap_cons, h1, h2]
  exact ⟨rfl, List.append_nil _⟩

/-- The answer of `process` in a step. -/
def Step.answer : Step → Option Answer
  | .processed _ answer => some answer
  | _ => none

/-- A read leaves what was sent in the buffer. -/
theorem Request.Buffered.receive {sent : Bytes} {r : Request} (h : r.Buffered sent) {arrival : Bytes}
    (ha : arrival.length ≤ r.leftSize) : (Server.receive r arrival).Buffered (sent ++ arrival) := by
  have hc := h.curSize
  have hle : r.curSize + arrival.length ≤ r.buf.length := by
    unfold Request.leftSize at ha
    omega
  refine ⟨?_, ?_, ?_⟩
  · show (overwrite r.buf r.curSize arrival).take (r.curSize + arrival.length) = _
    rw [take_overwrite hc, ← h.received]
    rfl
  · show r.curSize + arrival.length ≤ (overwrite r.buf r.curSize arrival).length
    rw [length_overwrite hle]
    exact hle
  · show (overwrite r.buf r.curSize arrival).length ≤ maxSize
    rw [length_overwrite hle]
    exact h.length

/-- The room in the buffer is less by what has come. -/
theorem Server.receive_leftSize {r : Request} {arrival : Bytes} (h : arrival.length ≤ r.leftSize) :
    (Server.receive r arrival).leftSize = r.leftSize - arrival.length := by
  unfold Request.leftSize at *
  show (overwrite r.buf r.curSize arrival).length - (r.curSize + arrival.length) = _
  by_cases hc : r.curSize ≤ r.buf.length
  · rw [length_overwrite (by omega)]
    omega
  · have ha : arrival.length = 0 := by omega
    rw [List.length_eq_zero_iff.mp ha, overwrite]
    simp

/-- What `recv` comes to. -/
theorem recv_eq_some {arrival : Bytes} {size n : Nat} (h : recv arrival size = some n) (hn : n ≠ 0) :
    n = arrival.length ∧ arrival ≠ [] ∧ arrival.length < size := by
  unfold recv at h
  split_ifs at h with h1 h2
  · exact absurd (Option.some.inj h).symm hn
  · rw [not_or] at h1
    exact ⟨(Option.some.inj h).symm, h1.2, Nat.not_le.mp h2⟩

/-- A read that is shorter than the room gets all there is. -/
theorem recv_of_lt {arrival : Bytes} {size : Nat} (hne : arrival ≠ []) (h : arrival.length < size) :
    recv arrival size = some arrival.length := by
  unfold recv
  rw [if_neg (by rw [not_or]; exact ⟨by omega, hne⟩), if_neg (by omega)]

namespace Connection

/-- A request that does not ask for a WebSocket is not upgraded. -/
theorem checkKeepAlive_isUpgrade {c : Connection} (h : c.isUpgrade = false) (hw : (wsIsUpgrade c.ws c.req).2 = false) :
    c.checkKeepAlive.isUpgrade = false := by
  unfold checkKeepAlive
  dsimp only
  generalize (if c.req.isHttp11 = true then _ else _ : Bool) = keep
  cases keep with
  | true => exact hw
  | false => exact h

/-- Whether a WebSocket is asked for is read from the header. -/
theorem wsIsUpgrade_parsed {r q : Request} (hp : r.Parsed q) (hm : r.methodStr = []) (w : Websocket) :
    (wsIsUpgrade w q).2 = Head.isUpgrade r.received := by
  unfold wsIsUpgrade Head.isUpgrade
  simp only [hp.getHeaderValue, hp.getMethod_of_nil hm]
  split_ifs with hno
  · symm
    rw [decide_eq_false_iff_not]
    rintro ⟨h1, h2, h3, h4, h5, -⟩
    rcases hno with hno | hno | hno | hno | hno
    · exact hno h1
    · exact h2 hno
    · exact h3 hno
    · rw [h4] at hno
      cases hno
    · rw [h5] at hno
      cases hno
  · simp only [not_or, not_not, Bool.not_eq_false] at hno
    obtain ⟨h1, h2, h3, h4, h5⟩ := hno
    simp [h1, h2, h3, h4, h5]

end Connection

namespace Server

/-- A new connection has a buffer of 1024 bytes. -/
theorem fresh_length (resType : ReqContentType) : (fresh resType).req.buf.length = 1024 :=
  List.length_replicate

/-- Nothing has been received yet. -/
theorem buffered_fresh (resType : ReqContentType) : (fresh resType).req.Buffered [] := by
  refine ⟨rfl, Nat.zero_le _, ?_⟩
  rw [fresh_length]
  decide

/-- A step in which something was read and processed. -/
theorem step_processed {env : Env} {c c' : Connection} {a : Bytes} {answer : Answer}
    (h : step env c a = .processed c' answer) : a ≠ [] ∧ a.length < c.req.leftSize ∧ c.req.curSize + a.length ≤ maxSize ∧
      Connection.process env { c with req := receive c.req a } = (c', answer) := by
  unfold step at h
  split at h
  · cases h
  · cases h
  · rename_i n hn hrecv
    obtain ⟨hlen, hne, hlt⟩ := recv_eq_some hrecv hn
    dsimp only at h
    split at h
    · cases h
    · rename_i hmax
      injection h with h1 h2
      exact ⟨hne, hlt, Nat.not_lt.mp hmax, Prod.ext h1 h2⟩

/-- A read that leaves room in the buffer is processed. -/
theorem step_eq {env : Env} {c : Connection} {a : Bytes} (hne : a ≠ []) (hlt : a.length < c.req.leftSize)
    (hmax : c.req.curSize + a.length ≤ maxSize) :
    step env c a = .processed (Connection.process env { c with req := receive c.req a }).1
      (Connection.process env { c with req := receive c.req a }).2 := by
  have hpos : a.length ≠ 0 := fun h => hne (List.length_eq_zero_iff.mp h)
  unfold step
  rw [recv_of_lt hne hlt]
  cases hn : a.length with
  | zero => exact absurd hn hpos
  | succ n =>
    dsimp only
    rw [if_neg]
    · rfl
    · show ¬maxSize < c.req.curSize + a.length
      omega

/-- A connection after the bytes of its first read. -/
def received (resType : ReqContentType) (a : Bytes) : Connection :=
  { fresh resType with req := receive (fresh resType).req a }

/-- All of it is free. -/
theorem fresh_leftSize (resType : ReqContentType) : (fresh resType).req.leftSize = 1024 := by
  show (fresh resType).req.buf.length - 0 = 1024
  rw [fresh_length]

/-- After a first read the rest of it is free. -/
theorem received_leftSize (resType : ReqContentType) {a : Bytes} (h : a.length < 1024) :
    (received resType a).req.leftSize = 1024 - a.length := by
  rw [← fresh_leftSize resType]
  apply receive_leftSize
  rw [fresh_leftSize]
  omega

/-- After a first read the buffer has what was read. -/
theorem buffered_received (resType : ReqContentType) {a : Bytes} (h : a.length < 1024) :
    (received resType a).req.Buffered a := by
  have hle : a.length ≤ (fresh resType).req.leftSize := by
    rw [fresh_leftSize]
    omega
  have hb := (buffered_fresh resType).receive hle
  rwa [List.nil_append] at hb

/-- The first read of a connection goes to `handle_read`. -/
theorem step_fresh {env : Env} {resType : ReqContentType} {a : Bytes} (hne : a ≠ []) (h : a.length < 1024) :
    step env (fresh resType) a = .processed (Connection.handleRead env (received resType a)).1
      (Connection.handleRead env (received resType a)).2 := by
  rw [step_eq hne]
  · rw [Connection.process_none (by rfl) rfl]
    rfl
  · rw [fresh_leftSize]
    exact h
  · show 0 + a.length ≤ maxSize
    unfold maxSize
    omega

/-- A first read with a complete header, for which there is a route: the connection on which `handle_request` is called. -/
theorem handleRead_routed {env : Env} (resType : ReqContentType) {a : Bytes} {t : Target} (hc : Head.Complete a)
    (h : a.length < 1024) (hr : Head.route env.router a = some t) (hn : env.checkHeaders = none) :
    ∃ q, (received resType a).req.Parsed q ∧ q.files = [] ∧ q.formUrlMap = [] ∧
      env.router.route q.getMethod q.getUrl = some t ∧ Connection.handleRead env (received resType a) =
        Connection.handleRequest env ({ received resType a with req := q }.log (.peek true)).checkKeepAlive := by
  have hb := buffered_received resType h
  have hc' : Head.Complete (received resType a).req.received := by
    rw [hb.received]
    exact hc
  have hmax : (received resType a).req.curSize ≤ (received resType a).req.maxHeaderLen := by
    rw [hb.length_eq]
    show a.length ≤ 1048576
    omega
  have hfree : env.checkHeaders.map (· (received resType a).req.parseTokens) ≠ some false := by simp [hn]
  obtain ⟨q, hq, hp, hurl⟩ := Request.parseHeader_accepted hc' hb.curSize hmax hfree
  have hroute : env.router.route q.getMethod q.getUrl = some t := by
    rw [hp.route rfl rfl, hb.received, hr]
  have hfiles := Request.parseHeader_files (received resType a).req env.checkHeaders
  rw [hq] at hfiles
  refine ⟨q, hp, hfiles, (Request.parseFields_queries hurl).1, hroute, ?_⟩
  rw [Connection.handleRead_complete hq (by rw [hb.received]; exact hc.len) hroute]

/-- Such a request without a body, that does not ask for a WebSocket, goes to its handler. -/
theorem handleRead_bodiless {env : Env} (resType : ReqContentType) {a : Bytes} {t : Target} (hc : Head.Complete a)
    (h : a.length < 1024) (hr : Head.route env.router a = some t) (hn : env.checkHeaders = none) (hbody : Head.hasBody a = false)
    (hup : Head.isUpgrade a = false) : ∃ q, (received resType a).req.Parsed q ∧ q.formUrlMap = [] ∧
      env.router.route q.getMethod q.getUrl = some t ∧ Connection.handleRead env (received resType a) =
        (Connection.callBack env ({ received resType a with req := q }.log (.peek true)).checkKeepAlive, .state .needWrite) := by
  have hb := buffered_received resType h
  obtain ⟨q, hp, -, hform, hroute, hread⟩ := handleRead_routed resType hc h hr hn
  refine ⟨q, hp, hform, hroute, hread.trans (Connection.handleRequest_bodyless ?_ ?_)⟩
  · rw [Connection.checkKeepAlive_req, Connection.log_req, hp.hasBody rfl, hb.received]
    exact hbody
  · refine Connection.checkKeepAlive_isUpgrade rfl ?_
    rw [Connection.log_req, Connection.wsIsUpgrade_parsed hp rfl, hb.received]
    exact hup

/-- A complete header is not empty. -/
theorem ne_nil_of_complete {a : Bytes} (hc : Head.Complete a) : a ≠ [] := by
  rintro rfl
  exact absurd hc.len (by decide)

/-- The step of such a read goes to `handle_request`. -/
theorem step_routed {env : Env} (resType : ReqContentType) {a : Bytes} {t : Target} (hc : Head.Complete a) (h : a.length < 1024)
    (hr : Head.route env.router a = some t) (hn : env.checkHeaders = none) : ∃ q c, (received resType a).req.Parsed q ∧
      env.router.route q.getMethod q.getUrl = some t ∧ c.req = q ∧ c.trace = [.peek true] ∧ c.reader = {} ∧
      c.isMultiPartFile = false ∧ q.files = [] ∧
      step env (fresh resType) a = .processed (Connection.handleRequest env c).1 (Connection.handleRequest env c).2 := by
  obtain ⟨q, hp, hfiles, -, hroute, hread⟩ := handleRead_routed resType hc h hr hn
  obtain ⟨keep, ws, up, hk⟩ := Connection.checkKeepAlive_eq ({ received resType a with req := q }.log (.peek true))
  refine ⟨q, _, hp, hroute, Connection.checkKeepAlive_req _, (Connection.checkKeepAlive_trace _).trans rfl, by rw [hk]; rfl,
    by rw [hk]; rfl, hfiles, ?_⟩
  rw [step_fresh (ne_nil_of_complete hc) h, hread]

/-- A first read that does not fit the buffer. -/
theorem step_fresh_full {env : Env} {resType : ReqContentType} {a : Bytes} (h : 1024 ≤ a.length) :
    step env (fresh resType) a = .recvError := by
  have hrecv : recv a (fresh resType).req.leftSize = none := by
    have hne : a ≠ [] := by
      rintro rfl
      exact absurd h (by decide)
    rw [fresh_leftSize, recv, if_neg (by simp [hne]), if_pos h]
  rw [step, hrecv]

/-- Whether the loop goes on after a step. -/
def continues : Answer → Bool
  | .state .needRead | .state .needWriteThenRead => true
  | _ => false

/-- A run goes on with the connection that a step leaves. -/
theorem serve_cons_continues {env : Env} {c c' : Connection} {a : Bytes} {as : List Bytes} {answer : Answer}
    (h : step env c a = .processed c' answer) (hc : continues answer = true) :
    serve env c (a :: as) = .processed c' answer :: serve env c' as := by
  rw [serve, h]
  match answer, hc with
  | .state .needRead, _ => rfl
  | .state .needWriteThenRead, _ => rfl

/-- A run ends with a step that does not continue. -/
theorem serve_cons_ends {env : Env} {c : Connection} {a : Bytes} {as : List Bytes}
    (h : ∀ c' answer, step env c a = .processed c' answer → continues answer = false) :
    serve env c (a :: as) = [step env c a] := by
  rw [serve]
  split
  · rename_i c' hs
    cases h c' _ hs
  · rename_i c' hs
    cases h c' _ hs
  · rfl

/-- A single read is a single step. -/
theorem serve_singleton (env : Env) (c : Connection) (a : Bytes) : serve env c [a] = [step env c a] := by
  by_cases h : ∃ c' answer, step env c a = .processed c' answer ∧ continues answer = true
  · obtain ⟨c', answer, hs, hc⟩ := h
    rw [serve_cons_continues hs hc, hs]
    rfl
  · apply serve_cons_ends
    intro c' answer hs
    by_contra hc
    exact h ⟨c', answer, hs, by simpa using hc⟩

/-- A step of a run is its first one, or belongs to the run that goes on after it. -/
theorem mem_serve_cons {env : Env} {c c' : Connection} {a : Bytes} {as : List Bytes} {answer : Answer}
    (h : .processed c' answer ∈ serve env c (a :: as)) : step env c a = .processed c' answer ∨
      ∃ c₁ ans₁, step env c a = .processed c₁ ans₁ ∧ continues ans₁ = true ∧ .processed c' answer ∈ serve env c₁ as := by
  by_cases hcont : ∃ c₁ ans₁, step env c a = .processed c₁ ans₁ ∧ continues ans₁ = true
  · obtain ⟨c₁, ans₁, hs, hc⟩ := hcont
    rw [serve_cons_continues hs hc] at h
    rcases List.mem_cons.mp h with heq | hmem
    · exact .inl (hs.trans heq.symm)
    · exact .inr ⟨c₁, ans₁, hs, hc, hmem⟩
  · rw [serve_cons_ends] at h
    · exact .inl (List.mem_singleton.mp h).symm
    · intro c₁ ans₁ hs
      by_contra hc
      exact hcont ⟨c₁, ans₁, hs, by simpa using hc⟩

/-- The invariant rule. When `Inv` holds before a read, `Post` of the bytes sent so far holds after it, and `Inv` holds
again when the loop goes on, then `Post` holds after every read of a run. -/
theorem serve_invariant {env : Env} (Inv Post : Bytes → Connection → Prop)
    (hstep : ∀ sent c a c' answer, Inv sent c → step env c a = .processed c' answer →
      Post (sent ++ a) c' ∧ (continues answer = true → Inv (sent ++ a) c')) :
    ∀ (arrivals : List Bytes) (sent : Bytes) (c : Connection), Inv sent c → ∀ c' answer,
      .processed c' answer ∈ serve env c arrivals → ∃ now, now <+: sent ++ arrivals.flatten ∧ Post now c' := by
  intro arrivals
  induction arrivals with
  | nil =>
    intro sent c _ c' answer hmem
    cases hmem
  | cons a as ih =>
    intro sent c hinv c' answer hmem
    have hflat : sent ++ (a :: as).flatten = (sent ++ a) ++ as.flatten := by
      rw [List.flatten_cons, List.append_assoc]
    rw [hflat]
    rcases mem_serve_cons hmem with hs | ⟨c₁, ans₁, hs, hc, hmem⟩
    · exact ⟨sent ++ a, List.prefix_append _ _, (hstep sent c a c' answer hinv hs).1⟩
    · exact ih (sent ++ a) c₁ ((hstep sent c a c₁ ans₁ hinv hs).2 hc) c' answer hmem

end Server

end Netcore
