import Netcore.Client.Exchange

/-!
# One request after the other

`request` of `http_client`, which waits for the callback, and the members that stay from one request to the next. `read_close_finished_`
is only ever set by being replaced in `set_error_value`.

A connection is read once, right after it was made: the next request on it is written and never read. Only a response without a body
closes the connection, and then the next request makes another. `requests_eq` says which requests of a run are answered.
-/

namespace Netcore

/-- What `request` returns: the data that the callback was called with (without the headers), or the message of a timeout. It does not
return when it waits for `read_close_finished_` and nobody sets it, or when the assertion of `get_uri` fails. -/
inductive RequestOutcome where
  | answered (ec status : Int) (respBody : Bytes)
  | timedOut
  | blocked
  | aborted
  deriving DecidableEq, Repr

/-- What the network does in the course of a request: whether a connection can be made, whether the request can be written, and what
`recv` brings. -/
structure Network where
  connects : Bool
  writes : Bool
  chunks : List Received

/-- A call of `request`. -/
structure RequestCall where
  method : HttpMethod
  uri : Bytes
  body : Bytes := []

/-- The members of `http_client` that stay. -/
structure HttpClient where
  reader : ResponseReader := { connected := false }
  lastDomain : Bytes := []
  closeFinished : Bool := false
  deriving DecidableEq, Repr

/-- `last_domain_` for a URI. -/
def UriT.domain (u : UriT) : Bytes := u.schema ++ bytes "://" ++ u.host

namespace HttpClient

/-- `set_error_value`. -/
def setErrorValue (c : HttpClient) (message : Bytes) : HttpClient × RequestOutcome :=
  ({ c with closeFinished := true }, .answered 3 404 message)

/-- What the promise has been given when `do_read` has come back. -/
def outcomeOf : Option ResponseData → RequestOutcome
  | some r => .answered r.ec r.status r.respBody
  | none => .timedOut

/-- From `last_domain_` on: `do_write`, or `async_connect`. After a failed `Write` the promise has a value, and `do_read` is called all
the same. -/
def send (c : HttpClient) (u : UriT) (net : Network) : HttpClient × RequestOutcome :=
  let c := { c with lastDomain := u.domain }
  if c.reader.connected then (c, if net.writes then .timedOut else .answered 1 404 [])
  else if net.connects = false then (c, .answered 1 404 [])
  else
    let (reader, r) := { c.reader with connected := true }.doRead net.chunks
    ({ c with reader := reader }, if net.writes then outcomeOf r else .answered 1 404 [])

/-- `request`. -/
def request (c : HttpClient) (call : RequestCall) (net : Network) : HttpClient × RequestOutcome :=
  if call.method ≠ .post ∧ call.body ≠ [] then c.setErrorValue (bytes "method error")
  else
    let needReset := c.lastDomain ≠ [] ∧ contains call.uri c.lastDomain = false
    if needReset ∧ c.closeFinished = false then ({ c with reader := { c.reader with connected := false } }, .blocked)
    else
      let c := if needReset then { c with reader := { c.reader with connected := false }, closeFinished := false } else c
      match getUri call.uri with
      | .invalid => c.setErrorValue (bytes "invalid_uri")
      | .parsed u => c.send u net
      | .encoded u => c.send u net
      | .aborted => (c, .aborted)

/-- A run of requests, up to one that does not return. -/
def requests (c : HttpClient) : List (RequestCall × Network) → List RequestOutcome
  | [] => []
  | (call, net) :: calls =>
    match c.request call net with
    | (_, .blocked) => [.blocked]
    | (_, .aborted) => [.aborted]
    | (c, o) => o :: c.requests calls

end HttpClient

/-! ## The reader between requests -/

/-- A new reader has nothing left when a response without a body has come, and stays connected after another. -/
theorem ResponseReader.doRead_connected {h : ResponseHead} {body : Bytes} (hl : h.Announces body.length) {chunks : List Received}
    (harr : arrived chunks = h.write ++ body) : (doRead {} chunks).1.connected = decide (body ≠ []) ∧
      (body = [] → (doRead {} chunks).1 = { connected := false }) := by
  obtain ⟨hends, hfirst⟩ := h.ends_once
  have hne : h.write ≠ [] := by
    intro hnil
    rw [hnil] at hends
    exact absurd hends.length_le (by decide)
  obtain ⟨left, rest, hread, hrest⟩ := readUntil_some chunks hne (List.nil_append h.write ▸ hends)
    (fun p _ hp hpne hend => hpne (hfirst p hp hend)) harr
  unfold doRead
  rw [hread]
  simp only [List.nil_append, hl.parsed]
  rw [if_neg (show ¬(h.parsed body.length).headerLen < 0 from Int.not_lt.mpr (Int.natCast_nonneg _))]
  by_cases hb : body = []
  · obtain rfl : left = [] := (List.append_eq_nil_iff.mp (hrest.trans hb)).1
    have h0 : (h.parsed body.length).bodyLen = 0 := congrArg (fun b : Bytes => (b.length : Int)) hb
    rw [if_pos h0]
    exact ⟨(decide_eq_false (not_not.mpr hb)).symm, fun _ => rfl⟩
  · have h0 : ¬(h.parsed body.length).bodyLen = 0 := fun h' => hb (List.length_eq_zero_iff.mp (Int.ofNat_eq_zero.mp h'))
    rw [if_neg h0]
    exact ⟨(decide_eq_true hb).symm, fun h' => absurd h' hb⟩

/-! ## Runs -/

/-- A `GET` that the network brings to a server and whose response it brings back. -/
structure Served where
  uri : UriText
  schema_ne : uri.schema ≠ httpsSchema
  net : Network
  connects : net.connects = true
  writes : net.writes = true
  head : ResponseHead
  body : Bytes
  announces : head.Announces body.length
  arrived_eq : arrived net.chunks = head.write ++ body

namespace Served

/-- The call of `request`, with what the network does. -/
def call (s : Served) : RequestCall × Network := ({ method := .get, uri := s.uri.write }, s.net)

/-- The scheme and the host that the request goes to. -/
def domain (s : Served) : Bytes := s.uri.fields.domain

/-- The URI has its scheme and its host in it as `last_domain_` has them. -/
def Plain (s : Served) : Prop := contains s.uri.write s.domain = true

instance (s : Served) : Decidable s.Plain := inferInstanceAs (Decidable (_ = _))

theorem getUri_write (s : Served) : getUri s.uri.write = .parsed s.uri.fields := Netcore.getUri_write s.schema_ne

/-- A URI that is served has a domain. -/
theorem domain_ne_nil (s : Served) : s.domain ≠ [] := by
  have hslashes : bytes "://" ≠ [] := by decide
  simp [domain, UriT.domain, hslashes]

/-- A URI without user info is plain. -/
theorem plain_of_uinfo {s : Served} {a : Authority} (ha : s.uri.authority = some a) (hu : a.uinfo = none) : s.Plain := by
  have hslashes : bytes "://" = [COLON, SLASH, SLASH] := by decide
  have hfront : a.front = a.host := by rw [Authority.front, hu, List.nil_append]
  have hhost : s.uri.fields.host = a.host := by rw [UriText.fields, ha]; rfl
  refine decide_eq_true (List.IsPrefix.isInfix ?_)
  rw [domain, UriT.domain, hslashes, hhost, UriText.write, ha, authorityText, Authority.write, hfront]
  simp [UriText.fields]

end Served

/-- What comes back of the requests after the first, on a client whose connection has been read or not: a request that is not plain
blocks; one on a connection that has been read is not answered; and another one is. -/
def expectedLater : Bool → List Served → List RequestOutcome
  | _, [] => []
  | read, s :: rest =>
    if ¬s.Plain then [.blocked]
    else if read then .timedOut :: expectedLater true rest
    else .answered 0 s.head.code s.body :: expectedLater (decide (s.body ≠ [])) rest

/-- What comes back of a run. -/
def expected : List Served → List RequestOutcome
  | [] => []
  | s :: rest => .answered 0 s.head.code s.body :: expectedLater (decide (s.body ≠ [])) rest

namespace HttpClient

/-- A request goes to the domain of the client. -/
theorem request_served {c : HttpClient} (s : Served) (hc : c.lastDomain = [] ∨ c.lastDomain = s.domain ∧ s.Plain) :
    c.request s.call.1 s.call.2 = c.send s.uri.fields s.net := by
  have hno : ¬(c.lastDomain ≠ [] ∧ contains s.call.1.uri c.lastDomain = false) := by
    rintro ⟨hne, hcontains⟩
    obtain ⟨hd, hplain⟩ := hc.resolve_left hne
    rw [hd] at hcontains
    exact Bool.noConfusion (hcontains.symm.trans hplain)
  unfold request
  rw [if_neg (fun h => h.2 rfl)]
  simp only
  rw [if_neg (fun h => hno h.1), if_neg hno]
  simp only [Served.call, s.getUri_write]

/-- A request whose URI is not plain waits for `read_close_finished_`. -/
theorem request_not_plain {c : HttpClient} {s : Served} (hs : ¬s.Plain) (hc : c.lastDomain = s.domain) (hclose : c.closeFinished = false) :
    (c.request s.call.1 s.call.2).2 = .blocked := by
  have hreset : c.lastDomain ≠ [] ∧ contains s.call.1.uri c.lastDomain = false := by
    refine ⟨by rw [hc]; exact s.domain_ne_nil, ?_⟩
    rw [hc]
    exact Bool.not_eq_true _ |>.mp hs
  unfold request
  rw [if_neg (fun h => h.2 rfl)]
  simp only
  rw [if_pos ⟨hreset, hclose⟩]

/-- A request on a connection that has been read. -/
theorem send_connected {c : HttpClient} (hc : c.reader.connected = true) (s : Served) :
    c.send s.uri.fields s.net = ({ c with lastDomain := s.domain }, .timedOut) := by
  unfold send
  simp only [hc, s.writes, if_true]
  rfl

/-- A request on a new connection. -/
theorem send_new {c : HttpClient} (hc : c.reader = { connected := false }) (s : Served) :
    ∃ reader, c.send s.uri.fields s.net = (⟨reader, s.domain, c.closeFinished⟩, .answered 0 s.head.code s.body) ∧
      reader.connected = decide (s.body ≠ []) ∧ (s.body = [] → reader = { connected := false }) := by
  obtain ⟨hconnected, hnew⟩ := ResponseReader.doRead_connected s.announces s.arrived_eq
  have harr : arrived s.net.chunks = (s.head.write ++ s.body).take (s.head.write ++ s.body).length := by
    rw [s.arrived_eq, List.take_length]
  have hread := ResponseReader.doRead_response s.announces harr
  rw [List.length_append, if_neg (by omega), if_pos le_rfl] at hread
  refine ⟨_, ?_, hconnected, hnew⟩
  unfold send
  simp only [hc, s.connects, s.writes, Bool.false_eq_true, Bool.true_eq_false, if_false, if_true, hread]
  rfl

/-- The requests after the first. -/
theorem requests_later {d : Bytes} (rs : List Served) : ∀ {c : HttpClient} {read : Bool}, c.reader.connected = read →
    (read = false → c.reader = { connected := false }) → c.lastDomain = d → c.closeFinished = false → (∀ s ∈ rs, s.domain = d) →
      c.requests (rs.map Served.call) = expectedLater read rs := by
  induction rs with
  | nil => exact fun _ _ _ _ _ => rfl
  | cons s rs ih =>
    intro c read hread hnew hd hclose hrs
    obtain ⟨hs, hrest⟩ := List.forall_mem_cons.mp hrs
    rw [List.map_cons, requests, expectedLater]
    by_cases hplain : s.Plain
    · rw [if_neg (not_not.mpr hplain)]
      have hstep := request_served s (.inr ⟨hd.trans hs.symm, hplain⟩)
      cases read with
      | true =>
        rw [if_pos rfl, hstep, send_connected hread s]
        simp only
        rw [ih (c := { c with lastDomain := s.domain }) hread (fun h => Bool.noConfusion h) hs hclose hrest]
      | false =>
        obtain ⟨reader, hsend, hconnected, hempty⟩ := send_new (hnew rfl) s
        rw [if_neg Bool.false_ne_true, hstep, hsend]
        simp only
        rw [ih (c := ⟨reader, s.domain, c.closeFinished⟩) hconnected (fun h => hempty (by simpa using h)) hs hclose hrest]
    · have hblocked := request_not_plain hplain (hd.trans hs.symm) hclose
      rw [if_pos hplain]
      cases hrequest : c.request s.call.1 s.call.2 with
      | mk c' o =>
        rw [hrequest] at hblocked
        obtain rfl : o = .blocked := hblocked
        rfl

/-- **A run of requests to one domain.** Up to the first response that has a body every request is answered with the status and the body
of its response, and none after that is answered, although each is written to the server and the server responds. The run blocks at the
first request after the first whose URI does not have the domain in it as a text, as when there is user info between. -/
theorem requests_eq {d : Bytes} (rs : List Served) (hrs : ∀ s ∈ rs, s.domain = d) : requests {} (rs.map Served.call) = expected rs := by
  cases rs with
  | nil => rfl
  | cons s rs =>
    obtain ⟨hs, hrest⟩ := List.forall_mem_cons.mp hrs
    obtain ⟨reader, hsend, hconnected, hempty⟩ := send_new (c := {}) rfl s
    rw [List.map_cons, requests, request_served s (.inl rfl), hsend, expected]
    simp only
    rw [requests_later rs (c := ⟨reader, s.domain, false⟩) hconnected (fun h => hempty (by simpa using h)) hs rfl hrest]

end HttpClient

/-- `GET` of a URI, and a response with the body `hi`. -/
def hiServed (uri : UriText) (hschema : uri.schema ≠ httpsSchema) : Served where
  uri := uri
  schema_ne := hschema
  net := ⟨true, true, [⟨ResponseHead.twoBytes.write ++ bytes "hi", by decide, by decide⟩]⟩
  connects := rfl
  writes := rfl
  head := ResponseHead.twoBytes
  body := bytes "hi"
  announces := ⟨by decide, by decide⟩
  arrived_eq := by decide

/-- `me` is user info. -/
theorem me_chars : ∀ c ∈ bytes "me", isUserInfoCharacter c = true := List.all_eq_true.mp (by decide)

/-- `http://me@localhost/`. -/
def meAtLocalhost : UriText :=
  { localRoot with
    authority := some
      { localhost with
        uinfo := some (bytes "me")
        uinfo_chars := fun _ h => Option.some.inj h ▸ me_chars
        uinfo_none := fun h => (nomatch h) }
    path_first := fun _ => .inr rfl
    path_relative := fun h => (nomatch h)
    hidden_alone := fun h => absurd rfl h }

/-- Of three requests the first is answered, the second is not, and the third, with user info in its URI, does not come back. -/
theorem requests_eq_three : HttpClient.requests {}
      ([hiServed localRoot (by decide), hiServed localRoot (by decide), hiServed meAtLocalhost (by decide)].map Served.call) =
    [.answered 0 200 (bytes "hi"), .timedOut, .blocked] :=
  (HttpClient.requests_eq (d := bytes "http://localhost")
    [hiServed localRoot (by decide), hiServed localRoot (by decide), hiServed meAtLocalhost (by decide)]
    (List.forall_mem_cons.mpr ⟨by decide, List.forall_mem_cons.mpr ⟨by decide, List.forall_mem_singleton.mpr (by decide)⟩⟩)).trans
      (by decide)

end Netcore
