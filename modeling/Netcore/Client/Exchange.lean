import Netcore.Client.Responses
import Netcore.Client.Uploads
import Netcore.Client.Uri
import Netcore.Http.Cookies
import Netcore.Http.Serialization
import Netcore.Server.TextBody

/-!
# A request and its response

`get` and `post` of a new client against the server: the request that `build_write_msg` writes is one that the server reads as it was
meant, and the response that a handler sets is what the client reports. The requests and responses here are well formed because of what
a `Context` and the response of a handler are made of.
-/

namespace Netcore

open Slices

/-! ## The response as the client reads it -/

/-- A header that a response can have: a name and a value that a header line may have. -/
structure Sendable (header : Bytes × Bytes) : Prop where
  name_ne : header.1 ≠ []
  name_chars : ∀ c ∈ header.1, isTokenChar c = true
  value_chars : ∀ c ∈ header.2, isTextChar c = true

/-- The value of a header without the blanks before it. -/
def trimmed (header : Bytes × Bytes) : Bytes × Bytes := (header.1, header.2.dropWhile isBlank)

/-- Headers that can be sent are header lines. -/
theorem exists_lines {headers : List (Bytes × Bytes)} (h : ∀ x ∈ headers, Sendable x) : ∃ ls : List HeaderLine,
    ls.flatMap HeaderLine.write = headers.flatMap textLine ∧ (ls.map fun l => (l.name, l.value)) = headers.map trimmed := by
  induction headers with
  | nil => exact ⟨[], rfl, rfl⟩
  | cons x headers ih =>
    obtain ⟨hx, hrest⟩ := List.forall_mem_cons.mp h
    obtain ⟨ls, hwrite, hvalues⟩ := ih hrest
    refine ⟨⟨x.1, x.2, hx.name_ne, hx.name_chars, hx.value_chars⟩ :: ls, ?_, ?_⟩
    · rw [List.flatMap_cons, List.flatMap_cons, hwrite]
      simp [HeaderLine.write, textLine]
    · rw [List.map_cons, List.map_cons, hvalues]
      rfl

/-- A header is sendable if its name is a token and its value has only characters of a text. -/
theorem sendable_of_all {header : Bytes × Bytes} (hne : header.1 ≠ []) (hname : header.1.all isTokenChar = true)
    (hvalue : header.2.all isTextChar = true) : Sendable header :=
  ⟨hne, List.all_eq_true.mp hname, List.all_eq_true.mp hvalue⟩

/-- The headers that `add_content_type` writes are sendable, for every type. -/
theorem sendable_written (resType : ReqContentType) : ∀ x ∈ resType.written, Sendable x := by
  have hserver : Sendable (bytes "Server", bytes " netcore") := sendable_of_all (by decide) (by decide) (by decide)
  cases resType with
  | multipart => exact List.forall_mem_singleton.mpr (sendable_of_all (by decide) (by decide) (by decide))
  | none => exact List.forall_mem_singleton.mpr hserver
  | html | json | string =>
    exact List.forall_mem_cons.mpr ⟨sendable_of_all (by decide) (by decide) (by decide), List.forall_mem_singleton.mpr hserver⟩

/-- The `Content-Length` that the response writes is sendable. -/
theorem sendable_length (n : Nat) : Sendable (bytes "Content-Length", SPACE :: decimal (n : Int)) := by
  have hname : bytes "Content-Length" ≠ [] ∧ (bytes "Content-Length").all isTokenChar = true := by decide
  refine ⟨hname.1, List.all_eq_true.mp hname.2, fun c hc => ?_⟩
  rcases List.mem_cons.mp hc with rfl | hc
  · decide
  · exact (decimal_chars hc).1

/-- The status line as a client takes it apart. -/
theorem StatusType.line_eq (status : StatusType) : status.line = bytes "HTTP/1.1" ++ SPACE ::
    (ResponseHead.digits status.code ++ SPACE :: status.reason) ∧ status.code < 1000 ∧ status.reason.all isTextChar = true := by
  cases status <;> decide

/-- What a handler has to keep to for its response to be read: headers that can be sent, no more than there is room for, and none that
gives another length. -/
structure Response.Proper (res : Response) : Prop where
  cookie : res.cookie = none
  sendable : ∀ x ∈ res.headers, Sendable x
  room : res.headers.length ≤ 97
  length : ∀ x ∈ res.headers, iequal x.1 (bytes "content-length") = false

/-- The headers of a response as a client reports them. -/
def Response.reported (res : Response) (resType : ReqContentType) (length : Nat) : List (Bytes × Bytes) :=
  (res.headers ++ (bytes "Content-Length", SPACE :: decimal (length : Int)) :: resType.written).map trimmed

/-- A content type is one header, or two. -/
theorem length_written (resType : ReqContentType) : resType.written.length ≤ 2 := by cases resType <;> decide

/-- A text of a status line, headers and a content is a head and the content. -/
theorem exists_head_of_headers (status : StatusType) {headers : List (Bytes × Bytes)} (hsend : ∀ x ∈ headers, Sendable x)
    (hroom : headers.length ≤ 100) : ∃ h : ResponseHead, h.code = status.code ∧
      (h.lines.map fun l => (l.name, l.value)) = headers.map trimmed ∧
        ∀ content, status.line ++ CRLF ++ (headers.flatMap textLine ++ (CRLF ++ content)) = h.write ++ content := by
  obtain ⟨ls, hwrite, hvalues⟩ := exists_lines hsend
  obtain ⟨hline, hcode, hreason⟩ := status.line_eq
  have hcount : ls.length ≤ 100 := by
    have hlength := congrArg List.length hvalues
    rw [List.length_map, List.length_map] at hlength
    omega
  refine ⟨⟨status.code, status.reason, ls, hcode, List.all_eq_true.mp hreason, hcount⟩, rfl, hvalues, fun content => ?_⟩
  rw [hline, ResponseHead.write, hwrite]
  simp

/-- A header that comes behind others with different names is found. -/
theorem headerValue_append {before after : List (Bytes × Bytes)} {name key value : Bytes}
    (hbefore : ∀ x ∈ before, iequal x.1 key = false) (hname : iequal name key = true) :
    headerValue ((before ++ (name, value) :: after).map trimmed) key = value.dropWhile isBlank := by
  have hnone : (before.map trimmed).find? (fun h => iequal h.1 key) = none := by
    refine List.find?_eq_none.mpr fun x hx => ?_
    obtain ⟨y, hy, rfl⟩ := List.mem_map.mp hx
    rw [trimmed, hbefore y hy]
    exact Bool.false_ne_true
  rw [headerValue, List.map_append, List.find?_append, hnone, Option.none_or, List.map_cons, List.find?_cons_of_pos (by exact hname)]
  rfl

/-- The text of a response is a head and the content. -/
theorem exists_responseHead {res : Response} (hres : res.Proper) (status : StatusType) {content : Bytes} (resType : ReqContentType)
    (hlen : content.length < 2147483648) : ∃ h : ResponseHead, (res.setTypedContent status content resType).repStr = h.write ++ content ∧
      h.code = status.code ∧ (h.lines.map fun l => (l.name, l.value)) = res.reported resType content.length ∧
        h.Announces content.length := by
  have hsend : ∀ x ∈ res.headers ++ (bytes "Content-Length", SPACE :: decimal (content.length : Int)) :: resType.written, Sendable x := by
    rw [List.forall_mem_append, List.forall_mem_cons]
    exact ⟨hres.sendable, sendable_length _, sendable_written resType⟩
  have hcount : (res.headers ++ (bytes "Content-Length", SPACE :: decimal (content.length : Int)) :: resType.written).length ≤ 100 := by
    have hroom := hres.room
    have hwritten := length_written resType
    simp only [List.length_append, List.length_cons]
    omega
  obtain ⟨h, hcode, hvalues, hwrite⟩ := exists_head_of_headers status hsend hcount
  refine ⟨h, ?_, hcode, hvalues, ?_, hlen⟩
  · rw [repStr_setTypedContent res status resType hres.cookie hlen, hwrite]
  · rw [hvalues, headerValue_append hres.length (by decide)]
    exact dropWhile_isBlank_decimal _

/-! ## The request as the server reads it -/

/-- The text of a content type may stand in a header. -/
theorem str_chars (type : ReqContentType) : ∀ c ∈ SPACE :: type.str, isTextChar c = true := by
  cases type <;> exact List.all_eq_true.mp (by decide)

/-- The text of a length may stand in a header. -/
theorem lengthText_chars (n : Int) : ∀ c ∈ SPACE :: decimal n, isTextChar c = true :=
  List.forall_mem_cons.mpr ⟨by decide, fun _ hc => (decimal_chars hc).1⟩

/-- The host of a context may stand in a header. -/
theorem Context.host_text (ctx : Context) : ∀ c ∈ ctx.host, isTextChar c = true :=
  fun c hc => isTextChar_authority c (ctx.host_chars c hc)

/-- `Content-Length` is a token. -/
theorem name_contentLength : (!(bytes "Content-Length").isEmpty && (bytes "Content-Length").all isTokenChar) = true := by decide

/-- `Connection` is a token. -/
theorem name_connection : (!(bytes "Connection").isEmpty && (bytes "Connection").all isTokenChar) = true := by decide

/-- The header lines for a type of content. -/
def typeLines (type : ReqContentType) : List HeaderLine :=
  if type.str = [] then []
  else [.named (bytes "Content-Type") (SPACE :: type.str) (by decide) (str_chars type)]

/-- The header lines for a body. -/
def lengthLines (ctx : Context) : List HeaderLine :=
  if ctx.body = [] ∧ ctx.method ≠ .post then []
  else [.named (bytes "Content-Length") (SPACE :: decimal (int32 ctx.body.length)) name_contentLength (lengthText_chars _)]

/-- The value of `Connection` may stand in a header. -/
theorem keepAlive_text : ∀ c ∈ bytes " keep-alive", isTextChar c = true := List.all_eq_true.mp (by decide)

/-- The target of a request. -/
def Context.target (ctx : Context) : Bytes := ctx.path ++ if ctx.query = [] then [] else bytes "?" ++ ctx.query

/-- The target of a context may stand in a request line. -/
theorem Context.target_chars (ctx : Context) : ∀ c ∈ ctx.target, isUrlChar c = true := (uploadHead ctx 0).target_chars

/-- The head of a request of a new client. -/
def messageHead (ctx : Context) (type : ReqContentType) : RequestHead where
  method := ctx.method.name
  target := ctx.target
  lines := .named (bytes "Host") ctx.host (by decide) ctx.host_text :: (typeLines type ++
    (lengthLines ctx ++ [.named (bytes "Connection") (bytes " keep-alive") name_connection keepAlive_text]))
  method_ne := by cases ctx.method <;> decide
  method_chars := by cases ctx.method <;> exact List.all_eq_true.mp (by decide)
  target_chars := ctx.target_chars
  lines_le := by
    have htype : (typeLines type).length ≤ 1 := by
      unfold typeLines
      split
      · exact Nat.zero_le 1
      · exact Nat.le_refl 1
    have hlength : (lengthLines ctx).length ≤ 1 := by
      unfold lengthLines
      split
      · exact Nat.zero_le 1
      · exact Nat.le_refl 1
    simp only [List.length_cons, List.length_append, List.length_nil]
    omega

/-- The headers that `build_write_msg` adds for a type. -/
def typeHeaders (type : ReqContentType) : List (Bytes × Bytes) := if type.str = [] then [] else [(bytes "Content-Type", type.str)]

/-- A line with a space behind the colon. -/
theorem write_spaced {l : HeaderLine} {value : Bytes} (h : l.text = SPACE :: value) :
    [l].flatMap HeaderLine.write = l.name ++ [COLON, SPACE] ++ value ++ CRLF := by
  simp [HeaderLine.write, h]

/-- The header of the content type, as the client writes it, is a line of a head. -/
theorem write_typeLines (type : ReqContentType) : (typeHeaders type).flatMap (fun h => h.1 ++ bytes ": " ++ h.2 ++ CRLF) =
    (typeLines type).flatMap HeaderLine.write := by
  have hcolon : bytes ": " = [COLON, SPACE] := by decide
  unfold typeHeaders typeLines
  rw [hcolon]
  split
  · rfl
  · simp [HeaderLine.write]

/-- The header of the content type is not the one of the connection. -/
theorem connection_typeHeaders (type : ReqContentType) : (typeHeaders type).any (fun h => decide (h.1 = bytes "Connection")) = false := by
  have hname : decide (bytes "Content-Type" = bytes "Connection") = false := by decide
  unfold typeHeaders
  split
  · rfl
  · rw [List.any_cons, hname]
    rfl

/-- The header of the length, as the client writes it: none for a GET without body. -/
theorem write_lengthLines (ctx : Context) : (lengthLines ctx).flatMap HeaderLine.write =
    if ctx.body ≠ [] then bytes "Content-Length: " ++ decimal (int32 ctx.body.length) ++ CRLF
    else if ctx.method = .post then bytes "Content-Length: 0\r\n" else [] := by
  have hzero : bytes "Content-Length: 0\r\n" = bytes "Content-Length" ++ [COLON, SPACE] ++ decimal (int32 (0 : Nat)) ++ CRLF := by
    decide
  rw [lengthName_eq]
  have hwrite : lengthLines ctx = [] ∨ (lengthLines ctx).flatMap HeaderLine.write =
      bytes "Content-Length" ++ [COLON, SPACE] ++ decimal (int32 ctx.body.length) ++ CRLF := by
    unfold lengthLines
    by_cases h : ctx.body = [] ∧ ctx.method ≠ .post
    · exact .inl (if_pos h)
    · rw [if_neg h]
      exact .inr (write_spaced rfl)
  unfold lengthLines at hwrite ⊢
  by_cases hbody : ctx.body = []
  · by_cases hmethod : ctx.method = .post
    · rw [if_neg (fun h => h.2 hmethod)] at hwrite ⊢
      rw [if_neg (not_not.mpr hbody), if_pos hmethod, hzero, hwrite.resolve_left (List.cons_ne_nil _ _), hbody, List.length_nil]
    · rw [if_pos ⟨hbody, hmethod⟩, if_neg (not_not.mpr hbody), if_neg hmethod]
      rfl
  · rw [if_neg (fun h => hbody h.1)] at hwrite ⊢
    rw [if_pos hbody, hwrite.resolve_left (List.cons_ne_nil _ _)]

/-- What `build_write_msg` writes for a new client. -/
theorem buildWriteMsg_new (type : ReqContentType) (ctx : Context) :
    (Client.buildWriteMsg { reqContentType := type } ctx 0).2 = (messageHead ctx type).write ++ ctx.body := by
  have hspace : bytes " " = [SPACE] := by decide
  have hstr : contains [] (bytes "Content-Type") = false ∧ contains [] (bytes "Connection") = false := by decide
  have hheaders : (if contains ({ reqContentType := type } : Client).headerStr (bytes "Content-Type") = false ∧ type.str ≠ [] then
      { ({ reqContentType := type } : Client) with headers := [] ++ [(bytes "Content-Type", type.str)] } else { reqContentType := type }) =
        ({ headers := typeHeaders type, reqContentType := type } : Client) := by
    unfold typeHeaders
    by_cases h : type.str = []
    · rw [if_neg (fun h' => h'.2 h), if_pos h]
    · rw [if_pos ⟨hstr.1, h⟩, if_neg h]
      rfl
  unfold Client.buildWriteMsg
  simp only
  rw [hheaders]
  simp only [write_typeLines, connection_typeHeaders, hstr.2, Bool.or_self, Bool.false_eq_true, if_false, if_true,
    Nat.lt_irrefl, ← write_lengthLines, hostLine_eq, keepAliveLine_eq, hspace]
  simp only [RequestHead.write, messageHead, Context.target, List.flatMap_cons, List.flatMap_append, List.flatMap_nil, HeaderLine.write,
    HeaderLine.name_named, HeaderLine.text_named, List.append_assoc, List.cons_append, List.append_nil, List.nil_append]

/-- The server reads the method that the client wrote. -/
theorem RequestHead.method_write (h : RequestHead) : Head.method h.write = h.method := by
  obtain ⟨hs, heq, -⟩ := h.parse_write
  rw [Head.method, heq, Slice.read, Nat.zero_add, slice_zero, write]
  exact List.take_left

/-- The token of the URL in a head: the path. -/
theorem url_messageHead (ctx : Context) (type : ReqContentType) : Head.url (messageHead ctx type).write = ctx.path := by
  obtain ⟨hs, heq, -⟩ := (messageHead ctx type).parse_write
  have htarget := (messageHead ctx type).target_write
  have hmark : (63 : UInt8) ∉ ctx.path := fun hmem => absurd (ctx.path_chars 63 hmem) (by decide)
  have hread : ∀ n, n ≤ ctx.target.length →
      Slice.read ⟨0 + ctx.method.name.length + 1, n⟩ (messageHead ctx type).write = ctx.target.take n := by
    intro n hn
    rw [heq] at htarget
    have hfull : Slice.read ⟨0 + ctx.method.name.length + 1, ctx.target.length⟩ (messageHead ctx type).write = ctx.target := htarget
    rw [← hfull, Slice.read, Slice.read, slice, slice, Nat.add_sub_cancel_left, Nat.add_sub_cancel_left, List.take_take,
      Nat.min_eq_left hn]
  have hpath : (phrParseRequest (messageHead ctx type).write).path = ⟨0 + ctx.method.name.length + 1, ctx.target.length⟩ := by
    rw [heq]
    rfl
  rw [Head.url, Head.urlToken, htarget, hpath]
  have htarget' : (messageHead ctx type).target = ctx.target := rfl
  rw [htarget']
  by_cases hq : ctx.query = []
  · have htext : ctx.target = ctx.path := by rw [Context.target, if_pos hq, List.append_nil]
    have hnone : ctx.target.idxOf? 63 = none := List.idxOf?_eq_none_iff.mpr (by rwa [htext])
    rw [hnone]
    simp only
    rw [hread _ le_rfl, List.take_length, htext]
  · have htext : ctx.target = ctx.path ++ 63 :: ctx.query := by
      rw [Context.target, if_neg hq]
      rfl
    have hsome : ctx.target.idxOf? 63 = some ctx.path.length := by rw [htext, idxOf?_append_cons hmark]
    rw [hsome]
    simp only
    rw [hread _ (by rw [htext, List.length_append]; omega), htext, List.take_left]

/-- A handler answers every request with a status and a content of its own choice, in a response that can be read. -/
structure Responds (env : Env) (id : Nat) (status : Request → StatusType) (content : Request → Bytes) : Prop where
  length : ∀ req, (content req).length < 2147483648
  response : ∀ req res, res.Proper → ∃ (res' : Response) (resType : ReqContentType), res'.Proper ∧
    (env.handler id req res).2 = res'.setTypedContent (status req) (content req) resType

/-- A handler of the application sets the response. -/
theorem Connection.callBack_user {env : Env} {c : Connection} {id : Nat}
    (h : env.router.route c.req.getMethod c.req.getUrl = some (.user id)) : (callBack env c).res = (env.handler id c.req c.res).2 := by
  unfold callBack
  rw [h]
  rfl

/-- A request without a body that one read holds, for which the application has the route `t` and that does not ask for a WebSocket. -/
structure RequestHead.Calls (r : RequestHead) (env : Env) (t : Target) : Prop where
  slash : SLASH ∈ r.target
  route : Head.route env.router r.write = some t
  bodiless : Head.hasBody r.write = false
  stays : Head.isUpgrade r.write = false
  short : r.write.length < 1024
  unchecked : env.checkHeaders = none

/-- A request that calls a handler has a complete header. -/
theorem RequestHead.Calls.complete {r : RequestHead} {env : Env} {t : Target} (h : r.Calls env t) : Head.Complete r.write := by
  refine ⟨by rw [r.len_write]; exact Int.natCast_nonneg _, ?_⟩
  rw [r.target_write]
  exact h.slash

/-- A response in which nothing has been set. -/
structure Response.Fresh (res : Response) : Prop where
  headers : res.headers = []
  cookie : res.cookie = none

/-- A response in which nothing was set can be read. -/
theorem Response.Fresh.proper {res : Response} (h : res.Fresh) : res.Proper := by
  refine ⟨h.cookie, ?_, ?_, ?_⟩
  all_goals rw [h.headers]
  · exact fun x hx => (nomatch hx)
  · exact Nat.zero_le 97
  · exact fun x hx => (nomatch hx)

/-- The method of a head is not empty. -/
theorem RequestHead.method_len (r : RequestHead) : (phrParseRequest r.write).method.len ≠ 0 := by
  obtain ⟨hs, heq, -⟩ := r.parse_write
  rw [heq]
  exact fun hnil => r.method_ne (List.length_eq_zero_iff.mp hnil)

/-- The `context` of a URI. -/
def UriText.context (w : UriText) (method : HttpMethod) (body : Bytes) : Context where
  host := w.fields.host
  path := w.fields.getPath
  query := w.fields.query
  body := body
  method := method
  host_chars := by
    intro c hc
    cases ha : w.authority with
    | none => simp [UriText.fields, ha] at hc
    | some a => exact a.host_chars c (by simpa [UriText.fields, ha] using hc)
  path_chars := by
    intro c hc
    unfold UriT.getPath at hc
    split at hc
    · rw [List.mem_singleton.mp (show c ∈ [SLASH] from hc)]
      decide
    · exact w.path_chars c hc
  query_chars := by
    intro c hc
    cases hq : w.query with
    | none => simp [UriText.fields, hq] at hc
    | some q => exact w.query_chars q hq c (by simpa [UriText.fields, hq] using hc)

/-- The path of a URI with an authority is absolute. -/
theorem UriText.slash_getPath (w : UriText) (hw : w.authority ≠ none) : SLASH ∈ w.fields.getPath := by
  have hpath : w.fields.path = w.path := rfl
  rw [UriT.getPath, hpath]
  rcases w.path_first hw with hnil | hhead
  · rw [if_pos hnil]
    exact List.mem_singleton_self SLASH
  · rw [if_neg (fun hnil : w.path = [] => by rw [hnil] at hhead; nomatch hhead)]
    exact List.mem_of_mem_head? hhead

/-- `localhost` is a host. -/
theorem localhost_chars : ∀ c ∈ bytes "localhost", isAuthorityCharacter c = true := List.all_eq_true.mp (by decide)

/-- The authority `localhost`. -/
def localhost : Authority where
  uinfo := none
  host := bytes "localhost"
  port := none
  uinfo_chars := fun _ h => (nomatch h)
  host_chars := localhost_chars
  port_chars := fun _ h => (nomatch h)
  uinfo_none := by
    intro _ i h heq
    have hmem : (64 : UInt8) ∈ bytes "localhost" := heq ▸ List.mem_append_right i (List.mem_cons_self ..)
    exact absurd hmem (by decide)
  port_none := by
    intro _ h d heq
    have hmem : COLON ∈ bytes "localhost" := heq ▸ List.mem_append_right h (List.mem_cons_self ..)
    exact absurd hmem (by decide)

/-- A path on `localhost`. -/
def onLocalhost (path : Bytes) (hpath : (decide (path.head? = some SLASH) && path.all isPathCharacter) = true) : UriText where
  schema := bytes "http"
  authority := some localhost
  path
  query := none
  fragment := none
  hidden := []
  schema_first := ⟨104, bytes "ttp", by decide, by decide, List.all_eq_true.mp (by decide)⟩
  path_chars := List.all_eq_true.mp (Bool.and_eq_true_iff.mp hpath).2
  query_chars := fun _ h => (nomatch h)
  fragment_chars := fun _ h => (nomatch h)
  path_first := fun _ => .inr (of_decide_eq_true (Bool.and_eq_true_iff.mp hpath).1)
  path_relative := fun h => (nomatch h)
  hidden_alone := fun h => absurd rfl h
  hidden_first := fun _ h => (nomatch h)

/-- `http://localhost/`. -/
def localRoot : UriText := onLocalhost (bytes "/") (by decide)

/-- The handlers of an application without callbacks answer with their number. -/
theorem responds_bare (routes : List (Bytes × Target)) (id : Nat) (h : (decimal (id : Int)).length < 2147483648) :
    Responds (.bare routes) id (fun _ => .ok) (fun _ => decimal (id : Int)) :=
  ⟨fun _ => h, fun _ res hres => ⟨res, .none, hres, rfl⟩⟩

end Netcore
