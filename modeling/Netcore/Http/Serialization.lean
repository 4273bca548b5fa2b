import Netcore.Http.Decimal
import Netcore.Http.Response

/-!
# A response is read back

`set_status_and_content` with a type of content, and a reader of responses to say what `response_str()` is: a status line, header
lines, an empty line and the content. Lines end with CRLF and have neither of the two bytes elsewhere; what is left and right of the
first colon of a header line is taken as it stands.

`recovered_iff` says when the reader gets back what the response was built from. The line of the type `multipart` has no end of its
own, and runs on into the `Server` line.
-/

namespace Netcore

/-! ## The reader -/

/-- A response that was read. -/
structure ParsedResponse where
  code : Nat
  reason : Bytes
  headers : List (Bytes × Bytes)
  content : Bytes
  deriving DecidableEq, Repr

/-- The first line, and what follows it. -/
def takeLine : Bytes → Option (Bytes × Bytes)
  | [] => none
  | c :: s =>
    if c = CR then if s.head? = some LF then some ([], s.tail) else none
    else if c = LF then none
    else (takeLine s).map fun r => (c :: r.1, r.2)

/-- `HTTP/1.1`, a code of three digits and a reason. -/
def parseStatusLine (line : Bytes) : Option (Nat × Bytes) :=
  if line.take 9 = bytes "HTTP/1.1 " then
    match line.drop 9 with
    | a :: b :: c :: d :: reason =>
      if isDigit a && isDigit b && isDigit c && d == SPACE then some (digitsValue 0 [a, b, c], reason) else none
    | _ => none
  else none

/-- A name and a value, at the first colon. -/
def parseHeaderLine (line : Bytes) : Option (Bytes × Bytes) :=
  match line.span (· ≠ COLON) with
  | (name, _ :: value) => some (name, value)
  | (_, []) => none

/-- Header lines up to an empty one. -/
def parseHeaderLines : Nat → Bytes → Option (List (Bytes × Bytes) × Bytes)
  | 0, _ => none
  | fuel + 1, s => do
    let r ← takeLine s
    if r.1 = [] then some ([], r.2)
    else
      let header ← parseHeaderLine r.1
      let rest ← parseHeaderLines fuel r.2
      some (header :: rest.1, rest.2)

/-- A response and its content. -/
def parseResponse (s : Bytes) : Option ParsedResponse := do
  let first ← takeLine s
  let status ← parseStatusLine first.1
  let rest ← parseHeaderLines (s.length + 1) first.2
  some ⟨status.1, status.2, rest.1, rest.2⟩

/-! ## What it is to read -/

/-- The code that `to_rep_string` writes: the number of the enumerator, and 501 for `init`. -/
def StatusType.code : StatusType → Nat
  | .init => 501
  | .switchingProtocols => 101
  | .ok => 200
  | .created => 201
  | .accepted => 202
  | .noContent => 204
  | .partialContent => 206
  | .multipleChoices => 300
  | .movedPermanently => 301
  | .movedTemporarily => 302
  | .notModified => 304
  | .temporaryRedirect => 307
  | .badRequest => 400
  | .unauthorized => 401
  | .forbidden => 403
  | .notFound => 404
  | .internalServerError => 500
  | .notImplemented => 501
  | .badGateway => 502
  | .serviceUnavailable => 503

/-- The header for a type of content. -/
def ReqContentType.header : ReqContentType → List (Bytes × Bytes)
  | .html => [(bytes "Content-Type", bytes " text/html; charset=UTF-8")]
  | .json => [(bytes "Content-Type", bytes " application/json; charset=UTF-8")]
  | .string => [(bytes "Content-Type", bytes " text/plain; charset=UTF-8")]
  | .multipart => [(bytes "Content-Type", bytes " multipart/form-data; boundary=")]
  | .none => []

/-- `set_status_and_content(status, content, res_type)`. -/
def Response.setTypedContent (res : Response) (status : StatusType) (content : Bytes) (resType : ReqContentType) : Response :=
  { res with status := status, content := content, resType := resType }.buildResponseStr

/-- Without a type it is `set_status_and_content`. -/
theorem Response.setTypedContent_none (res : Response) (status : StatusType) (content : Bytes) :
    res.setTypedContent status content .none = res.setStatusAndContent status content := rfl

/-- The line that `build_response_str` writes for a header. -/
def textLine (header : Bytes × Bytes) : Bytes := header.1 ++ [COLON] ++ header.2 ++ CRLF

/-- The status line, without its end. -/
def StatusType.line (status : StatusType) : Bytes := status.toRepString.dropLast.dropLast

/-- The reason of a status line. -/
def StatusType.reason (status : StatusType) : Bytes := status.line.drop 13

/-- A text without an end of line. -/
def OneLine (s : Bytes) : Prop := CR ∉ s ∧ LF ∉ s

instance (s : Bytes) : Decidable (OneLine s) := inferInstanceAs (Decidable (_ ∧ _))

/-- What `add_header` is given. -/
structure PlainHeader (header : Bytes × Bytes) : Prop where
  name : OneLine header.1
  value : OneLine header.2
  colon : COLON ∉ header.1

/-- The text is one response, with everything that it was built from. -/
def Recovered (s : Bytes) (status : StatusType) (headers : List (Bytes × Bytes)) (resType : ReqContentType) (content : Bytes) : Prop :=
  parseResponse s = some
    { code := status.code
      reason := status.reason
      headers := headers ++ [(bytes "Content-Length", SPACE :: decimal (content.length : Int))] ++ resType.header ++
        [(bytes "Server", bytes " netcore")]
      content := content }

instance (s : Bytes) (status : StatusType) (headers : List (Bytes × Bytes)) (resType : ReqContentType) (content : Bytes) :
    Decidable (Recovered s status headers resType content) := inferInstanceAs (Decidable (_ = _))

/-! ## Lines -/

/-- Texts without line breaks make one. -/
theorem OneLine.append {s s' : Bytes} (h : OneLine s) (h' : OneLine s') : OneLine (s ++ s') := by
  simp only [OneLine, List.mem_append, not_or]
  exact ⟨⟨h.1, h'.1⟩, h.2, h'.2⟩

/-- A line is read up to its end. -/
theorem takeLine_append {line : Bytes} (h : OneLine line) (rest : Bytes) : takeLine (line ++ CRLF ++ rest) = some (line, rest) := by
  induction line with
  | nil => rfl
  | cons c line ih =>
    obtain ⟨hcr, hlf⟩ := h
    obtain ⟨hc, hline⟩ := not_or.mp (List.mem_cons.not.mp hcr)
    obtain ⟨hd, hline'⟩ := not_or.mp (List.mem_cons.not.mp hlf)
    rw [List.cons_append, List.cons_append, takeLine, if_neg (Ne.symm hc), if_neg (Ne.symm hd), ih ⟨hline, hline'⟩, Option.map_some]

/-- A name is read up to its colon. -/
theorem parseHeaderLine_append {name : Bytes} (h : COLON ∉ name) (value : Bytes) :
    parseHeaderLine (name ++ COLON :: value) = some (name, value) := by
  have hspan : (name ++ COLON :: value).span (· ≠ COLON) = (name, COLON :: value) := by
    rw [List.span_eq_takeWhile_dropWhile]
    rw [List.takeWhile_append_of_pos (ne_of_notMem h), List.dropWhile_append_of_pos (ne_of_notMem h)]
    simp
  rw [parseHeaderLine, hspan]

/-- One header line, and the lines after it. -/
theorem parseHeaderLines_cons {fuel : Nat} {header : Bytes × Bytes} (h : PlainHeader header) {s rest : Bytes}
    {headers : List (Bytes × Bytes)} (hrest : parseHeaderLines fuel s = some (headers, rest)) :
    parseHeaderLines (fuel + 1) (textLine header ++ s) = some (header :: headers, rest) := by
  have hline : OneLine (header.1 ++ [COLON] ++ header.2) := (h.name.append (by decide)).append h.value
  rw [textLine, parseHeaderLines, takeLine_append hline]
  simp only [Option.bind_eq_bind, Option.bind_some]
  rw [if_neg (by simp), List.append_assoc, List.singleton_append, parseHeaderLine_append h.colon]
  simp only [Option.bind_some, hrest]

/-- By induction over the headers: lines that are written are read back. -/
theorem parseHeaderLines_flatMap (headers : List (Bytes × Bytes)) : (∀ h ∈ headers, PlainHeader h) → ∀ {fuel : Nat} {s rest : Bytes}
    {others : List (Bytes × Bytes)}, parseHeaderLines fuel s = some (others, rest) →
    parseHeaderLines (fuel + headers.length) (headers.flatMap textLine ++ s) =
      some (headers ++ others, rest) := by
  induction headers with
  | nil => exact fun _ _ _ _ _ h => h
  | cons header headers ih =>
    intro hok fuel s rest others h
    obtain ⟨hh, hhs⟩ := List.forall_mem_cons.mp hok
    rw [List.flatMap_cons, List.append_assoc, List.length_cons, ← Nat.add_assoc]
    exact parseHeaderLines_cons hh (ih hhs h)

/-- The empty line ends the headers. -/
theorem parseHeaderLines_nil (fuel : Nat) (content : Bytes) : parseHeaderLines (fuel + 1) (CRLF ++ content) = some ([], content) := rfl

/-- Every header is a character long at least. -/
theorem length_le_flatMap (headers : List (Bytes × Bytes)) : headers.length ≤ (headers.flatMap textLine).length := by
  induction headers with
  | nil => exact Nat.le_refl _
  | cons header headers ih =>
    rw [List.flatMap_cons, List.length_append, List.length_cons, textLine, List.length_append, List.length_append]
    have : CRLF.length = 2 := rfl
    omega

/-! ## The response -/

/-- What `to_rep_string` gives for each status. -/
theorem StatusType.line_spec (status : StatusType) : status.toRepString = status.line ++ CRLF ∧ OneLine status.line ∧
    parseStatusLine status.line = some (status.code, status.reason) := by
  cases status <;> decide +kernel

/-- A status line, header lines, an empty line and a content are read back. -/
theorem parseResponse_append (status : StatusType) {headers : List (Bytes × Bytes)} (hok : ∀ h ∈ headers, PlainHeader h)
    (content : Bytes) : parseResponse (status.line ++ CRLF ++ (headers.flatMap textLine ++ (CRLF ++ content))) =
      some ⟨status.code, status.reason, headers, content⟩ := by
  have hlen := length_le_flatMap headers
  obtain ⟨fuel, hfuel⟩ : ∃ fuel, (status.line ++ CRLF ++ (headers.flatMap textLine ++ (CRLF ++ content))).length + 1 =
      fuel + 1 + headers.length := by
    refine ⟨(status.line ++ CRLF ++ (headers.flatMap textLine ++ (CRLF ++ content))).length - headers.length, ?_⟩
    have hcontent : (headers.flatMap textLine ++ (CRLF ++ content)).length =
        (headers.flatMap textLine).length + (CRLF ++ content).length := List.length_append
    rw [List.length_append, hcontent]
    omega
  have hheaders := parseHeaderLines_flatMap headers hok (parseHeaderLines_nil fuel content)
  rw [List.append_nil, ← hfuel] at hheaders
  rw [parseResponse, takeLine_append status.line_spec.2.1]
  simp only [Option.bind_eq_bind, Option.bind_some, status.line_spec.2.2, hheaders]

/-- The headers after those of the length, as they stand in the text: the line of `multipart` ends with the one for `Server`. -/
def ReqContentType.written : ReqContentType → List (Bytes × Bytes)
  | .multipart => [(bytes "Content-Type", bytes " multipart/form-data; boundary=Server: netcore")]
  | resType => resType.header ++ [(bytes "Server", bytes " netcore")]

/-- The line of the type, as the headers that it writes. -/
theorem ReqContentType.line_server (resType : ReqContentType) :
    resType.line ++ bytes "Server: netcore\r\n" = resType.written.flatMap textLine := by
  cases resType <;> decide +kernel

/-- The headers of a content type are plain. -/
theorem plainHeader_written (resType : ReqContentType) : ∀ h ∈ resType.written, PlainHeader h := by
  have hok : ∀ name value, OneLine name → OneLine value → COLON ∉ name → PlainHeader (name, value) := fun _ _ h h' hc => ⟨h, h', hc⟩
  cases resType with
  | multipart => exact List.forall_mem_singleton.mpr (hok _ _ (by decide) (by decide) (by decide))
  | none => exact List.forall_mem_singleton.mpr (hok _ _ (by decide) (by decide) (by decide))
  | html | json | string =>
    exact List.forall_mem_cons.mpr ⟨hok _ _ (by decide) (by decide) (by decide),
      List.forall_mem_singleton.mpr (hok _ _ (by decide) (by decide) (by decide))⟩

/-- The `Content-Length` is plain. -/
theorem plainHeader_length (n : Nat) : PlainHeader (bytes "Content-Length", SPACE :: decimal (n : Int)) := by
  have hnot : ∀ c, isDigit c = false → c ≠ SPACE → c ∉ SPACE :: decimal (n : Int) := by
    intro c hc hne hmem
    rcases List.mem_cons.mp hmem with rfl | hmem
    · exact hne rfl
    · rw [isDigit_of_mem_decimal hmem] at hc
      exact Bool.noConfusion hc
  have hname : OneLine (bytes "Content-Length") ∧ COLON ∉ bytes "Content-Length" := by decide
  exact ⟨hname.1, ⟨hnot CR (by decide) (by decide), hnot LF (by decide) (by decide)⟩, hname.2⟩

/-- The text that `build_response_str` leaves. -/
theorem repStr_setTypedContent (res : Response) (status : StatusType) {content : Bytes} (resType : ReqContentType)
    (hcookie : res.cookie = none) (hlen : content.length < 2 ^ 31) :
    (res.setTypedContent status content resType).repStr = status.line ++ CRLF ++
      ((res.headers ++ (bytes "Content-Length", SPACE :: decimal (content.length : Int)) :: resType.written).flatMap textLine ++
        (CRLF ++ content)) := by
  have hsize : Response.contentSize { res with status := status, content := content, resType := resType } = content.length :=
    Response.contentSize_of_lt hlen
  have hserver := resType.line_server
  rw [Response.setTypedContent, Response.buildResponseStr, hsize]
  have hlines : (fun h : Bytes × Bytes => h.1 ++ [COLON] ++ h.2 ++ CRLF) = textLine := rfl
  simp only [hcookie, status.line_spec.1, hlines, lengthName_eq, List.flatMap_append, List.flatMap_cons, ← hserver]
  simp only [textLine, List.append_assoc, List.cons_append, List.nil_append]

/-- What is read from the text of a response. -/
theorem parseResponse_setTypedContent (res : Response) (status : StatusType) {content : Bytes} (resType : ReqContentType)
    (hcookie : res.cookie = none) (hheaders : ∀ h ∈ res.headers, PlainHeader h) (hlen : content.length < 2 ^ 31) :
    parseResponse (res.setTypedContent status content resType).repStr = some ⟨status.code, status.reason,
      res.headers ++ (bytes "Content-Length", SPACE :: decimal (content.length : Int)) :: resType.written, content⟩ := by
  rw [repStr_setTypedContent res status resType hcookie hlen]
  refine parseResponse_append status ?_ content
  rw [List.forall_mem_append, List.forall_mem_cons]
  exact ⟨hheaders, plainHeader_length content.length, plainHeader_written resType⟩

/-- The type `multipart` writes no line of its own, and with it the response is not recovered. -/
theorem not_recovered_multipart (res : Response) (status : StatusType) {content : Bytes} (hcookie : res.cookie = none)
    (hheaders : ∀ h ∈ res.headers, PlainHeader h) (hlen : content.length < 2 ^ 31) :
    ¬ Recovered (res.setTypedContent status content .multipart).repStr status res.headers .multipart content := by
  rw [Recovered, parseResponse_setTypedContent res status .multipart hcookie hheaders hlen]
  intro h
  -- one header stands where two were meant
  have hlength := congrArg List.length (ParsedResponse.mk.inj (Option.some.inj h)).2.2.1
  simp [ReqContentType.written, ReqContentType.header] at hlength

/-- **The text of a response** is one response, with the status line, the headers, the length, the type and the content that it was
built from, exactly when the type is not `multipart`. -/
theorem recovered_iff (res : Response) (status : StatusType) (content : Bytes) (resType : ReqContentType)
    (hcookie : res.cookie = none) (hheaders : ∀ h ∈ res.headers, PlainHeader h) (hlen : content.length < 2 ^ 31) :
    Recovered (res.setTypedContent status content resType).repStr status res.headers resType content ↔ resType ≠ .multipart := by
  cases resType with
  | multipart => exact iff_of_false (not_recovered_multipart res status hcookie hheaders hlen) (fun h => h rfl)
  | html | json | string | none =>
    refine iff_of_true ?_ (by decide)
    rw [Recovered, parseResponse_setTypedContent res status _ hcookie hheaders hlen]
    simp [ReqContentType.written, ReqContentType.header]

/-- A response with one header. -/
theorem recovered_iff_json : Recovered (({ resType := .none, headers := [(bytes "A", bytes "b")] } : Response).setTypedContent .ok
    (bytes "hi") .json).repStr .ok [(bytes "A", bytes "b")] .json (bytes "hi") ↔ ReqContentType.json ≠ .multipart :=
  recovered_iff { resType := .none, headers := [(bytes "A", bytes "b")] } .ok (bytes "hi") .json rfl
    (List.forall_mem_singleton.mpr ⟨by decide, by decide, by decide⟩) (by decide)

/-- A response of the type `multipart` has no `Server` header. -/
theorem not_recovered : ¬ ∀ (res : Response) (status : StatusType) (content : Bytes) (resType : ReqContentType),
    res.cookie = none → (∀ h ∈ res.headers, PlainHeader h) → content.length < 2 ^ 31 →
      Recovered (res.setTypedContent status content resType).repStr status res.headers resType content := by
  intro h
  have hnone : ∀ header ∈ ([] : List (Bytes × Bytes)), PlainHeader header := fun _ hmem => absurd hmem List.not_mem_nil
  have hlen : (bytes "hi").length < 2 ^ 31 := by decide
  exact not_recovered_multipart { resType := .none } .ok rfl hnone hlen (h { resType := .none } .ok (bytes "hi") .multipart rfl hnone hlen)

end Netcore
