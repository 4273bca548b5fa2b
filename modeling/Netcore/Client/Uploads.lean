import Netcore.Client
import Netcore.Http.Decimal
import Netcore.Http.FieldName
import Netcore.Http.WellFormed
import Netcore.Multipart.HeaderValues
import Netcore.Server.FormBody

/-!
# Uploads and the reader

What `upload` is for: a request whose body is a form of one part, with the name and the content of the file (`uploadRequest`). What
has been written `Agrees` with a file when the header parser finds it to be one request, of as many bytes as it says, and the reader
of multipart forms hands on the name and the content of the file.

`upload_agrees_iff` says when. A new client never writes anything: its `memFileSize` of -1 is taken for a number of letters that
no string has (`upload_threw`). A client with a `memFileSize` of 0 sends the file, but only its first block, and nothing at all when
there is nothing left of the file; and a name with a CR, or a request of `2 ^ 31` bytes or more, is not read back.
-/

namespace Netcore

open Slices Multipart

/-! ## The request -/

/-- The header of the part that carries the file `name`. -/
def fileHeaders (name : Bytes) : Headers :=
  [(bytes "Content-Disposition", bytes "form-data; name=\"test\"; filename=\"" ++ name ++ [QUOTE])]

/-- The part that carries a file. -/
def filePart (name data : Bytes) : Part := ⟨fileHeaders name, data⟩

/-- The body of an upload. -/
def uploadBody (name data : Bytes) : Bytes := serialize BOUNDARY [filePart name data] ++ (CRLF ++ CRLF)

/-- The beginning of a body, up to the end of the content. -/
theorem multipartFileStart_append (name data : Bytes) : Client.multipartFileStart name ++ data =
    [HYPHEN, HYPHEN] ++ BOUNDARY ++ CRLF ++ serializePart (filePart name data) := by
  have hstart : bytes "Content-Disposition: form-data; name=\"test\"; filename=\"" =
      bytes "Content-Disposition" ++ [COLON, SPACE] ++ bytes "form-data; name=\"test\"; filename=\"" := by decide
  have hquote : bytes "\"" = [QUOTE] := by decide
  have hhyphens : bytes "--" = [HYPHEN, HYPHEN] := by decide
  simp [serializePart, filePart, fileHeaders, headerLine, Client.multipartFileStart, hstart, hquote, hhyphens]

/-- The body of an upload: the head of its part, the data, and the end of the form. -/
theorem uploadBody_eq (name data : Bytes) :
    uploadBody name data = Client.multipartFileStart name ++ data ++ MULTIPART_END := by
  have hend : MULTIPART_END = delimiter BOUNDARY ++ [HYPHEN, HYPHEN] ++ (CRLF ++ CRLF) := by decide
  rw [multipartFileStart_append, hend]
  simp only [uploadBody, serialize, serializeParts, List.append_assoc]

/-! ### Visible characters -/

/-- A character that is seen: no control character and no blank. -/
def isVisible (c : UInt8) : Bool := decide (33 ≤ c ∧ c ≤ 126)

/-- The characters from 33 to 126 are visible. -/
theorem isVisible_of_between {c lo hi : UInt8} (h : lo ≤ c ∧ c ≤ hi) (hlo : 33 ≤ lo) (hhi : hi ≤ 126) : isVisible c = true :=
  decide_eq_true ⟨UInt8.le_trans hlo h.1, UInt8.le_trans h.2 hhi⟩

/-- A constant of visible characters has no other. -/
theorem isVisible_of_mem {s : Bytes} (hs : s.all isVisible = true) {c : UInt8} (h : c ∈ s) : isVisible c = true :=
  List.all_eq_true.mp hs c h

theorem isVisible_digit {c : UInt8} (h : isDigit c = true) : isVisible c = true :=
  isVisible_of_between (of_decide_eq_true h) (by decide) (by decide)

theorem isVisible_unreserved {c : UInt8} (h : isUnreserved c = true) : isVisible c = true := by
  rcases of_decide_eq_true h with h | h | h | h
  · exact isVisible_digit h
  · exact isVisible_of_between h (by decide) (by decide)
  · exact isVisible_of_between h (by decide) (by decide)
  · exact isVisible_of_mem (by decide) h

theorem isVisible_subDelim {c : UInt8} (h : isSubDelim c = true) : isVisible c = true :=
  isVisible_of_mem (by decide) (of_decide_eq_true h)

/-- A visible character may stand in the URL of a request line. -/
theorem isUrlChar_of_isVisible {c : UInt8} (h : isVisible c = true) : isUrlChar c = true := by
  obtain ⟨h1, h2⟩ := of_decide_eq_true h
  refine decide_eq_true ?_
  rintro (rfl | hlt | rfl)
  · exact absurd h1 (by decide)
  · exact absurd (UInt8.lt_of_le_of_lt h1 hlt) (by decide)
  · exact absurd h2 (by decide)

/-- A visible character may stand in the value of a header. -/
theorem isTextChar_of_isVisible {c : UInt8} (h : isVisible c = true) : isTextChar c = true := by
  obtain ⟨h1, h2⟩ := of_decide_eq_true h
  refine decide_eq_true ?_
  rintro (⟨hlt, -⟩ | rfl)
  · exact absurd (UInt8.lt_of_le_of_lt h1 hlt) (by decide)
  · exact absurd h2 (by decide)

/-- A visible character is no blank, so it is not cut off at either end of a value. -/
theorem isBlank_of_isVisible {c : UInt8} (h : isVisible c = true) : isBlank c = false := by
  refine decide_eq_false ?_
  rintro (rfl | rfl)
  · exact absurd h (by decide)
  · exact absurd h (by decide)

/-- The digits of a length may stand in the value of a header, and are no blanks. -/
theorem decimal_chars {n : Int} {c : UInt8} (h : c ∈ decimal n) : isTextChar c = true ∧ isBlank c = false := by
  have hvisible : isVisible c = true := by
    rcases digit_or_sign h with hdigit | rfl
    · exact isVisible_digit hdigit
    · decide
  exact ⟨isTextChar_of_isVisible hvisible, isBlank_of_isVisible hvisible⟩

/-- The first character of a number is no blank. -/
theorem dropWhile_isBlank_decimal (n : Int) : (SPACE :: decimal n).dropWhile isBlank = decimal n := by
  rw [List.dropWhile_cons_of_pos (by decide)]
  cases hd : decimal n with
  | nil => rfl
  | cons c cs => rw [List.dropWhile_cons_of_neg (by simp [(decimal_chars (n := n) (c := c) (by simp [hd])).2])]

/-- What a query may have in a URI it may have in a request line. -/
theorem isUrlChar_query (c : UInt8) (h : isQueryCharacter c = true) : isUrlChar c = true := by
  refine isUrlChar_of_isVisible ?_
  simp only [isQueryCharacter, isPathCharacter, Bool.or_eq_true, decide_eq_true_eq] at h
  rcases h with ((h | h) | h) | rfl
  · exact isVisible_unreserved h
  · exact isVisible_subDelim h
  · exact isVisible_of_mem (by decide) h
  · decide

/-- The host of a URI may stand in the `Host` header. -/
theorem isTextChar_authority (c : UInt8) (h : isAuthorityCharacter c = true) : isTextChar c = true := by
  refine isTextChar_of_isVisible ?_
  simp only [isAuthorityCharacter, Bool.or_eq_true, decide_eq_true_eq] at h
  rcases h with (h | h) | h
  · exact isVisible_unreserved h
  · exact isVisible_subDelim h
  · exact isVisible_of_mem (by decide) h

/-- The head of an upload, with the number `len` for its body. -/
def uploadHead (ctx : Context) (len : Int) : RequestHead where
  method := bytes "POST"
  target := ctx.path ++ if ctx.query = [] then [] else bytes "?" ++ ctx.query
  lines := [
    ⟨bytes "Host", ctx.host, by decide, List.all_eq_true.mp (by decide), fun c hc => isTextChar_authority c (ctx.host_chars c hc)⟩,
    ⟨bytes "Content-Type", bytes " multipart/form-data; boundary=" ++ BOUNDARY, by decide, List.all_eq_true.mp (by decide),
      List.all_eq_true.mp (by decide)⟩,
    ⟨bytes "Content-Length", SPACE :: decimal len, by decide, List.all_eq_true.mp (by decide), by
      intro c hc
      rcases List.mem_cons.mp hc with rfl | hc
      · decide
      · exact (decimal_chars hc).1⟩,
    ⟨bytes "Connection", bytes " keep-alive", by decide, List.all_eq_true.mp (by decide), List.all_eq_true.mp (by decide)⟩]
  method_ne := by decide
  method_chars := List.all_eq_true.mp (by decide)
  target_chars := by
    intro c hc
    rcases List.mem_append.mp hc with hc | hc
    · exact isUrlChar_query c (by simp [isQueryCharacter, ctx.path_chars c hc])
    · split_ifs at hc
      · cases hc
      · rcases List.mem_append.mp hc with hc | hc
        · rw [List.mem_singleton.mp hc]
          decide
        · exact isUrlChar_query c (ctx.query_chars c hc)
  lines_le := by simp

/-- The request that an upload of `data` as the file `name` is meant to write. -/
def uploadRequest (ctx : Context) (name data : Bytes) : Bytes :=
  (uploadHead ctx (uploadBody name data).length).write ++ uploadBody name data

/-- The server finds the end of the head where the client ended it, whatever follows. -/
theorem len_uploadHead (ctx : Context) (len : Int) (t : Bytes) :
    Head.len ((uploadHead ctx len).write ++ t) = ((uploadHead ctx len).write.length : Int) := by
  have h := (uploadHead ctx len).len_write
  rw [Head.len_append (by rw [h]; exact Int.natCast_nonneg _), h]

/-- The server looks a header up in the lines that the client wrote. -/
theorem value_uploadHead (ctx : Context) (len : Int) (t key : Bytes) : Head.value ((uploadHead ctx len).write ++ t) key =
    (((uploadHead ctx len).lines.find? fun l => iequal l.name key).map HeaderLine.value).getD [] := by
  rw [Head.value_append (by rw [RequestHead.len_write]; exact Int.natCast_nonneg _), RequestHead.value_write]

/-- The server reads the `Content-Length` that the client wrote, for every `long long`. -/
theorem contentLength_uploadHead (ctx : Context) {len : Int} (h1 : -9223372036854775808 ≤ len) (h2 : len ≤ 9223372036854775807)
    (t : Bytes) : Head.contentLength ((uploadHead ctx len).write ++ t) = len := by
  have hvalue : Head.value ((uploadHead ctx len).write ++ t) (bytes "content-length") = decimal len := by
    rw [value_uploadHead]
    simp only [uploadHead, List.find?_cons, show iequal (bytes "Host") (bytes "content-length") = false by decide,
      show iequal (bytes "Content-Type") (bytes "content-length") = false by decide,
      show iequal (bytes "Content-Length") (bytes "content-length") = true by decide]
    exact dropWhile_isBlank_decimal len
  rw [Head.contentLength, hvalue, atoll_decimal h1 h2]

/-- The server reads the boundary that the client writes between the parts. -/
theorem boundary_uploadHead (ctx : Context) (len : Int) (t : Bytes) :
    Head.boundary ((uploadHead ctx len).write ++ t) = BOUNDARY := by
  have hvalue : Head.value ((uploadHead ctx len).write ++ t) (bytes "content-type") =
      bytes "multipart/form-data; boundary=" ++ BOUNDARY := by
    rw [value_uploadHead]
    simp only [uploadHead, List.find?_cons, show iequal (bytes "Host") (bytes "content-type") = false by decide,
      show iequal (bytes "Content-Type") (bytes "content-type") = true by decide]
    decide
  rw [Head.boundary, hvalue]
  decide

/-- The header of a form that `send_multipart_msg` appends. -/
def formHeader : Bytes := bytes "Content-Type: multipart/form-data; boundary=" ++ BOUNDARY

/-- The rest of the request line, and the name of the first header. -/
theorem hostLine_eq : bytes " HTTP/1.1\r\nHost:" = SPACE :: (bytes "HTTP/1.1" ++ CRLF ++ (bytes "Host" ++ [COLON])) := by
  simp [bytes, SPACE, CRLF, CR, LF, COLON]

/-- The last header. -/
theorem keepAliveLine_eq : bytes "Connection: keep-alive\r\n" = bytes "Connection" ++ COLON :: (bytes " keep-alive" ++ CRLF) := by
  simp [bytes, COLON, CRLF, CR, LF]

/-- The head of an upload, in the pieces that `build_write_msg` writes. -/
theorem write_uploadHead (ctx : Context) (len : Int) : (uploadHead ctx len).write =
    bytes "POST" ++ bytes " " ++ ctx.path ++ (if ctx.query = [] then [] else bytes "?" ++ ctx.query) ++
      bytes " HTTP/1.1\r\nHost:" ++ ctx.host ++ CRLF ++ (formHeader ++ CRLF) ++ (bytes "Content-Length: " ++ decimal len ++ CRLF) ++
      bytes "Connection: keep-alive\r\n" ++ CRLF := by
  have hspace : bytes " " = [SPACE] := by decide
  have hform : formHeader = bytes "Content-Type" ++ COLON :: (bytes " multipart/form-data; boundary=" ++ BOUNDARY) := by
    simp [formHeader, bytes, COLON]
  rw [hostLine_eq, hspace, hform, lengthName_eq, keepAliveLine_eq]
  simp only [RequestHead.write, uploadHead, List.flatMap_cons, List.flatMap_nil, HeaderLine.write, List.append_assoc, List.cons_append,
    List.append_nil, List.nil_append]

/-- `build_write_msg` on a client that has no other headers. -/
theorem buildWriteMsg_upload {c : Client} (hh : c.headers = []) (hs : c.headerStr = formHeader) (ctx : Context) (n : Nat) :
    (c.buildWriteMsg { ctx with method := .post, body := [] } n).2 = (uploadHead ctx (int32 n)).write := by
  have htype : contains formHeader (bytes "Content-Type") = true := by decide +kernel
  have hconn : contains formHeader (bytes "Connection") = false := by decide +kernel
  have hne : formHeader ≠ [] := by decide
  have hsame : ¬(contains c.headerStr (bytes "Content-Type") = false ∧ c.reqContentType.str ≠ []) := by simp [hs, htype]
  have hzero : bytes "Content-Length: 0\r\n" = bytes "Content-Length: " ++ decimal (int32 (0 : Nat)) ++ CRLF := by decide +kernel
  have hlen : (if 0 < n then bytes "Content-Length: " ++ decimal (int32 n) ++ CRLF else bytes "Content-Length: 0\r\n") =
      bytes "Content-Length: " ++ decimal (int32 n) ++ CRLF := by
    split_ifs with h
    · rfl
    · obtain rfl : n = 0 := by omega
      exact hzero
  rw [write_uploadHead]
  unfold Client.buildWriteMsg
  simp only [if_neg hsame]
  simp only [hs, hh, hconn, if_neg hne, hlen]
  simp only [HttpMethod.name, ne_eq, not_true_eq_false, if_false, if_true, Bool.or_false, List.flatMap_nil, List.any_nil,
    Bool.false_eq_true, List.nil_append, List.append_nil]

/-! ## What the reader of a form hands on -/

/-- The file name of a part, as the server takes it from the headers. -/
def fileNameOf (headers : Headers) : Bytes :=
  ({ buf := [], multipartHeaders := headers } : Request).getMultipartFieldName (bytes "filename")

/-- A reader that is fed `body`, cut in any way, reads it to its end and hands on one part, with this file name and content. -/
def Delivers (b body name data : Bytes) : Prop :=
  ∀ (fill : Nat → UInt8) (chunks : List Bytes), (∀ c ∈ chunks, c ≠ []) → chunks.flatten = body →
    ∃ r calls ret headers, (({} : Reader).setBoundary (delimiter b) fill).feedAll chunks = .returned r calls ret ∧
      r.succeeded = true ∧ ({} : Delivery).run calls = some { parts := [⟨headers, data⟩], finished := true } ∧
      fileNameOf headers = name

/-- A file name that has been handed on has no CR. -/
theorem cr_not_mem_fileNameOf {headers : Headers} (h : headers.OneLine) : CR ∉ fileNameOf headers := by
  unfold fileNameOf Request.getMultipartFieldName
  cases headers with
  | nil => simp
  | cons e es =>
    have hval := h e (by simp)
    simp only
    cases findSub e.2 (bytes "filename") with
    | none => simp
    | some pos =>
      simp only
      cases rfindChar e.2 QUOTE with
      | none => simp
      | some stop =>
        simp only
        split_ifs
        · simp
        · exact fun hm => hval (List.mem_of_mem_drop (List.mem_of_mem_take hm))

/-- The file name of a part that has been written. -/
theorem fileNameOf_fileHeaders (name : Bytes) : fileNameOf (fileHeaders name) = name := by
  have hb : bytes "form-data; name=\"test\"; filename=\"" = [102, 111, 114, 109, 45, 100, 97, 116, 97, 59, 32, 110, 97, 109, 101, 61,
      34, 116, 101, 115, 116, 34, 59, 32, 102, 105, 108, 101, 110, 97, 109, 101, 61, 34] := by decide
  have hfind : findSub (bytes "form-data; name=\"test\"; filename=\"" ++ name ++ [QUOTE]) (bytes "filename") = some 24 := by
    rw [hb, show bytes "filename" = [102, 105, 108, 101, 110, 97, 109, 101] by decide]
    simp [findSub]
  have hquote : findChar (bytes "form-data; name=\"test\"; filename=\"" ++ name ++ [QUOTE]) QUOTE 24 = some 33 := by
    rw [hb]
    simp [findChar, List.idxOf?_cons, QUOTE]
  have hlast : rfindChar (bytes "form-data; name=\"test\"; filename=\"" ++ name ++ [QUOTE]) QUOTE = some (34 + name.length) := by
    rw [rfindChar_concat, List.length_append, show (bytes "form-data; name=\"test\"; filename=\"").length = 34 by decide]
  unfold fileNameOf Request.getMultipartFieldName fileHeaders
  simp only [hfind, hquote, hlast]
  rw [if_neg (Nat.not_lt.mpr (Nat.le_add_right 34 name.length)), slice, hb]
  simp

/-- A body is some list of buffers. -/
theorem exists_chunks (body : Bytes) : ∃ chunks : List Bytes, (∀ c ∈ chunks, c ≠ []) ∧ chunks.flatten = body := by
  by_cases h : body = []
  · exact ⟨[], by simp, by simp [h]⟩
  · exact ⟨[body], by simpa using h, by simp⟩

/-- A file name that was read from a header has no CR. -/
theorem Delivers.name_cr {b body name data : Bytes} (h : Delivers b body name data) : CR ∉ name := by
  obtain ⟨chunks, hne, hcut⟩ := exists_chunks body
  obtain ⟨r, calls, ret, headers, hfeed, -, hrun, rfl⟩ := h (fun _ => 0) chunks hne hcut
  have hcalls := Reader.feedAll_oneLine chunks (Reader.setBoundary_oneLine (delimiter b) fun _ => 0) hfeed
  have hd := Delivery.run_oneLine calls (d := {}) hcalls ⟨by simp, by simp⟩ hrun
  exact cr_not_mem_fileNameOf (hd.1 ⟨headers, data⟩ (by simp))

/-- The part of a file is one that the client may write: one line of headers, and data without the delimiter. -/
theorem filePart_ok {name data : Bytes} (hn : CR ∉ name) (hfree : ¬delimiter BOUNDARY <:+: data) :
    PartOk BOUNDARY (filePart name data) := by
  refine ⟨?_, hfree⟩
  intro e he
  rw [List.mem_singleton.mp he]
  refine headerOk_disposition ?_ ?_
  · simp only [List.mem_append, not_or]
    exact ⟨⟨by decide, hn⟩, by decide⟩
  · rw [List.append_assoc, List.head?_append_of_ne_nil _ (by decide)]
    decide

/-- A body whose form is complete hands on the content that was written. -/
theorem delivers_uploadBody {name data : Bytes} (hn : CR ∉ name) (hfree : ¬delimiter BOUNDARY <:+: data) (data' : Bytes) :
    Delivers BOUNDARY (uploadBody name data) name data' ↔ data = data' := by
  have hok : ∀ p ∈ [filePart name data], PartOk BOUNDARY p := by
    intro p hp
    rw [List.mem_singleton.mp hp]
    exact filePart_ok hn hfree
  have hread := fun fill chunks hne hcut => feedAll_delivery BOUNDARY [filePart name data] (CRLF ++ CRLF) chunks fill
    (by decide) (by simp) hok hne hcut
  constructor
  · intro h
    obtain ⟨chunks, hne, hcut⟩ := exists_chunks (uploadBody name data)
    obtain ⟨r, calls, ret, headers, hfeed, -, hrun, -⟩ := h (fun _ => 0) chunks hne hcut
    obtain ⟨r', calls', ret', hfeed', hrun', -⟩ := hread (fun _ => 0) chunks hne hcut
    rw [hfeed] at hfeed'
    cases hfeed'
    rw [hrun] at hrun'
    simp only [Option.some.injEq, Delivery.mk.injEq, List.map_cons, List.map_nil, List.cons.injEq, and_true] at hrun'
    exact (congrArg Part.content hrun').symm
  · rintro rfl fill chunks hne hcut
    obtain ⟨r, calls, ret, hfeed, hrun, hsucc⟩ := hread fill chunks hne hcut
    exact ⟨r, calls, ret, fileHeaders name, hfeed, hsucc, hrun, fileNameOf_fileHeaders name⟩

/-- A body that ends before its form does hands on nothing that is complete. -/
theorem not_delivers_unclosed {name data body : Bytes} (hfree : ¬delimiter BOUNDARY <:+: data)
    (hpre : body <+: Client.multipartFileStart name ++ data) (data' : Bytes) : ¬Delivers BOUNDARY body name data' := by
  intro h
  have hn := h.name_cr
  obtain ⟨chunks, hne, hcut⟩ := exists_chunks body
  obtain ⟨r, calls, ret, headers, hfeed, hsucc, -, -⟩ := h (fun _ => 0) chunks hne hcut
  have hstart : Client.multipartFileStart name ++ data <+:
      [HYPHEN, HYPHEN] ++ BOUNDARY ++ CRLF ++ (serializePart (filePart name data) ++ delimiter BOUNDARY) := by
    rw [multipartFileStart_append, ← List.append_assoc]
    exact List.prefix_append _ _
  obtain ⟨r', calls', ret', hfeed', hopen⟩ := feedAll_unclosed (show CR ∉ BOUNDARY by decide) (filePart_ok hn hfree)
    (fun _ => 0) hne (hcut ▸ hpre.trans hstart)
  rw [hfeed] at hfeed'
  cases hfeed'
  rw [hsucc] at hopen
  cases hopen

/-! ## What is written -/

/-- What has been written to a socket is one request for the file `name` with the content `data`: a head, and as many bytes after
it as its `Content-Length` says, which a reader with the boundary of its `Content-Type` takes for the form of that file. -/
structure Agrees (name data sent : Bytes) : Prop where
  complete : 0 ≤ Head.len sent
  length : Head.contentLength sent = (sent.drop (Head.len sent).toNat).length
  form : Delivers (Head.boundary sent) (sent.drop (Head.len sent).toNat) name data

/-- What the client writes is one request for the file exactly when the `Content-Length` is the length of the body,
and the body is the form. -/
theorem agrees_write_iff (ctx : Context) {len : Int} (h1 : -9223372036854775808 ≤ len) (h2 : len ≤ 9223372036854775807)
    (name data t : Bytes) :
    Agrees name data ((uploadHead ctx len).write ++ t) ↔ len = t.length ∧ Delivers BOUNDARY t name data := by
  have hlen := len_uploadHead ctx len t
  have hdrop : ((uploadHead ctx len).write ++ t).drop (Head.len ((uploadHead ctx len).write ++ t)).toNat = t := by
    rw [hlen, Int.toNat_natCast, List.drop_left]
  constructor
  · rintro ⟨-, hl, hf⟩
    rw [hdrop, contentLength_uploadHead ctx h1 h2] at hl
    rw [hdrop, boundary_uploadHead] at hf
    exact ⟨hl, hf⟩
  · rintro ⟨hl, hf⟩
    refine ⟨by rw [hlen]; exact Int.natCast_nonneg _, ?_, ?_⟩
    · rw [hdrop, contentLength_uploadHead ctx h1 h2, hl]
    · rw [hdrop, boundary_uploadHead]
      exact hf

/-- Less than a head is no request. -/
theorem not_agrees_short (ctx : Context) (len : Int) {k : Nat} (hk : k < (uploadHead ctx len).write.length) (name data : Bytes) :
    ¬Agrees name data ((uploadHead ctx len).write.take k) := by
  intro h
  have hne : (uploadHead ctx len).write.drop k ≠ [] := by
    intro hnil
    have := List.drop_eq_nil_iff.mp hnil
    omega
  have hinc : (phrParseRequest ((uploadHead ctx len).write.take k)).ret = -2 := by
    refine phrParseRequest_incomplete hne ?_
    rw [List.take_append_drop]
    exact (uploadHead ctx len).len_write
  have hpos := h.complete
  unfold Head.len at hpos
  omega

/-- What follows from an agreement on a beginning of a message: the head is there, and the beginning of the body that is there is
read. -/
theorem Agrees.take {ctx : Context} {len : Int} (h1 : -9223372036854775808 ≤ len) (h2 : len ≤ 9223372036854775807)
    {name data t : Bytes} {k : Nat} (h : Agrees name data (((uploadHead ctx len).write ++ t).take k)) :
    Delivers BOUNDARY (t.take (k - (uploadHead ctx len).write.length)) name data := by
  rcases Nat.lt_or_ge k (uploadHead ctx len).write.length with hk | hk
  · rw [List.take_append_of_le_length hk.le] at h
    exact absurd h (not_agrees_short ctx len hk name data)
  · rw [List.take_append, List.take_of_length_le hk, agrees_write_iff ctx h1 h2] at h
    exact h.2

/-- `Writen` on a connection that takes what it is given. -/
theorem writen_of_room {outs : List SendOutcome} (hroom : 2147483647 ≤ roomFor outs) (buffer : Bytes) :
    (writen buffer outs).2 = buffer.take (int32 buffer.length).toNat := by
  have hle : (int32 buffer.length).toNat ≤ roomFor outs := by
    have := (int32_bounds buffer.length).2
    omega
  have h := accepted_eq ⟨buffer, outs⟩
  rwa [Message.asked, Nat.min_eq_left hle] at h

/-- The head that is written before a form with `n` bytes of content. -/
def Client.headOf (ctx : Context) (name : Bytes) (n : Nat) : RequestHead :=
  uploadHead ctx (int32 (totalMultipartSize n (multipartFileStart name).length))

/-- The length of the body, as the client adds it up. -/
theorem length_uploadBody (name data : Bytes) : (uploadBody name data).length =
    data.length + (Client.multipartFileStart name).length + MULTIPART_END.length := by
  rw [uploadBody_eq, List.length_append, List.length_append]
  omega

/-- A body of which the length is an `int` has its length in the head. -/
theorem headOf_of_lt (ctx : Context) {name data : Bytes} (h : (uploadBody name data).length < 2147483648) :
    Client.headOf ctx name data.length = uploadHead ctx (uploadBody name data).length := by
  have hsize : Client.totalMultipartSize data.length (Client.multipartFileStart name).length = (uploadBody name data).length := by
    unfold Client.totalMultipartSize
    rw [length_uploadBody, ← Nat.cast_add, ← Nat.cast_add, sizeT_ofNat (by rw [length_uploadBody] at h; omega)]
  rw [Client.headOf, hsize, int32_of_lt h]

section Written

variable {ctx : Context} {name data : Bytes} {outs : List SendOutcome} (hroom : 2147483647 ≤ roomFor outs)
  (hfree : ¬delimiter BOUNDARY <:+: data)
include hroom hfree

/-- A message without the end of its form is no upload, with whatever length. -/
theorem not_agrees_unclosed (n : Int) (data' : Bytes) :
    ¬Agrees name data' (writen ((uploadHead ctx (int32 n)).write ++ (Client.multipartFileStart name ++ data)) outs).2 := by
  obtain ⟨h1, h2⟩ := int32_bounds n
  rw [writen_of_room hroom]
  intro h
  exact not_delivers_unclosed hfree (List.take_prefix _ _) data' (h.take (by omega) (by omega))

/-- A message with the end of its form is the upload of what it carries, if the file name has no CR and the whole of the request
is shorter than `2 ^ 31`. -/
theorem agrees_message_iff (data' : Bytes) :
    Agrees name data' (writen ((Client.headOf ctx name data.length).write ++ uploadBody name data) outs).2 ↔
      data = data' ∧ CR ∉ name ∧ (uploadRequest ctx name data).length < 2147483648 := by
  have hend : MULTIPART_END.length < 2147483648 := by decide
  have hlen := length_uploadBody name data
  rw [writen_of_room hroom, uploadRequest]
  constructor
  · intro h
    obtain ⟨h1, h2⟩ := int32_bounds (Client.totalMultipartSize data.length (Client.multipartFileStart name).length)
    have hread := h.take (by omega) (by omega)
    rw [← Client.headOf] at hread
    have hn := hread.name_cr
    rcases Nat.lt_or_ge ((Client.headOf ctx name data.length).write ++ uploadBody name data).length 2147483648 with hlt | hge
    · rw [int32_of_lt hlt, Int.toNat_natCast, List.take_of_length_le (by simp), delivers_uploadBody hn hfree] at hread
      rw [headOf_of_lt ctx (by rw [List.length_append] at hlt; omega)] at hlt
      exact ⟨hread, hn, hlt⟩
    · -- at least `2 ^ 31` bytes are missing at the end, and with them the closing delimiter
      have hcut := int32_toNat_add_le hge
      revert hread
      generalize (int32 ((Client.headOf ctx name data.length).write ++ uploadBody name data).length).toNat = k at hcut ⊢
      rw [List.length_append] at hcut
      have hk : k - (Client.headOf ctx name data.length).write.length ≤ (Client.multipartFileStart name ++ data).length := by
        rw [List.length_append]
        omega
      rw [uploadBody_eq, List.take_append_of_le_length hk]
      exact fun hread => absurd hread (not_delivers_unclosed hfree (List.take_prefix _ _) data')
  · rintro ⟨rfl, hn, hlt⟩
    have hbody : (uploadBody name data).length < 2147483648 := by
      rw [List.length_append] at hlt
      omega
    rw [headOf_of_lt ctx hbody, int32_of_lt hlt, Int.toNat_natCast, List.take_length, agrees_write_iff ctx (by omega) (by omega)]
    exact ⟨rfl, (delivers_uploadBody hn hfree data).mpr rfl⟩

end Written

/-! ## Uploads -/

/-- An upload that has written one request for the file `name` with the content `data`. -/
def UploadOutcome.Agrees (o : UploadOutcome) (name data : Bytes) : Prop := ∃ sent, o = .wrote sent ∧ Netcore.Agrees name data sent

namespace Client

/-- An upload that wrote its request agrees when the bytes it wrote do. -/
theorem agrees_wrote_iff {sent name data : Bytes} : (UploadOutcome.wrote sent).Agrees name data ↔ Netcore.Agrees name data sent := by
  constructor
  · rintro ⟨_, h, ha⟩
    cases h
    exact ha
  · exact fun h => ⟨sent, rfl, h⟩

/-- The upload of a file, on a client that has uploaded nothing yet. -/
theorem upload_file (ctx : Context) (filename : Bytes) (file : FileContent) {start : Nat} (hstart : start ≤ file.content.length)
    (outs : List SendOutcome) :
    (({ memFileSize := 0 } : Client).upload ctx filename (some file) start outs).2 =
      match makeUploadData ((headOf ctx (Connection.fileName filename) (file.content.drop start).length).write ++
          multipartFileStart (Connection.fileName filename)) (file.content.drop start) with
      | none => .wrote []
      | some data => .wrote (writen data outs).2 := by
  have hsize := file.size_lt
  have hstart' : start ≠ 18446744073709551615 := by omega
  have hleft : sizeT ((file.content.length : Int) - start) = (file.content.drop start).length := by
    rw [List.length_drop, ← Int.ofNat_sub hstart, sizeT_ofNat (by omega)]
  have hhead := buildWriteMsg_upload (c := { headerStr := formHeader, reqContentType := .multipart, start, memFileSize := 0 }) rfl rfl ctx
    (totalMultipartSize (file.content.drop start).length (multipartFileStart (Connection.fileName filename)).length)
  rw [headOf, ← hhead]
  unfold upload sendMultipartMsg
  simp only [ne_eq, not_true_eq_false, if_false, hstart', hleft, formHeader, List.nil_append]
  generalize buildWriteMsg _ _ _ = b
  cases makeUploadData (b.2 ++ multipartFileStart (Connection.fileName filename)) (file.content.drop start) with
  | none => rfl
  | some data => rfl

/-- The upload of letters, which is what any other `memFileSize` asks for. -/
theorem upload_letters {m : Int64} (hm : m ≠ 0) (ctx : Context) (filename : Bytes) (file : Option FileContent) (start : Nat)
    (outs : List SendOutcome) :
    (({ memFileSize := m } : Client).upload ctx filename file start outs).2 =
      if maxStringSize < (headOf ctx (Connection.fileName filename) (sizeT m.toInt)).write.length +
          (multipartFileStart (Connection.fileName filename)).length + sizeT m.toInt + MULTIPART_END.length then .threw
      else .wrote (writen ((headOf ctx (Connection.fileName filename) (sizeT m.toInt)).write ++
        multipartFileStart (Connection.fileName filename) ++ List.replicate (sizeT m.toInt) 97 ++ MULTIPART_END) outs).2 := by
  have hhead := buildWriteMsg_upload (c := { headerStr := formHeader, reqContentType := .multipart, start, memFileSize := m }) rfl rfl ctx
    (totalMultipartSize (sizeT m.toInt) (multipartFileStart (Connection.fileName filename)).length)
  rw [headOf, ← hhead]
  unfold upload sendMultipartMsg
  simp only [ne_eq, hm, not_false_eq_true, if_true, formHeader, List.nil_append]
  exact apply_ite Prod.snd _ _ _

/-- A new client, and any other with a negative `memFileSize`, asks for more letters than a string can have. -/
theorem upload_threw {m : Int64} (hm : m.toInt < 0) (ctx : Context) (filename : Bytes) (file : Option FileContent) (start : Nat)
    (outs : List SendOutcome) : (({ memFileSize := m } : Client).upload ctx filename file start outs).2 = .threw := by
  have hmin := m.le_toInt
  have hne : m ≠ 0 := by
    rintro rfl
    exact absurd hm (by decide)
  have hbig : maxStringSize < sizeT m.toInt := by
    unfold maxStringSize sizeT
    omega
  rw [upload_letters hne, if_pos (by omega)]

/-- The upload of an ordinary file: what is left of it after the offset has to be one block. -/
theorem file_agrees_iff (ctx : Context) (filename : Bytes) (file : FileContent) {start : Nat} (hstart : start ≤ file.content.length)
    {outs : List SendOutcome} (hroom : 2147483647 ≤ roomFor outs) (hfree : ¬delimiter BOUNDARY <:+: file.content.drop start) :
    (({ memFileSize := 0 } : Client).upload ctx filename (some file) start outs).2.Agrees (Connection.fileName filename)
        (file.content.drop start) ↔
      (file.content.drop start ≠ [] ∧ (file.content.drop start).length ≤ uploadBlock) ∧ CR ∉ Connection.fileName filename ∧
      (uploadRequest ctx (Connection.fileName filename) (file.content.drop start)).length < 2147483648 := by
  rw [upload_file ctx filename file hstart]
  generalize file.content.drop start = data at hfree ⊢
  generalize Connection.fileName filename = name
  unfold makeUploadData
  by_cases hnil : data = []
  · rw [if_pos hnil]
    refine iff_of_false ?_ fun h => h.1.1 hnil
    rw [agrees_wrote_iff]
    rintro ⟨h, -⟩
    exact absurd h (by decide)
  · rw [if_neg hnil]
    simp only [agrees_wrote_iff]
    rcases Nat.lt_or_ge uploadBlock data.length with hlong | hle
    · -- the first block is written, and nothing after it
      refine iff_of_false ?_ fun h => absurd h.1.2 (Nat.not_le.mpr hlong)
      rw [if_neg (Nat.not_le.mpr hlong), List.append_nil, List.append_assoc]
      exact not_agrees_unclosed hroom (fun h => hfree (h.trans (List.take_prefix _ _).isInfix)) _ data
    · rw [if_pos hle, List.take_of_length_le hle, List.append_assoc, List.append_assoc, ← List.append_assoc (multipartFileStart name),
        ← uploadBody_eq, agrees_message_iff hroom hfree]
      constructor
      · rintro ⟨-, h⟩
        exact ⟨⟨hnil, hle⟩, h⟩
      · rintro ⟨-, h⟩
        exact ⟨rfl, h⟩

/-- The upload of letters: they have to be what the file has. -/
theorem letters_agrees_iff {m : Int64} (hm : 0 < m.toInt) (ctx : Context) (filename : Bytes) (file : Option FileContent) (start : Nat)
    {outs : List SendOutcome} (hroom : 2147483647 ≤ roomFor outs) (data : Bytes) :
    (({ memFileSize := m } : Client).upload ctx filename file start outs).2.Agrees (Connection.fileName filename) data ↔
      data = List.replicate m.toInt.toNat 97 ∧ CR ∉ Connection.fileName filename ∧
      (uploadRequest ctx (Connection.fileName filename) data).length < 2147483648 := by
  have hmax := m.toInt_lt
  have hne : m ≠ 0 := by
    rintro rfl
    exact absurd hm (by decide)
  have hsize : sizeT m.toInt = m.toInt.toNat := by
    unfold sizeT
    omega
  have hfree : ¬delimiter BOUNDARY <:+: List.replicate m.toInt.toNat 97 := by
    intro h
    have hcr : CR ∈ List.replicate m.toInt.toNat 97 := h.subset (by simp [delimiter, CRLF])
    exact absurd (List.eq_of_mem_replicate hcr) (by decide)
  rw [upload_letters hne, hsize]
  generalize Connection.fileName filename = name
  generalize hletters : List.replicate m.toInt.toNat (97 : UInt8) = letters at hfree ⊢
  have hlen : m.toInt.toNat = letters.length := by rw [← hletters, List.length_replicate]
  rw [hlen]
  split_ifs with hlong
  · -- a request that is so long is no `int` either
    refine iff_of_false ?_ ?_
    · rintro ⟨sent, h, -⟩
      cases h
    · rintro ⟨rfl, -, hlt⟩
      have hbody := length_uploadBody name data
      rw [uploadRequest, List.length_append] at hlt
      rw [headOf_of_lt ctx (by omega)] at hlong
      unfold maxStringSize at hlong
      omega
  · rw [agrees_wrote_iff, List.append_assoc, List.append_assoc, ← List.append_assoc (multipartFileStart name), ← uploadBody_eq,
      agrees_message_iff hroom hfree]
    constructor
    · rintro ⟨rfl, h⟩
      exact ⟨rfl, h⟩
    · rintro ⟨rfl, h⟩
      exact ⟨rfl, h⟩

/-- **When an upload writes the request that the server reads back as the file.** For a file of any content, any offset within it
and any name: a `memFileSize` of 0 makes it an ordinary file, of which the rest after the offset must be one block and not empty;
a positive one makes it as many letters `a`, which the rest must be; and the file name must have no CR, and the whole request must
be shorter than `2 ^ 31` bytes. With the -1 of a new client there is never a request. -/
theorem upload_agrees_iff (m : Int64) (ctx : Context) (filename : Bytes) (file : FileContent) {start : Nat}
    (hstart : start ≤ file.content.length) {outs : List SendOutcome} (hroom : 2147483647 ≤ roomFor outs)
    (hfree : ¬delimiter BOUNDARY <:+: file.content.drop start) :
    (({ memFileSize := m } : Client).upload ctx filename (some file) start outs).2.Agrees (Connection.fileName filename)
        (file.content.drop start) ↔
      (m = 0 ∧ file.content.drop start ≠ [] ∧ (file.content.drop start).length ≤ uploadBlock ∨
        0 < m.toInt ∧ file.content.drop start = List.replicate m.toInt.toNat 97) ∧
      CR ∉ Connection.fileName filename ∧
      (uploadRequest ctx (Connection.fileName filename) (file.content.drop start)).length < 2147483648 := by
  rcases lt_trichotomy m.toInt 0 with hm | hm | hm
  · rw [upload_threw hm]
    refine iff_of_false ?_ ?_
    · rintro ⟨sent, h, -⟩
      cases h
    · rintro ⟨⟨rfl, -⟩ | ⟨h, -⟩, -⟩
      · exact absurd hm (by decide)
      · omega
  · obtain rfl : m = 0 := Int64.toInt_inj.mp hm
    rw [file_agrees_iff ctx filename file hstart hroom hfree]
    simp
  · rw [letters_agrees_iff hm ctx filename (some file) start hroom]
    have hne : m ≠ 0 := by
      rintro rfl
      exact absurd hm (by decide)
    simp [hne, hm]

/-- The URI `http://localhost/upload`. -/
def localUpload : Context where
  host := bytes "localhost"
  path := bytes "/upload"
  method := .post
  host_chars := List.all_eq_true.mp (by decide)
  path_chars := List.all_eq_true.mp (by decide)
  query_chars := by simp

/-- A file of five bytes. -/
def helloFile : FileContent := ⟨bytes "hello", by decide⟩

/-- The rest of a file from its second byte on, uploaded by a client with a `memFileSize` of 0. -/
theorem upload_agrees_hello :
    (({ memFileSize := 0 } : Client).upload localUpload (bytes "dir/a.txt") (some helloFile) 1
      [.room 2147483647, .room 2147483647]).2.Agrees (Connection.fileName (bytes "dir/a.txt")) (helloFile.content.drop 1) :=
  (upload_agrees_iff 0 localUpload (bytes "dir/a.txt") helloFile (by decide) (by decide) (by decide)).mpr
    ⟨.inl ⟨rfl, by decide, by decide⟩, by decide, by decide +kernel⟩

/-- The same file, uploaded whole by a new client. -/
theorem not_upload_agrees :
    ¬(({} : Client).upload localUpload (bytes "a.txt") (some helloFile) 0
      [.room 2147483647, .room 2147483647]).2.Agrees (Connection.fileName (bytes "a.txt")) (helloFile.content.drop 0) := by
  rw [show ({} : Client) = { memFileSize := -1 } from rfl, upload_threw (by decide)]
  rintro ⟨sent, h, -⟩
  cases h

end Client

end Netcore
