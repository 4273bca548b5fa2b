import Netcore.Http.Decimal
import Netcore.Lib.Delimiter
import Netcore.Server.Delivery
import Netcore.Server.Segmentation
import Netcore.Server.StaticFiles

/-!
# What a download sends

A file of at most 5 MB is sent as the content of one response. For a larger one `process_download` writes a header block that
announces the whole file, and leaves the content to later calls of `process`, through `continue_write_then_route`. But
`process` has answered `need_write`, and `Server::handle` ends after that write: the content is never sent.
-/

namespace Netcore

open Delimiter

/-! ## Complete responses -/

/-- The name of the header that announces the length of a body, up to its value. -/
def lengthField : Bytes := bytes "Content-Length: "

/-- The lines of a header block are not empty and have no CR in them. -/
def HeaderLines (lines : List Bytes) : Prop := ∀ l ∈ lines, l ≠ [] ∧ CR ∉ l

/-- One of the lines is the length `n`, and no other line is a length. -/
def Announces (lines : List Bytes) (n : Nat) : Prop :=
  lengthField ++ decimal n ∈ lines ∧ ∀ l ∈ lines, lengthField <+: l → l = lengthField ++ decimal n

/-- What was sent is one header block and then exactly as many bytes as it announces: the bytes wanted. -/
def IsComplete (sent wanted : Bytes) : Prop :=
  ∃ lines n, HeaderLines lines ∧ Announces lines n ∧ wanted.length = n ∧ sent = block CRLF lines ++ wanted

/-- A beginning of a complete text is complete only when it is all of it. -/
theorem IsComplete.eq_of_prefix {sent full wanted : Bytes} (h : IsComplete sent wanted) (hfull : IsComplete full wanted)
    (hpre : sent <+: full) : sent = full := by
  obtain ⟨lines, n, hlines, -, -, rfl⟩ := h
  obtain ⟨lines', n', hlines', -, -, rfl⟩ := hfull
  obtain ⟨missing, hmissing⟩ := hpre
  rw [List.append_assoc] at hmissing
  obtain ⟨rfl, hbody⟩ := block_append_inj hlines hlines' hmissing
  rfl

/-- A line that is put together from two texts without a CR. -/
theorem line_append {a m : Bytes} (ha : a ≠ [] ∧ CR ∉ a) (hm : CR ∉ m) : a ++ m ≠ [] ∧ CR ∉ a ++ m := by
  refine ⟨List.append_ne_nil_of_left_ne_nil ha.1 m, ?_⟩
  rw [List.mem_append, not_or]
  exact ⟨ha.2, hm⟩

/-- The line with the length. -/
theorem lengthField_line (n : Nat) : lengthField ++ decimal n ≠ [] ∧ CR ∉ lengthField ++ decimal n :=
  line_append (by simp [lengthField, bytes, CR]) (cr_not_mem_decimal n)

/-- A line that is no length, to be seen from its beginning. -/
theorem not_lengthField_isPrefix {a : Bytes} (m : Bytes) (ha : 9 ≤ a.length) (h : a.take 9 ≠ lengthField.take 9) :
    ¬ lengthField <+: a ++ m := by
  rintro ⟨t, ht⟩
  have htake := congrArg (List.take 9) ht
  rw [List.take_append_of_le_length ha, List.take_append_of_le_length (by decide)] at htake
  exact h htake.symm

namespace Connection

variable {env : Env} {c : Connection} {content : Bytes}

/-- The response to a request for a small file. -/
def smallFile (mime content : Bytes) : Bytes :=
  block CRLF [bytes "HTTP/1.1 200 OK", bytes "Access-Control-Allow-origin:*", bytes "Content-type:" ++ mime ++ bytes "; charset=utf8",
    lengthField ++ decimal content.length, bytes "Server: netcore"] ++ content

/-- The text that `send_small_file` builds, from a response without headers of its own. -/
theorem setStatusAndContent_small {res : Response} (hheaders : res.headers = []) (hcookie : res.cookie = none) (mime : Bytes)
    (hlen : content.length < 2147483648) :
    (((res.addHeader (bytes "Access-Control-Allow-origin") (bytes "*")).addHeader (bytes "Content-type")
      (mime ++ bytes "; charset=utf8")).setStatusAndContent .ok content).repStr = smallFile mime content := by
  have hstatus : StatusType.toRepString .ok = bytes "HTTP/1.1 200 OK" ++ CRLF := by simp [StatusType.toRepString, bytes, CRLF, CR, LF]
  have horigin : bytes "Access-Control-Allow-origin:*" = bytes "Access-Control-Allow-origin" ++ [COLON] ++ bytes "*" := by
    simp [bytes, COLON]
  have htype : bytes "Content-type:" = bytes "Content-type" ++ [COLON] := by simp [bytes, COLON]
  have hserver : bytes "Server: netcore\r\n" = bytes "Server: netcore" ++ CRLF := by simp [bytes, CRLF, CR, LF]
  simp only [Response.setStatusAndContent, Response.addHeader, Response.buildResponseStr, hheaders, hcookie]
  rw [Response.contentSize_of_lt hlen, smallFile, hstatus, hserver, horigin, htype]
  simp only [List.nil_append, List.cons_append, List.flatMap_cons, List.flatMap_nil, block, lengthField, ReqContentType.line,
    List.append_assoc, List.append_nil]

/-- The response for a small file is not empty. -/
theorem smallFile_ne_nil (mime content : Bytes) : smallFile mime content ≠ [] := by
  have hfirst : bytes "HTTP/1.1 200 OK" ≠ [] := by simp [bytes]
  simp [smallFile, block, hfirst]

/-- The response with a small file is complete. -/
theorem isComplete_smallFile {mime : Bytes} (hmime : CR ∉ mime) (content : Bytes) : IsComplete (smallFile mime content) content := by
  refine ⟨_, content.length, ?_, ?_, rfl, rfl⟩
  · intro l hl
    simp only [List.mem_cons, List.not_mem_nil, or_false] at hl
    rcases hl with rfl | rfl | rfl | rfl | rfl
    · simp [bytes, CR]
    · simp [bytes, CR]
    · exact line_append (line_append (by simp [bytes, CR]) hmime) (by simp [bytes, CR])
    · exact lengthField_line _
    · simp [bytes, CR]
  · refine ⟨by simp, fun l hl hpre => ?_⟩
    simp only [List.mem_cons, List.not_mem_nil, or_false] at hl
    rcases hl with rfl | rfl | rfl | rfl | rfl
    · exact absurd hpre (by simp [lengthField, bytes])
    · exact absurd hpre (by simp [lengthField, bytes])
    · rw [List.append_assoc] at hpre
      exact absurd hpre (not_lengthField_isPrefix _ (by simp [bytes]) (by simp [lengthField, bytes]))
    · rfl
    · exact absurd hpre (by simp [lengthField, bytes])

/-- The header block for a large file. -/
theorem rangesHeader_eq_block (mime filename : Bytes) (n : Nat) : rangesHeader mime filename n =
    block CRLF [bytes "HTTP/1.1 200 OK", bytes "Access-Control-Allow-origin: *", bytes "Accept-Ranges: bytes",
      bytes "Content-Disposition: attachment;filename=" ++ filename, bytes "Connection: keep-alive",
      bytes "Content-Type: " ++ mime, lengthField ++ decimal n] := by
  have hfirst : bytes "HTTP/1.1 200 OK\r\nAccess-Control-Allow-origin: *\r\nAccept-Ranges: bytes\r\n" =
      bytes "HTTP/1.1 200 OK" ++ CRLF ++ (bytes "Access-Control-Allow-origin: *" ++ CRLF) ++
        (bytes "Accept-Ranges: bytes" ++ CRLF) := by simp [bytes, CRLF, CR, LF]
  have halive : bytes "Connection: keep-alive\r\n" = bytes "Connection: keep-alive" ++ CRLF := by simp [bytes, CRLF, CR, LF]
  rw [rangesHeader, hfirst, halive]
  simp only [block, lengthField, List.flatMap_cons, List.flatMap_nil, List.append_assoc, List.append_nil]

/-- The header of a large file is not empty. -/
theorem rangesHeader_ne_nil (mime filename : Bytes) (n : Nat) : rangesHeader mime filename n ≠ [] := by
  have hfirst : bytes "HTTP/1.1 200 OK" ≠ [] := by simp [bytes]
  simp [rangesHeader_eq_block, block, hfirst]

/-- No beginning of a header block that announces ten bytes or more and has nothing after it is complete. -/
theorem not_isComplete_rangesHeader {mime filename : Bytes} (hmime : CR ∉ mime) (hname : CR ∉ filename) {n : Nat} (hn : 10 ≤ n)
    {sent : Bytes} (hsent : sent <+: rangesHeader mime filename n) (wanted : Bytes) : ¬ IsComplete sent wanted := by
  rintro ⟨lines, k, hlines, hann, hk, rfl⟩
  obtain ⟨missing, hsent⟩ := hsent
  rw [rangesHeader_eq_block, ← List.append_nil (block _ [_, _, _, _, _, _, _]), List.append_assoc] at hsent
  have hours : HeaderLines [bytes "HTTP/1.1 200 OK", bytes "Access-Control-Allow-origin: *", bytes "Accept-Ranges: bytes",
      bytes "Content-Disposition: attachment;filename=" ++ filename, bytes "Connection: keep-alive",
      bytes "Content-Type: " ++ mime, lengthField ++ decimal n] := by
    intro l hl
    simp only [List.mem_cons, List.not_mem_nil, or_false] at hl
    rcases hl with rfl | rfl | rfl | rfl | rfl | rfl | rfl
    · simp [bytes, CR]
    · simp [bytes, CR]
    · simp [bytes, CR]
    · exact line_append (by simp [bytes, CR]) hname
    · simp [bytes, CR]
    · exact line_append (by simp [bytes, CR]) hmime
    · exact lengthField_line _
  obtain ⟨rfl, hbody⟩ := block_append_inj hlines hours hsent
  obtain rfl : 0 = k := by rw [← hk, (List.append_eq_nil_iff.mp hbody).1, List.length_nil]
  have hline := hann.2 (lengthField ++ decimal n) (by simp) (List.prefix_append _ _)
  have hlt := lt_ten_of_decimal_eq (List.append_cancel_left hline)
  omega

/-- What the static handler answers with when there is a file: the file or, when it is large, the header block only. -/
theorem callBack_download (hroute : env.router.route c.req.getMethod c.req.getUrl = some .staticRes)
    (hcheck : env.downloadCheck = none) (hstate : c.req.state = .dataBegin) (hheaders : c.res.headers = [])
    (hcookie : c.res.cookie = none) (hfile : env.files (cString (staticPath c.req)) = some content) :
    (callBack env c).res.repStr =
      if content.length ≤ 5242880 then smallFile (env.mime (staticPath c.req)) (content.drop (startPos c.req content.length))
      else rangesHeader (env.mime (staticPath c.req)) (fileName (staticPath c.req)) content.length := by
  have hdown : (callBack env c) = processDownload env (c.log (.handler .staticRes c.req)) (staticPath c.req) := by
    unfold callBack staticHandler
    rw [hroute]
    dsimp only
    rw [hcheck]
    rfl
  rw [hdown, processDownload]
  simp only [log_req, hstate, hfile]
  split_ifs with hsize
  · have hlen : (content.drop (startPos c.req content.length)).length < 2147483648 := by
      rw [List.length_drop]
      omega
    exact setStatusAndContent_small hheaders hcookie _ hlen
  · rfl

end Connection

namespace Server

open Connection

variable {env : Env} {c h : Connection} {a content : Bytes}

/-- After the read `a` the server hands the request of `h` to the static handler, which finds the file `content`. No
header or cookie has been set in the response before. -/
structure Download (env : Env) (c : Connection) (a : Bytes) (h : Connection) (content : Bytes) : Prop where
  reads : a ≠ [] ∧ a.length < c.req.leftSize ∧ c.req.curSize + a.length ≤ maxSize
  handed : process env { c with req := receive c.req a } = (callBack env h, .state .needWrite)
  route : env.router.route h.req.getMethod h.req.getUrl = some .staticRes
  check : env.downloadCheck = none
  state : h.req.state = .dataBegin
  headers : h.res.headers = []
  cookie : h.res.cookie = none
  file : env.files (cString (staticPath h.req)) = some content

/-- The server gets to one step, in which the handler responds. -/
theorem Download.serve_eq (hd : Download env c a h content) (as : List Bytes) :
    serve env c (a :: as) = [.processed (callBack env h) (.state .needWrite)] := by
  obtain ⟨hne, hlt, hmax⟩ := hd.reads
  have hstep : step env c a = .processed (callBack env h) (.state .needWrite) := by
    rw [step_eq hne hlt hmax, hd.handed]
  rw [serve_cons_ends, hstep]
  intro c' answer hs
  rw [hstep] at hs
  injection hs with _ hans
  rw [← hans]
  rfl

/-- What the socket takes of the response of the handler. -/
theorem Download.delivered_eq (hd : Download env c a h content) (as : List Bytes) (k : SendSchedule) (ks : List SendSchedule) :
    delivered (serve env c (a :: as)) (k :: ks) = (k.deliver (callBack env h).res.repStr).sending.wire := by
  rw [hd.serve_eq, delivered_single rfl]
  rfl

/-- A request for a file without a body, in the first read of a connection, is a download. -/
theorem download_of_first_read (resType : ReqContentType) (hc : Head.Complete a) (hlen : a.length < 1024)
    (hm : (phrParseRequest a).method.len ≠ 0) (hr : Head.route env.router a = some .staticRes) (hbody : Head.hasBody a = false)
    (hup : Head.isUpgrade a = false) (hn : env.checkHeaders = none) (hcheck : env.downloadCheck = none)
    (hfile : env.files (staticDir ++ requestedName (Head.url a)) = some content) :
    ∃ h, Download env (fresh resType) a h content ∧ h.req.getUrl = Head.url a ∧
      h.req.getHeaderValue (bytes "cinatra_start_pos") = Head.value a (bytes "cinatra_start_pos") := by
  have hb := buffered_received resType hlen
  obtain ⟨q, hp, -, hroute, hhandled⟩ := handleRead_bodiless resType hc hlen hr hn hbody hup
  have hurl : q.getUrl = Head.url a := by
    rw [hp.getUrl, hb.received, if_pos hm]
  have hvalue : q.getHeaderValue (bytes "cinatra_start_pos") = Head.value a (bytes "cinatra_start_pos") := by
    rw [hp.getHeaderValue, hb.received]
  obtain ⟨keep, ws, up, hk⟩ := checkKeepAlive_eq ({ received resType a with req := q }.log (.peek true))
  have hreq : ({ received resType a with req := q }.log (.peek true)).checkKeepAlive.req = q := checkKeepAlive_req _
  refine ⟨({ received resType a with req := q }.log (.peek true)).checkKeepAlive, ?_, by rw [hreq, hurl], by rw [hreq, hvalue]⟩
  exact
    { reads := ⟨ne_nil_of_complete hc, by rw [fresh_leftSize]; exact hlen, by show 0 + a.length ≤ maxSize; unfold maxSize; omega⟩
      handed := by
        have hread : process env { fresh resType with req := receive (fresh resType).req a } =
            handleRead env (received resType a) := process_none rfl rfl
        rw [hread, hhandled]
      route := by rw [hreq]; exact hroute
      check := hcheck
      state := by rw [hreq, hp.state]; rfl
      headers := by rw [hk]; rfl
      cookie := by rw [hk]; rfl
      file := by rw [hreq, cString_staticPath, hurl]; exact hfile }

/-- **Downloads are complete** for files of at most 5242880 bytes whose response the socket takes: one header block and exactly the bytes
it announces, which are the file from the start position on. What the client gets of a larger file, or of a response that is cut, is
never complete, unless the name of the file has a CR and so ends the header block itself. -/
theorem download_complete (hd : Download env c a h content) (hmime : ∀ path, CR ∉ env.mime path) (as : List Bytes) {k : SendSchedule}
    (hok : ¬k.Fails) (ks : List SendSchedule) :
    (content.length ≤ 5242880 ∧
        (smallFile (env.mime (staticPath h.req)) (content.drop (startPos h.req content.length))).length ≤ k.capacity →
      IsComplete (delivered (serve env c (a :: as)) (k :: ks)) (content.drop (startPos h.req content.length))) ∧
    (IsComplete (delivered (serve env c (a :: as)) (k :: ks)) (content.drop (startPos h.req content.length)) →
      content.length ≤ 5242880 ∧
          (smallFile (env.mime (staticPath h.req)) (content.drop (startPos h.req content.length))).length ≤ k.capacity ∨
        CR ∈ fileName (staticPath h.req)) := by
  have hrep := callBack_download hd.route hd.check hd.state hd.headers hd.cookie hd.file
  have hsmall := isComplete_smallFile (hmime (staticPath h.req)) (content.drop (startPos h.req content.length))
  rw [hd.delivered_eq, hrep]
  by_cases hsize : content.length ≤ 5242880
  · rw [if_pos hsize, SendSchedule.wire_deliver hok (smallFile_ne_nil _ _)]
    refine ⟨fun ⟨_, hroom⟩ => ?_, fun hcomplete => Or.inl ⟨hsize, ?_⟩⟩
    · rw [List.take_of_length_le hroom]
      exact hsmall
    · exact List.take_eq_self_iff _ |>.mp (hcomplete.eq_of_prefix hsmall (List.take_prefix _ _))
  · rw [if_neg hsize, SendSchedule.wire_deliver hok (rangesHeader_ne_nil _ _ _)]
    refine ⟨fun h => absurd h.1 hsize, fun hcomplete => ?_⟩
    by_contra hboth
    have hname := (not_or.mp hboth).2
    exact not_isComplete_rangesHeader (hmime _) hname (by omega) (List.take_prefix _ _) _ hcomplete

/-- An application that serves one file. -/
def oneFile (path content : Bytes) : Env := { filesOnly with files := fun p => if p = path then some content else none }

/-- The one file is there. -/
theorem oneFile_files (path content : Bytes) : (oneFile path content).files path = some content := if_pos rfl

/-- Its type has no CR. -/
theorem oneFile_mime (path content : Bytes) : ∀ p, CR ∉ (oneFile path content).mime p := by
  intro p
  show CR ∉ bytes "text/plain"
  simp [bytes, CR]

/-- A first read with a request for the file at `path`, without a body. -/
def AsksFor (path a : Bytes) : Prop :=
  Head.Complete a ∧ a.length < 1024 ∧ (phrParseRequest a).method.len ≠ 0 ∧ Head.route filesOnly.router a = some .staticRes ∧
    Head.hasBody a = false ∧ Head.isUpgrade a = false ∧ staticDir ++ requestedName (Head.url a) = path

instance (path a : Bytes) : Decidable (AsksFor path a) := inferInstanceAs (Decidable (_ ∧ _))

/-- A request for the one file is handed to the static handler. -/
theorem AsksFor.download {path : Bytes} (h : AsksFor path a) (content : Bytes) :
    ∃ c, Download (oneFile path content) (fresh .none) a c content ∧ c.req.getUrl = Head.url a ∧
      c.req.getHeaderValue (bytes "cinatra_start_pos") = Head.value a (bytes "cinatra_start_pos") := by
  obtain ⟨hc, hlen, hm, hroute, hbody, hup, hpath⟩ := h
  refine download_of_first_read .none hc hlen hm hroute hbody hup rfl rfl ?_
  rw [hpath, oneFile_files]

/-- A socket with room for ten bytes, and for the rest in a later event. -/
def inTwoParts : SendSchedule := { sendAtAwaiter := true, outs := [.room 10], events := [{ epollout := true, outs := [.room 1000] }] }

/-- The file `hello` from its third byte on. -/
theorem download_complete_llo :
    IsComplete (delivered (serve (oneFile (bytes "www/a.txt") (bytes "hello")) (fresh .none)
      [bytes "GET /a.txt HTTP/1.1\r\ncinatra_start_pos: 2\r\n\r\n"]) [inTwoParts]) (bytes "llo") := by
  have hasks : AsksFor (bytes "www/a.txt") (bytes "GET /a.txt HTTP/1.1\r\ncinatra_start_pos: 2\r\n\r\n") := by decide +kernel
  obtain ⟨h, hd, -, hvalue⟩ := hasks.download (bytes "hello")
  have hpos : startPos h.req (bytes "hello").length = 2 := by
    rw [startPos, hvalue]
    decide +kernel
  have hcomplete := (download_complete hd (oneFile_mime _ _) [] (k := inTwoParts) (by decide) []).1
  rw [hpos] at hcomplete
  refine hcomplete ⟨by decide, ?_⟩
  show (smallFile (bytes "text/plain") (bytes "llo")).length ≤ inTwoParts.capacity
  decide +kernel

/-- Of a large file the header block is sent and nothing else. -/
theorem not_isComplete_large (hlarge : 5242880 < content.length) {k : SendSchedule} (hok : ¬k.Fails) (wanted : Bytes) :
    ¬ IsComplete (delivered (serve (oneFile (bytes "www/a.bin") content) (fresh .none) [bytes "GET /a.bin HTTP/1.1\r\n\r\n"]) [k])
      wanted := by
  have hasks : AsksFor (bytes "www/a.bin") (bytes "GET /a.bin HTTP/1.1\r\n\r\n") := by decide +kernel
  obtain ⟨h, hd, hurl, -⟩ := hasks.download content
  have hname : CR ∉ fileName (staticPath h.req) := by
    rw [staticPath, Request.getRelativeFilename, hurl]
    decide +kernel
  rw [hd.delivered_eq, callBack_download hd.route hd.check hd.state hd.headers hd.cookie hd.file, if_neg (by omega),
    SendSchedule.wire_deliver hok (rangesHeader_ne_nil _ _ _)]
  exact not_isComplete_rangesHeader (oneFile_mime _ _ _) hname (by omega) (List.take_prefix _ _) _

/-- A file of 5242881 zeros is not sent, though the socket would take it. -/
theorem not_download_complete_large :
    ¬ IsComplete (delivered (serve (oneFile (bytes "www/a.bin") (List.replicate 5242881 0)) (fresh .none)
        [bytes "GET /a.bin HTTP/1.1\r\n\r\n"]) [{ sendAtAwaiter := true, outs := [.room 10000000] }])
      (List.replicate 5242881 0) :=
  not_isComplete_large (by rw [List.length_replicate]; decide) (by decide) _

end Server

end Netcore
