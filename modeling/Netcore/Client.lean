import Netcore.Connection
import Netcore.Socket.Writen

/-!
# `http_client`

The part of the client that uploads a file: the head of the request, the form of one part, and what is written to the socket. The
client has a connection and no request in progress. A `Context` is the URI as `uri_t::parse_from` takes it apart, so it has only
characters that `parse_from` lets through.

`Write` never calls its handler (the call is commented out), so `send_file_data` writes once. `CTcpClient::Writen` is the loop of
`Writen`.
-/

namespace Netcore

/-! ## URIs -/

/-- `is_unreserved`. -/
def isUnreserved (c : UInt8) : Bool :=
  decide (isDigit c ∨ (65 ≤ c ∧ c ≤ 90) ∨ (97 ≤ c ∧ c ≤ 122) ∨ c ∈ bytes "-._~")

/-- `is_sub_delim`. -/
def isSubDelim (c : UInt8) : Bool := decide (c ∈ bytes "!$&'()*+,;=")

/-- `is_path_character`. -/
def isPathCharacter (c : UInt8) : Bool := isUnreserved c || isSubDelim c || decide (c ∈ bytes "%/:@")

/-- `is_query_character`. -/
def isQueryCharacter (c : UInt8) : Bool := isPathCharacter c || decide (c = 63)

/-- `is_authority_character`. -/
def isAuthorityCharacter (c : UInt8) : Bool := isUnreserved c || isSubDelim c || decide (c ∈ bytes "%@:[]")

/-- `context`: where a request goes, its method and its body. -/
structure Context where
  host : Bytes
  path : Bytes
  query : Bytes := []
  body : Bytes := []
  method : HttpMethod
  host_chars : ∀ c ∈ host, isAuthorityCharacter c = true
  path_chars : ∀ c ∈ path, isPathCharacter c = true
  query_chars : ∀ c ∈ query, isQueryCharacter c = true

/-! ## The client -/

/-- `BOUNDARY`. -/
def BOUNDARY : Bytes := bytes "--netcoreBoundary2B8FAF4A80EDB307"

/-- `MULTIPART_END`. -/
def MULTIPART_END : Bytes := CRLF ++ bytes "--" ++ BOUNDARY ++ bytes "--" ++ (CRLF ++ CRLF)

/-- `get_content_type_str`. -/
def ReqContentType.str : ReqContentType → Bytes
  | .html => bytes "text/html; charset=UTF-8"
  | .json => bytes "application/json; charset=UTF-8"
  | .string => bytes "text/html; charset=UTF-8"
  | .multipart => bytes "multipart/form-data; boundary="
  | .none => []

/-- The members of `http_client` that an upload uses. A new client has `memFileSize_` at -1; the comment there says that -1
stands for an ordinary file. -/
structure Client where
  headers : List (Bytes × Bytes) := []
  headerStr : Bytes := []
  reqContentType : ReqContentType := .json
  start : Nat := 0
  memFileSize : Int64 := -1
  deriving DecidableEq, Repr

/-- How an upload ends: with an error for the callback, with the exception of a string that gets too long, or with the bytes that
the socket has taken. -/
inductive UploadOutcome where
  | failed (message : Bytes)
  | threw
  | wrote (sent : Bytes)
  deriving DecidableEq, Repr

/-- A file as the file system has it, with its size an `off_t`. -/
structure FileContent where
  content : Bytes
  size_lt : content.length < 9223372036854775808

/-- No string is longer than `PTRDIFF_MAX`. -/
def maxStringSize : Nat := 9223372036854775807

/-- The block that `make_upload_data` reads. -/
def uploadBlock : Nat := 3145728

namespace Client

/-- `build_write_msg`. The number of a `Content-Length` is printed as an `int`. -/
def buildWriteMsg (c : Client) (ctx : Context) (contentLen : Nat) : Client × Bytes :=
  let line := ctx.method.name ++ bytes " " ++ ctx.path ++ (if ctx.query = [] then [] else bytes "?" ++ ctx.query) ++
    bytes " HTTP/1.1\r\nHost:" ++ ctx.host ++ CRLF
  let c := if contains c.headerStr (bytes "Content-Type") = false ∧ c.reqContentType.str ≠ [] then
      { c with headers := c.headers ++ [(bytes "Content-Type", c.reqContentType.str)] } else c
  let headers := c.headers.flatMap (fun h => h.1 ++ bytes ": " ++ h.2 ++ CRLF) ++
    (if c.headerStr = [] then [] else c.headerStr ++ CRLF)
  let hasConnection := c.headers.any (fun h => decide (h.1 = bytes "Connection")) || contains c.headerStr (bytes "Connection")
  let length :=
    if ctx.body ≠ [] then bytes "Content-Length: " ++ decimal (int32 ctx.body.length) ++ CRLF
    else if ctx.method = .post then
      if 0 < contentLen then bytes "Content-Length: " ++ decimal (int32 contentLen) ++ CRLF else bytes "Content-Length: 0\r\n"
    else []
  (c, line ++ headers ++ length ++ (if hasConnection then [] else bytes "Connection: keep-alive\r\n") ++ CRLF ++ ctx.body)

/-- `multipart_file_start`. -/
def multipartFileStart (filename : Bytes) : Bytes :=
  bytes "--" ++ BOUNDARY ++ CRLF ++
    (bytes "Content-Disposition: form-data; name=\"test\"; filename=\"" ++ filename ++ bytes "\"" ++ CRLF) ++ CRLF

/-- `total_multipart_size`. -/
def totalMultipartSize (leftFileSize multipartStartSize : Nat) : Nat :=
  sizeT (leftFileSize + multipartStartSize + MULTIPART_END.length)

/-- `make_upload_data`, with `rest` left to read: what is in `multipart_str_` then, or `none` at the end of the file. -/
def makeUploadData (multipartStr rest : Bytes) : Option Bytes :=
  if rest = [] then none
  else some (multipartStr ++ rest.take uploadBlock ++ if rest.length ≤ uploadBlock then MULTIPART_END else [])

/-- `send_multipart_msg` for a file named `filename`; `file` is what the file system has under that name. A `memFileSize` that
is not 0 asks for a form of so many letters `a`, and the file is not looked at. -/
def sendMultipartMsg (c : Client) (ctx : Context) (filename : Bytes) (file : Option FileContent) (outs : List SendOutcome) :
    Client × UploadOutcome :=
  let multipartStr := multipartFileStart (Connection.fileName filename)
  let header := bytes "Content-Type: multipart/form-data; boundary=" ++ BOUNDARY
  if c.memFileSize ≠ 0 then
    let leftFileSize := sizeT c.memFileSize.toInt
    let (c, writeStr) := { c with headerStr := c.headerStr ++ header }.buildWriteMsg ctx
      (totalMultipartSize leftFileSize multipartStr.length)
    if maxStringSize < writeStr.length + multipartStr.length + leftFileSize + MULTIPART_END.length then (c, .threw)
    else (c, .wrote (writen (writeStr ++ multipartStr ++ List.replicate leftFileSize 97 ++ MULTIPART_END) outs).2)
  else
    match file with
    | none => (c, .failed (bytes "filesize error"))
    | some f =>
      if c.start = 18446744073709551615 then (c, .failed (bytes "filesize error"))
      else
        let leftFileSize := sizeT (f.content.length - c.start)
        let rest := f.content.drop c.start
        let (c, writeStr) := { c with headerStr := c.headerStr ++ header }.buildWriteMsg ctx
          (totalMultipartSize leftFileSize multipartStr.length)
        match makeUploadData (writeStr ++ multipartStr) rest with
        | none => (c, .wrote [])
        | some data => (c, .wrote (writen data outs).2)

/-- `upload`, from the offset `start` of the file. -/
def upload (c : Client) (ctx : Context) (filename : Bytes) (file : Option FileContent) (start : Nat) (outs : List SendOutcome) :
    Client × UploadOutcome :=
  { c with start, reqContentType := .multipart }.sendMultipartMsg { ctx with method := .post, body := [] } filename file outs

end Client

end Netcore
