import Netcore.Http.Text

/-!
# `response`

The response of a connection: status, headers, content, and `rep_str_`, the bytes that the server sends. Response time
(`need_response_time_`) is never switched on by the server and is left out.
-/

namespace Netcore

/-- `status_type`. -/
inductive StatusType where
  | init
  | switchingProtocols
  | ok
  | created
  | accepted
  | noContent
  | partialContent
  | multipleChoices
  | movedPermanently
  | movedTemporarily
  | notModified
  | temporaryRedirect
  | badRequest
  | unauthorized
  | forbidden
  | notFound
  | internalServerError
  | notImplemented
  | badGateway
  | serviceUnavailable
  deriving DecidableEq, Repr

/-- `to_rep_string`: the status line. -/
def StatusType.toRepString : StatusType → Bytes
  | .init => bytes "HTTP/1.1 501 Not Implemented\r\n"
  | .switchingProtocols => bytes "HTTP/1.1 101 Switching Protocals\r\n"
  | .ok => bytes "HTTP/1.1 200 OK\r\n"
  | .created => bytes "HTTP/1.1 201 Created\r\n"
  | .accepted => bytes "HTTP/1.1 202 Accepted\r\n"
  | .noContent => bytes "HTTP/1.1 204 No Content\r\n"
  | .partialContent => bytes "HTTP/1.1 206 Partial Content\r\n"
  | .multipleChoices => bytes "HTTP/1.1 300 Multiple Choices\r\n"
  | .movedPermanently => bytes "HTTP/1.1 301 Moved Permanently\r\n"
  | .movedTemporarily => bytes "HTTP/1.1 302 Moved Temporarily\r\n"
  | .notModified => bytes "HTTP/1.1 304 Not Modified\r\n"
  | .temporaryRedirect => bytes "HTTP/1.1 307 Temporary Redirect\r\n"
  | .badRequest => bytes "HTTP/1.1 400 Bad Request\r\n"
  | .unauthorized => bytes "HTTP/1.1 401 Unauthorized\r\n"
  | .forbidden => bytes "HTTP/1.1 403 Forbidden\r\n"
  | .notFound => bytes "HTTP/1.1 404 Not Found\r\n"
  | .internalServerError => bytes "HTTP/1.1 500 Internal Server Error\r\n"
  | .notImplemented => bytes "HTTP/1.1 501 Not Implemented\r\n"
  | .badGateway => bytes "HTTP/1.1 502 Bad Gateway\r\n"
  | .serviceUnavailable => bytes "HTTP/1.1 503 Service Unavailable\r\n"

/-- The page of a status: its title and the line shown. -/
def statusPage (title line : String) : Bytes :=
  bytes "<html><head><title>" ++ bytes title ++ bytes "</title></head><body><h1>" ++ bytes line ++ bytes "</h1></body></html>"

/-- `to_string`: the default content of a status. -/
def StatusType.toContent : StatusType → Bytes
  | .ok => bytes "OK"
  | .created => statusPage "Created" "201 Created"
  | .accepted => statusPage "Accepted" "202 Accepted"
  | .noContent => statusPage "No Content" "204 Content"
  | .multipleChoices => statusPage "Multiple Choices" "300 Multiple Choices"
  | .movedPermanently => statusPage "Moved Permanently" "301 Moved Permanently"
  | .movedTemporarily => statusPage "Moved Temporarily" "302 Moved Temporarily"
  | .temporaryRedirect => statusPage "Temporary Redirect" "307 Temporary Redirect"
  | .notModified => statusPage "Not Modified" "304 Not Modified"
  | .badRequest => statusPage "Bad Request" "400 Bad Request"
  | .unauthorized => statusPage "Unauthorized" "401 Unauthorized"
  | .forbidden => statusPage "Forbidden" "403 Forbidden"
  | .notFound => statusPage "Not Found" "404 Not Found"
  | .notImplemented => statusPage "Not Implemented" "501 Not Implemented"
  | .badGateway => statusPage "Bad Gateway" "502 Bad Gateway"
  | .serviceUnavailable => statusPage "Service Unavailable" "503 Service Unavailable"
  | .internalServerError | .init | .switchingProtocols | .partialContent =>
    statusPage "Internal Server Error" "500 Internal Server Error"

/-- `req_content_type`. -/
inductive ReqContentType where
  | html
  | json
  | string
  | multipart
  | none
  deriving DecidableEq, Repr

/-- `response::get_content_type`; nothing for `none`. -/
def ReqContentType.line : ReqContentType → Bytes
  | .html => bytes "Content-Type: text/html; charset=UTF-8\r\n"
  | .json => bytes "Content-Type: application/json; charset=UTF-8\r\n"
  | .string => bytes "Content-Type: text/plain; charset=UTF-8\r\n"
  | .multipart => bytes "Content-Type: multipart/form-data; boundary="
  | .none => []

/-- The members of `response` that the modelled code reads. `cookie` is the text of the session cookie, if there is one.
`res_type_` has no initialiser; a fresh response has whatever value its memory held. -/
structure Response where
  repStr : Bytes := []
  headers : List (Bytes × Bytes) := []
  content : Bytes := []
  status : StatusType := .init
  resType : ReqContentType
  keepAlive : Bool := false
  cookie : Option Bytes := none
  deriving DecidableEq, Repr

/-- The name of the header with the length, as it is written before a value. -/
theorem lengthName_eq : bytes "Content-Length: " = bytes "Content-Length" ++ [COLON, SPACE] := by decide

namespace Response

/-- `(int)content_.size()`. -/
def contentSize (res : Response) : Int := ((res.content.length : Int) + 2147483648) % 4294967296 - 2147483648

/-- The length of a content below `2 ^ 31` is its `int`. -/
theorem contentSize_of_lt {res : Response} (h : res.content.length < 2147483648) : res.contentSize = res.content.length := by
  unfold contentSize
  omega

/-- `build_response_str`: the headers are used up. -/
def buildResponseStr (res : Response) : Response :=
  { res with
    repStr := res.status.toRepString ++ res.headers.flatMap (fun h => h.1 ++ [COLON] ++ h.2 ++ CRLF) ++
      bytes "Content-Length: " ++ decimal res.contentSize ++ CRLF ++ res.resType.line ++ bytes "Server: netcore\r\n" ++
      (match res.cookie with
        | some c => bytes "Set-Cookie: " ++ c ++ CRLF
        | none => []) ++ CRLF ++ res.content
    headers := [] }

/-- `set_status_and_content(status)`: the type of the content stays what it was. -/
def setStatus (res : Response) (status : StatusType) : Response :=
  { res with status := status, content := status.toContent }.buildResponseStr

/-- `set_status_and_content(status, content)`, with the default type `none`. -/
def setStatusAndContent (res : Response) (status : StatusType) (content : Bytes) : Response :=
  { res with status := status, content := content, resType := .none }.buildResponseStr

/-- `add_header`. -/
def addHeader (res : Response) (key value : Bytes) : Response := { res with headers := res.headers ++ [(key, value)] }

/-- `set_response`. -/
def setResponse (res : Response) (str : Bytes) : Response := { res with repStr := str }

/-- `reset`: the response text is kept when headers are waiting. -/
def reset (res : Response) : Response :=
  { repStr := if res.headers = [] then [] else res.repStr, resType := .none }

end Response

end Netcore
