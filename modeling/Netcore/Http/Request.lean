import Netcore.Http.Pico
import Netcore.Multipart.Reader

/-!
# `request`

The request of a connection and the operations on it. `buf` is the vector `buf_` with its full size, of which the first
`curSize` bytes have been received; method, URL and headers are tokens in it until `copyMethodUrlHeaders` makes copies.
`header_len_` is an `int` and may be negative after a parse that did not end; wherever the source adds it to a `size_t` or
returns it as one, the sum is taken modulo `2 ^ 64` (`sizeT`). The build has no `CINATRA_ENABLE_GZIP`, so `uncompress`
does nothing and answers `true`.
-/

namespace Netcore

open Slices

/-- `data_proc_state`. -/
inductive DataProcState where
  | dataBegin
  | dataContinue
  | dataEnd
  | dataAllEnd
  | dataClose
  | dataError
  deriving DecidableEq, Repr

/-- `content_type`. -/
inductive ContentType where
  | string
  | json
  | multipart
  | urlencoded
  | chunked
  | octetStream
  | websocket
  | unknown
  deriving DecidableEq, Repr

/-- A file that an upload writes: the path it was opened under, what was written, and whether it is open. -/
structure UploadFile where
  path : Bytes
  written : Bytes := []
  isOpen : Bool := true
  deriving DecidableEq, Repr

/-- `upload_file::write`. A stream that has been closed takes nothing. -/
def UploadFile.write (f : UploadFile) (data : Bytes) : UploadFile :=
  if f.isOpen then { f with written := f.written ++ data } else f

/-- `request::MaxSize`, the `3_MB` of the configuration. -/
def maxSize : Nat := 3145728

/-- The members of `request` that the modelled code reads. -/
structure Request where
  buf : Bytes
  curSize : Nat := 0
  headers : List PhrHeader := []
  method : Slice := {}
  url : Slice := {}
  minorVersion : Int := 0
  headerLen : Int := 0
  bodyLen : Nat := 0
  leftBodyLen : Nat := 0
  rawUrl : Bytes := []
  methodStr : Bytes := []
  urlStr : Bytes := []
  cookieStr : Bytes := []
  copyHeaders : List (Bytes × Bytes) := []
  queries : List (Bytes × Bytes) := []
  formUrlMap : List (Bytes × Bytes) := []
  multipartFormMap : List (Bytes × Bytes) := []
  hasGzip : Bool := false
  isChunked : Bool := false
  maxHeaderLen : Nat := 1048576
  state : DataProcState := .dataBegin
  httpType : ContentType := .unknown
  partData : Bytes := []
  multipartHeaders : List (Bytes × Bytes) := []
  lastMultpartKey : Bytes := []
  files : List UploadFile := []
  deriving DecidableEq, Repr

namespace Request

/-- The bytes received. -/
def received (r : Request) : Bytes := r.buf.take r.curSize

/-! ## Lookups -/

/-- `get_header_value`: from the copies when there are any, else from the buffer. An absent header is an empty value. For the
comparison with a copy the key is measured with `strlen`. -/
def getHeaderValue (r : Request) (key : Bytes) : Bytes :=
  if r.copyHeaders = [] then
    match r.headers.find? (fun h => iequal (h.name.read r.buf) key) with
    | some h => h.value.read r.buf
    | none => []
  else
    match r.copyHeaders.find? (fun h => iequal h.1 (key.takeWhile (· ≠ 0))) with
    | some h => h.2
    | none => []

/-- `get_method`. -/
def getMethod (r : Request) : Bytes := if r.method.len ≠ 0 then r.method.read r.buf else r.methodStr

/-- `get_url`. -/
def getUrl (r : Request) : Bytes := if r.method.len ≠ 0 then r.url.read r.buf else r.urlStr

/-- `get_relative_filename`. -/
def getRelativeFilename (r : Request) : Bytes := if isFormUrlEncode r.getUrl then urlDecode r.getUrl else r.getUrl

def hasBody (r : Request) : Bool := decide (r.bodyLen ≠ 0 ∨ r.isChunked = true)

def isHttp11 (r : Request) : Bool := decide (r.minorVersion = 1)

/-! ## Sizes -/

/-- `total_len`: the sum as a `size_t`. -/
def totalLen (r : Request) : Nat := sizeT (r.headerLen + r.bodyLen)

def hasRecievedAll (r : Request) : Bool := decide (r.totalLen ≤ r.curSize)

def hasRecievedAllPart (r : Request) : Bool := decide (r.bodyLen = sizeT (r.curSize - r.headerLen))

def atCapacity (r : Request) : Bool := decide (maxSize < sizeT (r.headerLen + r.bodyLen))

def leftSize (r : Request) : Nat := r.buf.length - r.curSize

/-- `set_body_len`, with the conversion of its argument to `size_t`. -/
def setBodyLen (r : Request) (len : Int) : Request := { r with bodyLen := sizeT len, leftBodyLen := sizeT len }

/-- `reduce_left_body_size`. -/
def reduceLeftBodySize (r : Request) (size : Nat) : Request := { r with leftBodyLen := sizeT (r.leftBodyLen - size) }

def bodyFinished (r : Request) : Bool := decide (r.leftBodyLen = 0)

/-- `body`: a view of `body_len_` bytes from `header_len_` on. Only the part of it that lies in the buffer has bytes. -/
def body (r : Request) : Bytes := slice r.buf r.headerLen.toNat (r.headerLen.toNat + r.bodyLen)

/-! ## Multipart fields -/

/-- `get_multipart_field_name`: from the first quote after the name of the field to the last quote, in the first header in
name order. When no quote follows, `npos + 1` is 0 and the text is taken from its beginning. -/
def getMultipartFieldName (r : Request) (fieldName : Bytes) : Bytes :=
  match r.multipartHeaders with
  | [] => []
  | (_, val) :: _ =>
    match findSub val fieldName with
    | none => []
    | some pos =>
      let start := match findChar val QUOTE pos with
        | some i => i + 1
        | none => 0
      match rfindChar val QUOTE with
      | none => []
      | some stop => if stop < start then [] else slice val start stop

/-- `save_multipart_key_value`. -/
def saveMultipartKeyValue (r : Request) (key value : Bytes) : Request :=
  if key = [] then r else { r with multipartFormMap := OrderedMap.emplace r.multipartFormMap key value }

/-- `update_multipart_value`: without a key the last one is meant; a key that was never saved is ignored. -/
def updateMultipartValue (r : Request) (key data : Bytes) : Request :=
  let r := if key = [] then r else { r with lastMultpartKey := key }
  let key := if key = [] then r.lastMultpartKey else key
  match OrderedMap.find r.multipartFormMap key with
  | some v => { r with multipartFormMap := OrderedMap.insertOrAssign r.multipartFormMap key (v ++ data) }
  | none => r

/-- `handle_multipart_key_value`: the text fields become form values. -/
def handleMultipartKeyValue (r : Request) : Request :=
  { r with formUrlMap := r.multipartFormMap.foldl (fun m e => OrderedMap.emplace m e.1 e.2) r.formUrlMap }

/-- `is_multipart_file`. -/
def isMultipartFile (r : Request) : Bool :=
  if r.multipartHeaders = [] then false
  else
    match OrderedMap.find r.multipartHeaders (bytes "Content-Disposition") with
    | some v => contains v (bytes "filename")
    | none => (OrderedMap.find r.multipartHeaders (bytes "Content-Type")).isSome

/-- `set_multipart_headers`: the headers of a part are added to those that are there. -/
def setMultipartHeaders (r : Request) (headers : Multipart.Headers) : Request :=
  { r with multipartHeaders := headers.foldl (fun m e => OrderedMap.insertOrAssign m e.1 e.2) r.multipartHeaders }

/-- `set_part_data`. -/
def setPartData (r : Request) (data : Bytes) : Request := { r with partData := data }

/-- `get_part_data`: with `has_gzip_` it is `gzip_str_`, which is always empty in this build. -/
def getPartData (r : Request) : Bytes := if r.hasGzip then [] else r.partData

/-! ## Upload files -/

/-- `write_upload_data`. The caller has checked that there is a file. -/
def writeUploadData (r : Request) (data : Bytes) : Request :=
  match r.files.reverse with
  | [] => r
  | f :: fs => { r with files := (f.write data :: fs).reverse }

/-- `close_upload_file`. -/
def closeUploadFile (r : Request) : Request :=
  match r.files.reverse with
  | [] => r
  | f :: fs => { r with files := ({ f with isOpen := false } :: fs).reverse }

/-! ## The buffer -/

/-- `copy_method_url_headers`. -/
def copyMethodUrlHeaders (r : Request) : Request :=
  if r.method.len = 0 then r
  else
    let filename := r.getMultipartFieldName (bytes "filename")
    let copies := r.copyHeaders ++ (if filename = [] then [] else [(bytes "filename", filename)])
    let r' :=
      { r with
        methodStr := r.method.read r.buf
        urlStr := r.url.read r.buf
        method := { r.method with len := 0 }
        url := { r.url with len := 0 }
        multipartHeaders := []
        copyHeaders := copies }
    if r.headerLen < 0 then r'
    else { r' with copyHeaders := copies ++ r.headers.map fun h => (h.name.read r.buf, h.value.read r.buf) }

/-- `resize`: `std::vector::resize`, which fills with zeros. -/
def resize (r : Request) (size : Nat) : Request :=
  let r := r.copyMethodUrlHeaders
  { r with buf := r.buf.take size ++ List.replicate (size - r.buf.length) 0 }

/-- `fit_size` and `expand_size`: grow to `total`, up to `MaxSize`. -/
def growTo (r : Request) (total : Nat) : Request :=
  if r.buf.length = maxSize then r
  else if total < maxSize then if r.buf.length < total then r.resize total else r
  else r.resize maxSize

def fitSize (r : Request) : Request := r.growTo r.leftBodyLen

def expandSize (r : Request) : Request := r.growTo r.totalLen

/-- `set_current_size`. -/
def setCurrentSize (r : Request) (size : Nat) : Request :=
  let r := { r with curSize := size }
  if size = 0 then r.copyMethodUrlHeaders else r

/-- `reset`: members that it does not name keep their values. -/
def reset (r : Request) : Request :=
  { r with
    curSize := 0
    files := []
    isChunked := false
    state := .dataBegin
    partData := []
    queries := []
    cookieStr := []
    formUrlMap := []
    multipartFormMap := []
    copyHeaders := [] }

/-! ## Parsing -/

/-- `check_gzip`. -/
def checkGzip (r : Request) : Request :=
  { r with hasGzip := contains (r.getHeaderValue (bytes "content-encoding")) (bytes "gzip") }

/-- The part of `parse_header` that reads `Content-Length` and `Transfer-Encoding`. The text after a header value is a line
end, where `atoll` stops. -/
def readBodyLen (r : Request) : Request :=
  let value := r.getHeaderValue (bytes "content-length")
  if value = [] then
    { r with
      isChunked := r.isChunked || decide (r.getHeaderValue (bytes "transfer-encoding") = bytes "chunked")
      bodyLen := 0 }
  else r.setBodyLen (atoll value)

/-- The part of `parse_header` that keeps the cookies. -/
def readCookie (r : Request) : Request :=
  let cookie := r.getHeaderValue (bytes "cookie")
  if cookie = [] then r else { r with cookieStr := cookie }

/-- The part of `parse_header` that splits off the query; `none` when the URL has no slash. -/
def readUrl (r : Request) : Option Request :=
  let r := { r with rawUrl := r.url.read r.buf }
  if SLASH ∈ r.rawUrl then
    match r.rawUrl.idxOf? 63 with
    | some pos => some { r with queries := parseQuery (r.rawUrl.drop (pos + 1)), url := { r.url with len := pos } }
    | none => some r
  else none

/-- The tokens of a parse of the bytes received. -/
def parseTokens (r : Request) : Request :=
  let p := phrParseRequest r.received
  { r with
    copyHeaders := []
    headers := p.headers
    method := p.method
    url := p.path
    minorVersion := p.minorVersion
    headerLen := p.ret }

/-- `parse_header`: the answer is the length of the header, `-1` or `-2`. `checkHeaders` is the hook `check_headers_`. -/
def parseHeader (r : Request) (checkHeaders : Option (Request → Bool)) : Request × Int :=
  let r := r.parseTokens
  if r.maxHeaderLen < r.curSize then (r, -1)
  else if r.headerLen < 0 then (r, r.headerLen)
  else if (checkHeaders.map (· r)) = some false then (r, -1)
  else
    let r := r.checkGzip.readBodyLen.readCookie
    match r.readUrl with
    | some r => (r, r.headerLen)
    | none => ({ r with rawUrl := r.url.read r.buf }, -1)

/-- `parse_form_urlencoded`. -/
def parseFormUrlencoded (r : Request) : Request × Bool :=
  let m := parseQuery r.body
  ({ r with formUrlMap := m }, decide (m ≠ []))

end Request

end Netcore
