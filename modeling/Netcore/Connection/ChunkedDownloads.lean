import Netcore.Http.Decimal
import Netcore.Lib.ChunkedCoding
import Netcore.Lib.Delimiter
import Netcore.Lib.Loops
import Netcore.Server.Downloads

/-!
# Downloads in the configuration `CHUNKED`

With `transfer_type_` set to `CHUNKED`, `process_download` answers a request for a large file with a header first, and then, each
time it is called again, with a block of the file as a chunk. `chunked_download` says that these chunks are the rest of the file.

A `Range` header moves the beginning of what is sent. The number after the first `=` is taken for the position whatever form the
range has, and nothing compares it with the size of the file: `range_iff` says which ranges come out right.
-/

namespace Netcore

open Slices Loops ChunkedCoding

/-! ## The model -/

/-- `to_hex_string`. -/
def toHexString (value : Nat) : Bytes := (Nat.toDigits 16 value).map fun c => UInt8.ofNat c.toNat

/-- `to_chunked_buffers`. -/
def Response.toChunkedBuffers (chunkData : Bytes) (eof : Bool) : Bytes :=
  (if 0 < chunkData.length then toHexString chunkData.length ++ CRLF ++ chunkData ++ CRLF else []) ++
    if eof then bytes "0\r\n" ++ CRLF else []

def httpChunkHeader : Bytes := bytes "HTTP/1.1 200 OK\r\nTransfer-Encoding: chunked\r\n"

def httpRangeChunkHeader : Bytes := bytes "HTTP/1.1 206 Partial Content\r\nTransfer-Encoding: chunked\r\n"

namespace Connection

/-- `connection::write_chunked_header`: `mime` is the value of `Content-Type` and the header lines after it. -/
def writeChunkedHeader (c : Connection) (mime : Bytes) (isRange : Bool) : Connection :=
  { c with
    req := { c.req with httpType := .chunked, state := .dataContinue }
    res := c.res.setResponse
      ((if isRange then httpRangeChunkHeader else httpChunkHeader) ++ bytes "Content-Type: " ++ mime ++ bytes "\r\n\r\n")
    continueWork := some .continueWriteThenRoute }

/-- `write_chunked_data`. -/
def writeChunkedData (c : Connection) (buf : Bytes) (eof : Bool) : Connection :=
  { c with
    res := c.res.setResponse (Response.toChunkedBuffers buf eof)
    req := { c.req with state := if eof then .dataEnd else .dataContinue } }

end Connection

/-- `seekg`. A position before the beginning makes the stream fail: it gives nothing from then on, as at its end. -/
def FileTag.seekg (f : FileTag) (pos : Int) : FileTag := { f with pos := if pos < 0 then f.content.length else pos.toNat }

namespace HsUtils

/-- `get_send_data`. -/
def getSendData (f : FileTag) (len : Nat) : Bytes × FileTag :=
  let str := (f.content.drop f.pos).take len
  (str, { f with pos := f.pos + str.length })

/-- `set_range_start_pos`: `atoll` reads on after the end of the text between the first `=` and the last `-`. (Behind the value there
is a line end or a NUL, where a number ends.) -/
def rangeStartPos (rangeHeader : Bytes) : Int :=
  atoll (match rangeHeader.idxOf? 61 with
    | some pos => rangeHeader.drop (pos + 1)
    | none => rangeHeader)

/-- The header line `Content-Range`, with the line end before it. -/
def contentRange (first last size : Int) : Bytes :=
  bytes "\r\nContent-Range: bytes " ++ (decimal first ++ HYPHEN :: (decimal last ++ SLASH :: decimal size))

/-- The type and the lines after it. (`staticResCacheMaxAge` is 0, so that there is no `Cache-Control`.) -/
def contentHeader (mime : Bytes) : Bytes :=
  mime ++ bytes "; charset=utf8" ++ bytes "\r\nAccess-Control-Allow-origin: *" ++ bytes "\r\nAccept-Ranges: bytes"

/-- `write_chunked_header`, for a file of `fileSize` bytes. -/
def writeChunkedHeader (c : Connection) (fileSize : Nat) (mime : Bytes) : Connection :=
  let rangeHeader := c.req.getHeaderValue (bytes "range")
  if rangeHeader ≠ [] then
    let filePos := rangeStartPos rangeHeader
    { c with fileTag := c.fileTag.map fun f : FileTag => f.seekg filePos }.writeChunkedHeader
      (contentHeader mime ++ contentRange filePos (fileSize - 1) fileSize) true
  else c.writeChunkedHeader (contentHeader mime) false

/-- The size of a block. -/
def blockSize : Nat := 3 * 1024 * 1024

/-- `write_chunked_body`. -/
def writeChunkedBody (c : Connection) : Connection :=
  match c.fileTag with
  | none => c
  | some f =>
    let r := getSendData f blockSize
    { c with fileTag := some r.2 }.writeChunkedData r.1 (decide (r.1.length = 0 ∨ r.1.length ≠ blockSize))

/-- `process_download`, in the configuration `CHUNKED`. What does not depend on the configuration is as it is in the other one. -/
def processDownload (env : Env) (c : Connection) (path : Bytes) : Connection :=
  match c.req.state, env.files (Connection.cString path) with
  | .dataBegin, some content =>
    if content.length ≤ 5242880 then c.processDownload env path
    else
      let tag := FileTag.mk content (Connection.startPos c.req content.length)
      writeChunkedHeader { c.log (.openFile (Connection.cString path)) with fileTag := some tag } content.length (env.mime path)
  | .dataContinue, _ => writeChunkedBody c
  | _, _ => c.processDownload env path

/-- A call of `process_download` in the loop that sends a file, with the response strings so far. The loop ends at `data_end`. -/
def downloadStep (env : Env) (path : Bytes) (s : Connection × Bytes) : (Connection × Bytes) ⊕ (Connection × Bytes) :=
  let c := processDownload env s.1 path
  let sent := s.2 ++ c.res.repStr
  if c.req.state = .dataEnd then .inr (c, sent) else .inl (c, sent)

/-! ## The chunks of a download -/

theorem toChunkedBuffers_block {data : Bytes} (h : data ≠ []) (eof : Bool) :
    Response.toChunkedBuffers data eof = chunk data ++ if eof then chunk [] else [] := by
  have hlast : bytes "0\r\n" ++ CRLF = chunk [] := by decide
  have hpos : 0 < data.length := List.length_pos_iff.mpr h
  have hchunk : toHexString data.length ++ CRLF ++ data ++ CRLF = chunk data := by
    simp [chunk, toHexString, sizeText, CRLF, CR, LF]
  rw [Response.toChunkedBuffers, if_pos hpos, hlast, hchunk]

theorem toChunkedBuffers_nil : Response.toChunkedBuffers [] true = chunk [] := by decide

section Body

variable (env : Env) (path : Bytes) {c : Connection} {f : FileTag}

theorem processDownload_continue (hstate : c.req.state = .dataContinue) (hfile : c.fileTag = some f) :
    processDownload env c path =
      { c with fileTag := some (getSendData f blockSize).2 }.writeChunkedData (getSendData f blockSize).1
        (decide ((getSendData f blockSize).1.length = 0 ∨ (getSendData f blockSize).1.length ≠ blockSize)) := by
  unfold processDownload writeChunkedBody
  rw [hstate, hfile]

/-- A full block becomes a chunk, and the loop goes on. -/
theorem downloadStep_full (hstate : c.req.state = .dataContinue) (hfile : c.fileTag = some f) (sent : Bytes)
    (hfull : ((f.content.drop f.pos).take blockSize).length = blockSize) :
    ∃ c', downloadStep env path (c, sent) = .inl (c', sent ++ chunk ((f.content.drop f.pos).take blockSize)) ∧
      c'.req.state = .dataContinue ∧ c'.fileTag = some { f with pos := f.pos + blockSize } := by
  have hcall := processDownload_continue env path hstate hfile
  have hne : (f.content.drop f.pos).take blockSize ≠ [] := by
    intro h
    rw [h] at hfull
    exact absurd hfull (by decide)
  have heof : decide ((getSendData f blockSize).1.length = 0 ∨ (getSendData f blockSize).1.length ≠ blockSize) = false := by
    rw [getSendData, decide_eq_false_iff_not, hfull]
    decide
  have hpos : (getSendData f blockSize).2 = { f with pos := f.pos + blockSize } := by simp only [getSendData, hfull]
  rw [heof] at hcall
  refine ⟨processDownload env c path, ?_, by rw [hcall]; rfl, by rw [hcall, hpos]; rfl⟩
  unfold downloadStep
  rw [hcall]
  simp only [Connection.writeChunkedData, Response.setResponse, getSendData, toChunkedBuffers_block hne]
  simp

/-- With a block that is not full the loop ends: there is a chunk, if there are data, and the last one. -/
theorem downloadStep_short (hstate : c.req.state = .dataContinue) (hfile : c.fileTag = some f) (sent : Bytes)
    (hshort : ((f.content.drop f.pos).take blockSize).length ≠ blockSize) :
    ∃ c' chunks, downloadStep env path (c, sent) = .inr (c', sent ++ (List.flatMap chunk chunks ++ chunk [])) ∧
      c'.req.state = .dataEnd ∧ chunks.flatten = f.content.drop f.pos ∧ ∀ data ∈ chunks, data ≠ [] := by
  have hcall := processDownload_continue env path hstate hfile
  have heof : decide ((getSendData f blockSize).1.length = 0 ∨ (getSendData f blockSize).1.length ≠ blockSize) = true :=
    decide_eq_true (.inr hshort)
  have hall : (f.content.drop f.pos).take blockSize = f.content.drop f.pos := by
    refine List.take_of_length_le (Nat.le_of_not_lt fun hlt => hshort ?_)
    rw [List.length_take, Nat.min_eq_left (Nat.le_of_lt hlt)]
  rw [heof] at hcall
  have hstep : downloadStep env path (c, sent) =
      .inr (processDownload env c path, sent ++ Response.toChunkedBuffers (f.content.drop f.pos) true) := by
    unfold downloadStep
    rw [hcall]
    simp only [Connection.writeChunkedData, Response.setResponse, getSendData, hall, if_true]
  have hend : (processDownload env c path).req.state = .dataEnd := by
    rw [hcall]
    rfl
  by_cases hnil : f.content.drop f.pos = []
  · refine ⟨_, [], ?_, hend, hnil.symm, fun _ h => absurd h (by simp)⟩
    rw [hstep, hnil, toChunkedBuffers_nil]
    rfl
  · refine ⟨_, [f.content.drop f.pos], ?_, hend, by simp, fun data h => by rwa [List.mem_singleton.mp h]⟩
    rw [hstep, toChunkedBuffers_block hnil, if_pos rfl, List.flatMap_cons, List.flatMap_nil, List.append_nil]

end Body

/-- The loop, with some response strings before it: the rest of the file in blocks, and a last chunk. -/
theorem body_ends (env : Env) (path : Bytes) (k : Nat) : ∀ {c : Connection} {f : FileTag} (sent : Bytes),
    c.req.state = .dataContinue → c.fileTag = some f → (f.content.drop f.pos).length ≤ k →
      ∃ n c' chunks, Ends (downloadStep env path) (c, sent) n (c', sent ++ (List.flatMap chunk chunks ++ chunk [])) ∧
        c'.req.state = .dataEnd ∧ chunks.flatten = f.content.drop f.pos ∧ ∀ data ∈ chunks, data ≠ [] := by
  induction k with
  | zero =>
    intro c f sent hstate hfile hk
    have hshort : ((f.content.drop f.pos).take blockSize).length ≠ blockSize := by
      rw [List.length_take, Nat.le_zero.mp hk]
      decide
    obtain ⟨c', chunks, hstep, hrest⟩ := downloadStep_short env path hstate hfile sent hshort
    exact ⟨0, c', chunks, .done hstep, hrest⟩
  | succ k ih =>
    intro c f sent hstate hfile hk
    by_cases hfull : ((f.content.drop f.pos).take blockSize).length = blockSize
    · obtain ⟨c₁, hstep, hstate₁, hfile₁⟩ := downloadStep_full env path hstate hfile sent hfull
      have hdrop : f.content.drop (f.pos + blockSize) = (f.content.drop f.pos).drop blockSize := by rw [List.drop_drop]
      have hlt : (f.content.drop (f.pos + blockSize)).length ≤ k := by
        have hblock : 0 < blockSize := by decide
        rw [List.length_take] at hfull
        rw [hdrop, List.length_drop]
        omega
      obtain ⟨n, c', chunks, hends, hend, hflat, hne⟩ :=
        ih (sent ++ chunk ((f.content.drop f.pos).take blockSize)) hstate₁ hfile₁ hlt
      refine ⟨n + 1, c', (f.content.drop f.pos).take blockSize :: chunks, ?_, hend, ?_, ?_⟩
      · rw [List.append_assoc, ← List.append_assoc (chunk _), ← List.flatMap_cons] at hends
        exact .next hstep hends
      · rw [List.flatten_cons, hflat, hdrop, List.take_append_drop]
      · intro data hdata
        rcases List.mem_cons.mp hdata with rfl | hdata
        · intro hnil
          rw [hnil] at hfull
          exact absurd hfull (by decide)
        · exact hne data hdata
    · obtain ⟨c', chunks, hstep, hrest⟩ := downloadStep_short env path hstate hfile sent hfull
      exact ⟨0, c', chunks, .done hstep, hrest⟩

/-- **A chunked download is lossless**: from `data_continue` on the loop ends at `data_end`, and what has been sent by then is a body
of chunks, none of them empty but the last, with the rest of the file for their data. -/
theorem chunked_download (env : Env) (path : Bytes) {c : Connection} {f : FileTag} (hstate : c.req.state = .dataContinue)
    (hfile : c.fileTag = some f) :
    ∃ n c' sent chunks, Ends (downloadStep env path) (c, []) n (c', sent) ∧ c'.req.state = .dataEnd ∧
      decode sent.length sent = some (chunks, []) ∧ chunks.flatten = f.content.drop f.pos ∧ ∀ data ∈ chunks, data ≠ [] := by
  obtain ⟨n, c', chunks, hends, hend, hflat, hne⟩ := body_ends env path _ [] hstate hfile (Nat.le_refl _)
  rw [List.nil_append] at hends
  exact ⟨n, c', _, chunks, hends, hend, decode_body hne, hflat, hne⟩

/-- The rest of a file behind its first byte. -/
theorem chunked_download_rest :
    ∃ n c' sent chunks, Ends (downloadStep (.bare []) [])
        ({ req := { buf := [], state := .dataContinue }, res := { resType := .none }, fileTag := some ⟨bytes "abc", 1⟩ }, []) n
        (c', sent) ∧ c'.req.state = .dataEnd ∧
      decode sent.length sent = some (chunks, []) ∧ chunks.flatten = (bytes "abc").drop 1 ∧ ∀ data ∈ chunks, data ≠ [] :=
  chunked_download (.bare []) [] (f := ⟨bytes "abc", 1⟩) rfl rfl

/-! ## Ranges -/

/-- A number in a header: a digit or more. -/
structure Digits where
  text : Bytes
  ne_nil : text ≠ []
  digits : ∀ d ∈ text, isDigit d = true

namespace Digits

def value (a : Digits) : Nat := digitsValue 0 a.text

/-- `atoll` stops at the hyphen after a number. -/
theorem atoll_text_hyphen (a : Digits) (rest : Bytes) :
    atoll (a.text ++ HYPHEN :: rest) = min 9223372036854775807 (a.value : Int) := by
  obtain ⟨d, ds, hds⟩ := List.exists_cons_of_ne_nil a.ne_nil
  have hd : isDigit d = true := a.digits d (by rw [hds]; exact List.mem_cons_self ..)
  have hvalue : digitsValue 0 (a.text ++ HYPHEN :: rest) = a.value := digitsValue_append a.digits (by decide) rest 0
  rw [hds, List.cons_append] at hvalue ⊢
  rw [atoll_digit hd, hvalue]

end Digits

/-- The ranges of one interval: from a position on, from a position to another, and the last bytes of the file. -/
inductive RangeForm where
  | start (a : Digits)
  | interval (a b : Digits)
  | suffix (n : Digits)

namespace RangeForm

/-- The value of the header. -/
def text : RangeForm → Bytes
  | start a => bytes "bytes=" ++ (a.text ++ [HYPHEN])
  | interval a b => bytes "bytes=" ++ (a.text ++ HYPHEN :: b.text)
  | suffix n => bytes "bytes=" ++ HYPHEN :: n.text

/-- The range begins within a file of this size; a suffix is taken for its beginning only when it is empty. -/
def Within (size : Nat) : RangeForm → Prop
  | start a | interval a _ => min 9223372036854775807 a.value < size
  | suffix n => n.value = 0

end RangeForm

/-- The position that a range is given. -/
theorem rangeStartPos_text (form : RangeForm) :
    rangeStartPos form.text =
      match form with
      | .start a | .interval a _ => min 9223372036854775807 (a.value : Int)
      | .suffix n => max (-9223372036854775808) (-(n.value : Int)) := by
  have hdrop : ∀ s : Bytes, rangeStartPos (bytes "bytes=" ++ s) = atoll s := by
    intro s
    have hword : bytes "bytes=" ++ s = bytes "bytes" ++ 61 :: s := by
      rw [List.append_cons, show bytes "bytes" ++ [61] = bytes "bytes=" by decide]
    have hlen : bytes "bytes" ++ 61 :: s = (bytes "bytes" ++ [61]) ++ s := List.append_cons ..
    rw [rangeStartPos, hword, idxOf?_append_cons (by decide)]
    simp only
    rw [hlen, show (bytes "bytes").length + 1 = (bytes "bytes" ++ [61]).length by decide, List.drop_left]
  cases form with
  | start a => rw [RangeForm.text, hdrop, a.atoll_text_hyphen]
  | interval a b => rw [RangeForm.text, hdrop, a.atoll_text_hyphen]
  | suffix n =>
    rw [RangeForm.text, hdrop, atoll_hyphen]
    rfl

/-- The position lies within the file exactly when the range does. -/
theorem within_iff (form : RangeForm) {size : Nat} (hsize : 0 < size) :
    form.Within size ↔ ∃ pos : Nat, rangeStartPos form.text = pos ∧ pos < size := by
  rw [rangeStartPos_text]
  have hstart : ∀ a : Nat, min 9223372036854775807 a < size ↔ ∃ pos : Nat, min 9223372036854775807 (a : Int) = pos ∧ pos < size := by
    intro a
    refine ⟨fun h => ⟨_, ?_, h⟩, ?_⟩
    · omega
    · rintro ⟨pos, hpos, hlt⟩
      omega
  cases form with
  | start a => exact hstart a.value
  | interval a b => exact hstart a.value
  | suffix n =>
    simp only [RangeForm.Within]
    refine ⟨fun h => ⟨0, by omega, hsize⟩, ?_⟩
    rintro ⟨pos, hpos, -⟩
    omega

/-- The header of a range download. -/
def rangeHead (mime : Bytes) (first last size : Int) : Bytes :=
  httpRangeChunkHeader ++ bytes "Content-Type: " ++ (contentHeader mime ++ contentRange first last size) ++ bytes "\r\n\r\n"

/-- The header names one position where the range begins. -/
theorem rangeHead_inj {mime : Bytes} {a l s l' s' : Int} {b : Nat} (h : rangeHead mime a l s = rangeHead mime b l' s') : a = b := by
  have hrange : contentRange a l s = contentRange b l' s' :=
    List.append_cancel_left (List.append_cancel_left (List.append_cancel_right h))
  have hnumber := List.append_cancel_left hrange
  cases a with
  | ofNat n =>
    have hn : ∀ m : Nat, HYPHEN ∉ decimal m := fun m hm => absurd (isDigit_of_mem_decimal hm) (by decide)
    exact decimal_injective (Delimiter.append_cons_inj (hn n) (hn b) hnumber).1
  | negSucc n =>
    exfalso
    obtain ⟨d, ds, hds⟩ := List.exists_cons_of_ne_nil (decimal_ne_nil b)
    have hd : isDigit d = true := isDigit_of_mem_decimal (n := b) (by rw [hds]; exact List.mem_cons_self ..)
    rw [decimal_negSucc, hds] at hnumber
    rw [← (List.cons.inj hnumber).1] at hd
    exact absurd hd (by decide)

section Range

variable {env : Env} {path : Bytes} {c : Connection} {content : Bytes}

/-- A request with a range is refused, or answered with the range from a position within the file to another, and with the bytes of
the file that these positions enclose. -/
def RangeHonoured (env : Env) (path : Bytes) (c : Connection) (content : Bytes) : Prop :=
  (processDownload env c path).req.state ≠ .dataContinue ∨
    ∃ first last : Nat, first ≤ last ∧ last < content.length ∧
      (processDownload env c path).res.repStr = rangeHead (env.mime path) first last content.length ∧
      ∃ n c' sent chunks, Ends (downloadStep env path) (processDownload env c path, []) n (c', sent) ∧
        decode sent.length sent = some (chunks, []) ∧ chunks.flatten = slice content first (last + 1)

/-- The answer to a request with a range: the header, with the position from the request and the end of the file, and the stream at
this position, if there is one. -/
theorem processDownload_range (hstate : c.req.state = .dataBegin) (hfile : env.files (Connection.cString path) = some content)
    (hlarge : 5242880 < content.length) {r : Bytes} (hr : r ≠ []) (hrange : c.req.getHeaderValue (bytes "range") = r) :
    (processDownload env c path).req.state = .dataContinue ∧
      (processDownload env c path).res.repStr = rangeHead (env.mime path) (rangeStartPos r) (content.length - 1) content.length ∧
      ∀ pos : Nat, rangeStartPos r = pos → (processDownload env c path).fileTag = some ⟨content, pos⟩ := by
  have hcall : processDownload env c path = writeChunkedHeader
      { c.log (.openFile (Connection.cString path)) with fileTag := some ⟨content, Connection.startPos c.req content.length⟩ }
        content.length (env.mime path) := by
    unfold processDownload
    rw [hstate, hfile]
    simp only [Nat.not_le.mpr hlarge, if_false]
  have hrange' : (c.log (.openFile (Connection.cString path))).req.getHeaderValue (bytes "range") = r := hrange
  rw [hcall]
  unfold writeChunkedHeader
  simp only [hrange', hr, ne_eq, not_false_eq_true, if_true]
  refine ⟨rfl, rfl, fun pos hpos => ?_⟩
  rw [hpos]
  have hneg : ¬(pos : Int) < 0 := by omega
  simp only [Connection.writeChunkedHeader, Option.map_some, FileTag.seekg, hneg, if_false, Int.toNat_natCast]

theorem RangeForm.text_ne_nil (form : RangeForm) : form.text ≠ [] := by
  have hword : bytes "bytes=" ≠ [] := by decide
  cases form <;> simp [RangeForm.text, hword]

/-- **Range requests** for a large file are honoured exactly when the number that stands for the beginning lies within the file. -/
theorem range_iff (hstate : c.req.state = .dataBegin) (hfile : env.files (Connection.cString path) = some content)
    (hlarge : 5242880 < content.length) {form : RangeForm} (hrange : c.req.getHeaderValue (bytes "range") = form.text) :
    RangeHonoured env path c content ↔ form.Within content.length := by
  obtain ⟨hcontinue, hhead, htag⟩ := processDownload_range hstate hfile hlarge form.text_ne_nil hrange
  have hpos : 0 < content.length := by omega
  rw [within_iff form hpos]
  constructor
  · rintro (h | ⟨first, last, hle, hlast, hrep, -⟩)
    · exact absurd hcontinue h
    · exact ⟨first, rangeHead_inj (hhead.symm.trans hrep), by omega⟩
  · rintro ⟨pos, hstart, hlt⟩
    obtain ⟨n, c', chunks, hends, -, hflat, hne⟩ := body_ends env path _ [] hcontinue (htag pos hstart) (Nat.le_refl _)
    rw [List.nil_append] at hends
    have hlast : ((content.length - 1 : Nat) : Int) = (content.length : Int) - 1 := by omega
    refine .inr ⟨pos, content.length - 1, by omega, by omega, ?_, n, c', _, chunks, hends, decode_body hne, ?_⟩
    · rw [hhead, hstart, hlast]
    · rw [hflat, slice_of_length_le _ (by omega)]

end Range

/-- A file just too large to be sent at once. -/
def largeFile : Bytes := List.replicate 5242881 97

theorem length_largeFile : 5242880 < largeFile.length := by
  rw [largeFile, List.length_replicate]
  decide

theorem files_largeFile : (Server.oneFile (bytes "a") largeFile).files (Connection.cString (bytes "a")) = some largeFile := by
  have hpath : Connection.cString (bytes "a") = bytes "a" := by decide
  rw [hpath, Server.oneFile_files]

/-- A connection with a request for a range. -/
def withRange (form : RangeForm) : Connection :=
  { req := { buf := [], copyHeaders := [(bytes "Range", form.text)] }, res := { resType := .none } }

theorem withRange_header (form : RangeForm) : (withRange form).req.getHeaderValue (bytes "range") = form.text := by
  have hname : iequal (bytes "Range") ((bytes "range").takeWhile (· ≠ 0)) = true := by decide
  rw [Request.getHeaderValue, withRange, if_neg (by simp), List.find?_cons, hname]

def five : Digits := ⟨bytes "5", by decide, List.all_eq_true.mp (by decide)⟩

theorem range_iff_from_five : RangeHonoured (Server.oneFile (bytes "a") largeFile) (bytes "a") (withRange (.start five)) largeFile ↔
    (RangeForm.start five).Within largeFile.length :=
  range_iff rfl files_largeFile length_largeFile (withRange_header _)

/-- The last five bytes of a file are not what a request for them is answered with. -/
theorem not_range_honoured : ¬∀ (env : Env) (path : Bytes) (c : Connection) (content : Bytes) (form : RangeForm),
    c.req.state = .dataBegin → env.files (Connection.cString path) = some content → 5242880 < content.length →
      c.req.getHeaderValue (bytes "range") = form.text → RangeHonoured env path c content := by
  intro h
  have hhonoured := h (Server.oneFile (bytes "a") largeFile) (bytes "a") (withRange (.suffix five)) largeFile (.suffix five) rfl
    files_largeFile length_largeFile (withRange_header _)
  obtain ⟨hcontinue, hhead, -⟩ := processDownload_range rfl files_largeFile length_largeFile (RangeForm.text_ne_nil (.suffix five))
    (withRange_header (.suffix five))
  rcases hhonoured with hrefused | ⟨first, last, -, -, hrep, -⟩
  · exact hrefused hcontinue
  · have hstart := rangeHead_inj (hhead.symm.trans hrep)
    rw [rangeStartPos_text] at hstart
    have hfive : five.value = 5 := by decide
    simp only [hfive] at hstart
    omega

end HsUtils

end Netcore
