import Netcore.Connection.ChunkedDownloads
import Netcore.Http.ChunkedBodies

/-!
# Chunked downloads, decoded

The two ends of a download in the configuration `CHUNKED`: what `process_download` writes, given to `phr_decode_chunked` in whatever
pieces a connection delivers.
-/

namespace Netcore

open Loops ChunkedCoding

namespace HsUtils

/-- The header of a chunked download of a whole file. -/
def chunkedHead (mime : Bytes) : Bytes := httpChunkHeader ++ bytes "Content-Type: " ++ contentHeader mime ++ bytes "\r\n\r\n"

section

variable (env : Env) (path : Bytes) {c : Connection} {content : Bytes}

/-- The first call goes into the loop when it leaves more to be sent. -/
theorem downloadStep_begin (hcontinue : (processDownload env c path).req.state = .dataContinue) :
    downloadStep env path (c, []) = .inl (processDownload env c path, (processDownload env c path).res.repStr) := by
  unfold downloadStep
  simp only [hcontinue, reduceCtorEq, if_false, List.nil_append]

/-- The answer to a request without a range: the header, and the stream at the start position. -/
theorem processDownload_whole (hstate : c.req.state = .dataBegin) (hfile : env.files (Connection.cString path) = some content)
    (hlarge : 5242880 < content.length) (hrange : c.req.getHeaderValue (bytes "range") = []) :
    (processDownload env c path).req.state = .dataContinue ∧ (processDownload env c path).res.repStr = chunkedHead (env.mime path) ∧
      (processDownload env c path).fileTag = some ⟨content, Connection.startPos c.req content.length⟩ := by
  have hcall : processDownload env c path = writeChunkedHeader
      { c.log (.openFile (Connection.cString path)) with fileTag := some ⟨content, Connection.startPos c.req content.length⟩ }
        content.length (env.mime path) := by
    unfold processDownload
    rw [hstate, hfile]
    simp only [Nat.not_le.mpr hlarge, if_false]
  have hrange' : (c.log (.openFile (Connection.cString path))).req.getHeaderValue (bytes "range") = [] := hrange
  rw [hcall]
  unfold writeChunkedHeader
  simp only [hrange', ne_eq, not_true_eq_false, if_false]
  exact ⟨rfl, rfl, rfl⟩

/-- The calls of `process_download` from the first on end. They write a header and a body; when the body is decoded, in whatever pieces it
comes, the data are `data`, and what comes next is left, with the last line end before it if the trailers are not consumed. Where the
connection breaks off before the end, a decoder that consumes the trailers asks for more, and has the beginning of these data. -/
def DownloadsAs (c : Connection) (head data : Bytes) : Prop :=
  ∃ n c' body, Ends (downloadStep env path) (c, []) n (c', head ++ body) ∧ c'.req.state = .dataEnd ∧
    (∀ trailer ps next, ps.flatten = body ++ next → decodeAll { consumeTrailer := trailer } ps =
      some (data, .complete (if trailer then next else CRLF ++ next))) ∧
    ∀ ps missing, missing ≠ [] → ps.flatten ++ missing = body → ∃ part, decodeAll { consumeTrailer := true } ps =
      some (part, .incomplete) ∧ part <+: data

/-- A download from the stream that the first call leaves. -/
theorem downloadsAs_of_begin (hcontinue : (processDownload env c path).req.state = .dataContinue)
    {pos : Nat} (htag : (processDownload env c path).fileTag = some ⟨content, pos⟩) (hsize : content.length < 18446744073709551616) :
    DownloadsAs env path c (processDownload env c path).res.repStr (content.drop pos) := by
  have hstep := downloadStep_begin env path hcontinue
  obtain ⟨n, c', parts, hends, hend, hflat, hne⟩ :=
    body_ends env path _ (processDownload env c path).res.repStr hcontinue htag (Nat.le_refl _)
  have hparts : ∀ part ∈ parts, part ≠ [] ∧ part.length < 18446744073709551616 := by
    intro part hpart
    have hle : part.length ≤ parts.flatten.length := (List.sublist_flatten_of_mem hpart).length_le
    rw [hflat, List.length_drop] at hle
    exact ⟨hne part hpart, by simp only at hle; omega⟩
  have hcoded := coded_lastChunk.flatMap_chunk hparts
  have hline := coded_lastLine.flatMap_chunk hparts
  rw [List.append_nil, hflat] at hcoded hline
  refine ⟨n + 1, c', _, .next hstep hends, hend, fun trailer ps next hps => ?_, fun ps missing hmissing hps => hcoded.cut_off hmissing hps⟩
  cases trailer with
  | true => exact hcoded.decodes hps
  | false =>
    have hlast : chunk [] = sizeText 0 ++ [CR, LF] ++ CRLF := by decide
    refine hline.decodes (hps.trans ?_)
    rw [hlast]
    simp only [List.append_assoc, Bool.false_eq_true, if_false]

/-- **A chunked download arrives** for a large file. Without a range the data are the file from the start position on; with one, whose
number after the first equals sign is not negative, they are the file from that number on. -/
theorem download_decoded (hstate : c.req.state = .dataBegin) (hfile : env.files (Connection.cString path) = some content)
    (hlarge : 5242880 < content.length) (hsize : content.length < 18446744073709551616) :
    (c.req.getHeaderValue (bytes "range") = [] →
      DownloadsAs env path c (chunkedHead (env.mime path)) (content.drop (Connection.startPos c.req content.length))) ∧
    ∀ {r : Bytes} {pos : Nat}, c.req.getHeaderValue (bytes "range") = r → r ≠ [] → rangeStartPos r = pos →
      DownloadsAs env path c (rangeHead (env.mime path) pos (content.length - 1) content.length) (content.drop pos) := by
  refine ⟨fun hrange => ?_, fun hrange hr hpos => ?_⟩
  · obtain ⟨hcontinue, hhead, htag⟩ := processDownload_whole env path hstate hfile hlarge hrange
    exact hhead ▸ downloadsAs_of_begin env path hcontinue htag hsize
  · obtain ⟨hcontinue, hhead, htag⟩ := processDownload_range hstate hfile hlarge hr hrange
    rw [hpos] at hhead
    exact hhead ▸ downloadsAs_of_begin env path hcontinue (htag _ hpos) hsize

end

/-- A file just too large to be sent at once, from its sixth byte on. -/
theorem download_decoded_largeFile : DownloadsAs (Server.oneFile (bytes "a") largeFile) (bytes "a") (withRange (.start five))
    (rangeHead ((Server.oneFile (bytes "a") largeFile).mime (bytes "a")) (5 : Nat) (largeFile.length - 1) largeFile.length)
    (largeFile.drop 5) := by
  have hlength : largeFile.length = 5242881 := List.length_replicate ..
  have hpos : rangeStartPos (RangeForm.start five).text = (5 : Nat) := by
    rw [rangeStartPos_text]
    decide
  exact (download_decoded _ (bytes "a") rfl files_largeFile length_largeFile (by rw [hlength]; decide)).2 (withRange_header _)
    (RangeForm.text_ne_nil _) hpos

end HsUtils

end Netcore
