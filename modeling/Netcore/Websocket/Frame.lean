import Netcore.Http.Text

/-!
# `websocket`

The frame parser of `websocket.hpp`. `parse_header` is given the bytes from the start of a frame to the end of the request
buffer together with the number of them that have been received; it reads the length and the mask before it decides that
the header is incomplete, so the members it leaves may come from bytes that were not received. `mask_` is the four bytes of
the masking key in order.
-/

namespace Netcore

open Slices

/-- `ws_frame_type`, the values that `parse_payload` and `handle_ws_frame` use. -/
inductive WsFrameType where
  | errorFrame
  | incompleteFrame
  | openingFrame
  | incompleteTextFrame
  | incompleteBinaryFrame
  | textFrame
  | binaryFrame
  | closeFrame
  | pingFrame
  | pongFrame
  deriving DecidableEq, Repr

/-- `opcode`, as the number in the header. -/
abbrev Opcode := Nat

namespace Opcode

def cont : Opcode := 0
def text : Opcode := 1
def binary : Opcode := 2
def close : Opcode := 8
def ping : Opcode := 9
def pong : Opcode := 10

theorem text_lt : text < 16 := by decide

end Opcode

/-- The members of `websocket`. -/
structure Websocket where
  secWsKey : Bytes := []
  payloadLength : Nat := 0
  leftHeaderLen : Nat := 0
  mask : Bytes := [0, 0, 0, 0]
  msgOpcode : Nat := 0
  msgFin : Bool := false
  deriving DecidableEq, Repr

/-- `ws_head_len`: the header lengths, with the masking key. -/
def shortHeader : Nat := 6
def mediumHeader : Nat := 8
def longHeader : Nat := 14

/-- A number in network byte order. -/
def bigEndian (bs : Bytes) : Nat := bs.foldl (fun n b => n * 256 + b.toNat) 0

/-- Exclusive or of the data with the key, repeated. -/
def maskBytes (key : Bytes) (data : Bytes) : Bytes := data.mapIdx fun i b => b ^^^ key.getD (i % 4) 0

namespace Websocket

/-- The members set from the length field, and the length of the header, for `size` bytes received. -/
def lengthField (w : Websocket) (inp : Bytes) (size field : Nat) : Websocket × Nat × Nat :=
  if field ≤ 125 then ({ w with payloadLength := field, leftHeaderLen := 0 }, 2, shortHeader)
  else if field = 126 then
    ({ w with payloadLength := bigEndian (slice inp 2 4), leftHeaderLen := mediumHeader - size }, 4, mediumHeader)
  else ({ w with payloadLength := bigEndian (slice inp 2 10), leftHeaderLen := longHeader - size }, 10, longHeader)

/-- `parse_header`: the length of the header or `-2`. -/
def parseHeader (w : Websocket) (inp : Bytes) (size : Nat) : Websocket × Int :=
  if size < shortHeader then (w, -2)
  else
    let b0 := (inp.getD 0 0).toNat
    let b1 := (inp.getD 1 0).toNat
    let w := { w with msgOpcode := b0 % 16, msgFin := decide (128 ≤ b0) }
    let (w, pos, headerLen) := w.lengthField inp size (b1 % 128)
    if 128 ≤ b1 then
      let w := { w with mask := (List.range 4).map fun i => inp.getD (pos + i) 0 }
      (w, if w.leftHeaderLen = 0 then headerLen else -2)
    else (w, if w.leftHeaderLen = 0 then (headerLen : Int) - 4 else -2)

/-- The header that `parse_header` finds has a length, or is incomplete. -/
theorem parseHeader_ret (w : Websocket) (inp : Bytes) (size : Nat) :
    (w.parseHeader inp size).2 = -2 ∨ ∃ len : Nat, (w.parseHeader inp size).2 = len := by
  unfold parseHeader
  split
  · exact .inl rfl
  · dsimp only
    unfold lengthField shortHeader mediumHeader longHeader
    split_ifs
    all_goals first | exact .inl rfl | exact .inr ⟨_, rfl⟩

/-- The frame type that `parse_payload` derives from the opcode and the FIN bit. -/
def frameType (w : Websocket) : WsFrameType :=
  if w.msgOpcode = 0 ∨ w.msgOpcode = 1 then if w.msgFin then .textFrame else .incompleteTextFrame
  else if w.msgOpcode = 2 then if w.msgFin then .binaryFrame else .incompleteBinaryFrame
  else if w.msgOpcode = 8 then .closeFrame
  else if w.msgOpcode = 9 then .pingFrame
  else if w.msgOpcode = 10 then .pongFrame
  else .binaryFrame

/-- `parse_payload` with an empty `outbuf`: the payload is unmasked when the key is not zero; otherwise nothing is copied and
the resized `outbuf` holds zeros. -/
def parsePayload (w : Websocket) (inp : Bytes) (size : Nat) : WsFrameType × Bytes :=
  if size < w.payloadLength then (.incompleteFrame, [])
  else if w.mask ≠ [0, 0, 0, 0] then (w.frameType, maskBytes w.mask (inp.take w.payloadLength))
  else (w.frameType, List.replicate w.payloadLength 0)

end Websocket

/-! ## Writing frames -/

/-- The low `n` bytes of a number, in network byte order. -/
def toBigEndian : Nat → Nat → Bytes
  | 0, _ => []
  | n + 1, x => UInt8.ofNat (x / 256 ^ n % 256) :: toBigEndian n x

/-- `format_header`: the header of an unmasked frame with FIN. -/
def formatHeader (length : Nat) (code : Opcode) : Bytes :=
  UInt8.ofNat (128 + code) ::
    if length < 126 then [UInt8.ofNat length]
    else if length ≤ 65535 then 126 :: toBigEndian 2 length
    else 127 :: toBigEndian 8 length

/-- `format_close_payload`. -/
def formatClosePayload (code : Nat) (message : Bytes) : Bytes := if code = 0 then [] else toBigEndian 2 code ++ message

/-! ## Close frames -/

/-- `is_valid_utf8`. -/
def isValidUtf8 : Bytes → Bool
  | [] => true
  | a :: s =>
    if a < 0x80 then isValidUtf8 s
    else if a &&& 0x60 = 0x40 then
      match s with
      | b :: s => if b &&& 0xc0 ≠ 0x80 ∨ a &&& 0xfe = 0xc0 then false else isValidUtf8 s
      | [] => false
    else if a &&& 0xf0 = 0xe0 then
      match s with
      | b :: c :: s =>
        if b &&& 0xc0 ≠ 0x80 ∨ c &&& 0xc0 ≠ 0x80 ∨ (a = 0xe0 ∧ b &&& 0xe0 = 0x80) ∨ (a = 0xed ∧ b &&& 0xe0 = 0xa0) then false
        else isValidUtf8 s
      | _ => false
    else if a &&& 0xf8 = 0xf0 then
      match s with
      | b :: c :: d :: s =>
        if b &&& 0xc0 ≠ 0x80 ∨ c &&& 0xc0 ≠ 0x80 ∨ d &&& 0xc0 ≠ 0x80 ∨ (a = 0xf0 ∧ b &&& 0xf0 = 0x80) ∨
          (a = 0xf4 ∧ 0x8f < b) ∨ 0xf4 < a then false
        else isValidUtf8 s
      | _ => false
    else false

/-- `parse_close_payload`: the code of an accepted payload; its message begins at the third byte. For a payload that is too
short or not accepted the frame is empty and its message a null pointer. -/
def parseClosePayload (payload : Bytes) : Option Nat :=
  if payload.length < 2 then none
  else
    let code := bigEndian (payload.take 2)
    if code < 1000 ∨ 4999 < code ∨ (1011 < code ∧ code < 4000) ∨ (1004 ≤ code ∧ code ≤ 1006) ∨
      isValidUtf8 (payload.drop 2) = false then none
    else some code

end Netcore
