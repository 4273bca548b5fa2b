import Netcore.Websocket.Codec

/-!
# Masked frames on the wire

The frames that a client sends: every frame is masked, with a key that is not zero. The header members that `parse_header` leaves
are those of the frame once the header has arrived, and then the payload is the one that was sent.
-/

namespace Netcore

open Slices

/-! ## Headers and what follows them -/

namespace Websocket

variable {w w' : Websocket} {inp inp' : Bytes} {size size' len : Nat}

/-- The sizes that go with a length field. -/
theorem lengthField_sizes (w : Websocket) (inp : Bytes) {size : Nat} (field : Nat) (h6 : 6 ≤ size) :
    (w.lengthField inp size field).2.1 + 4 = (w.lengthField inp size field).2.2 ∧ 6 ≤ (w.lengthField inp size field).2.2 ∧
      ((w.lengthField inp size field).1.leftHeaderLen = 0 → (w.lengthField inp size field).2.2 ≤ size) := by
  unfold lengthField shortHeader mediumHeader longHeader
  split_ifs
  all_goals
    refine ⟨rfl, by dsimp only; omega, ?_⟩
    intro h
    dsimp only at *
    omega

/-- The sizes of a header that is complete. -/
theorem parseHeader_bounds (h : w.parseHeader inp size = (w', (len : Int))) : 6 ≤ size ∧ 2 ≤ len ∧ len ≤ size := by
  unfold parseHeader at h
  split at h
  · injection h with h1 h2
    omega
  · rename_i hsize
    have h6 : 6 ≤ size := Nat.not_lt.mp hsize
    dsimp only at h
    generalize hw : { w with msgOpcode := _, msgFin := _ } = w₁ at h
    obtain ⟨h1, h2, h3⟩ := w₁.lengthField_sizes inp ((inp.getD 1 0).toNat % 128) h6
    generalize w₁.lengthField inp size ((inp.getD 1 0).toNat % 128) = r at h h1 h2 h3
    obtain ⟨w₂, pos, n⟩ := r
    dsimp only at h h1 h2 h3
    split_ifs at h with hm hl hl
    all_goals
      simp only [Prod.mk.injEq] at h
      omega

/-- The key of the handshake stays. -/
theorem parseHeader_secWsKey {ret : Int} (h : w.parseHeader inp size = (w', ret)) : w'.secWsKey = w.secWsKey := by
  obtain rfl : (w.parseHeader inp size).1 = w' := by rw [h]
  unfold parseHeader lengthField
  split
  · rfl
  · dsimp only
    split_ifs <;> rfl

section Extend

variable (hp : inp'.take size = inp.take size)
include hp

theorem getD_extend {i : Nat} (hi : i < size) : inp'.getD i 0 = inp.getD i 0 := by
  rw [List.getD_eq_getElem?_getD, List.getD_eq_getElem?_getD, ← List.getElem?_take_of_lt hi, hp, List.getElem?_take_of_lt hi]

theorem slice_extend {s e : Nat} (he : e ≤ size) : slice inp' s e = slice inp s e := by
  have htake : ∀ xs : Bytes, slice xs s e = ((xs.take size).take e).drop s := by
    intro xs
    rw [List.take_take, Nat.min_eq_left he, slice, List.drop_take]
  rw [htake, htake, hp]

/-- A length field that has been received. -/
theorem lengthField_extend {field : Nat} (hs : size ≤ size') (hl : (w.lengthField inp size field).1.leftHeaderLen = 0) :
    w.lengthField inp' size' field = w.lengthField inp size field := by
  unfold lengthField mediumHeader longHeader at *
  split_ifs at hl ⊢ with h1 h2
  · rfl
  · dsimp only at hl
    rw [slice_extend hp (by omega), hl, show 8 - size' = 0 by omega]
  · dsimp only at hl
    rw [slice_extend hp (by omega), hl, show 14 - size' = 0 by omega]

/-- A complete header is the same when more has been received. -/
theorem parseHeader_extend (h : w.parseHeader inp size = (w', (len : Int))) (hs : size ≤ size') :
    w.parseHeader inp' size' = (w', (len : Int)) := by
  obtain ⟨h6, -, -⟩ := parseHeader_bounds h
  unfold parseHeader at h ⊢
  rw [if_neg (by unfold shortHeader; omega)] at h ⊢
  rw [getD_extend hp (show 0 < size by omega), getD_extend hp (show 1 < size by omega)]
  dsimp only at h ⊢
  generalize hw : { w with msgOpcode := _, msgFin := _ } = w₁ at h ⊢
  obtain ⟨h1, h2, h3⟩ := w₁.lengthField_sizes inp ((inp.getD 1 0).toNat % 128) h6
  have hleft : (w₁.lengthField inp size ((inp.getD 1 0).toNat % 128)).1.leftHeaderLen = 0 := by
    by_contra hne
    rw [if_neg hne, if_neg hne] at h
    split_ifs at h
    all_goals
      simp only [Prod.mk.injEq] at h
      obtain ⟨-, hb⟩ := h
      omega
  have hmask : ∀ pos, pos + 4 ≤ size →
      (List.range 4).map (fun i => inp'.getD (pos + i) 0) = (List.range 4).map (fun i => inp.getD (pos + i) 0) := by
    intro pos hpos
    apply List.map_congr_left
    intro i hi
    have := List.mem_range.mp hi
    exact getD_extend hp (by omega)
  rw [lengthField_extend hp hs hleft, hmask _ (h1.le.trans (h3 hleft))]
  exact h

end Extend

end Websocket

/-! ## Frames -/

/-- A masked frame with a key that is not zero. -/
structure WsFrame where
  fin : Bool
  opcode : Nat
  form : LengthForm
  key : Bytes
  payload : Bytes
  opcode_lt : opcode < 16
  key_length : key.length = 4
  key_ne : key ≠ [0, 0, 0, 0]
  payload_lt : payload.length < form.limit

namespace WsFrame

def header (f : WsFrame) : Bytes :=
  UInt8.ofNat ((if f.fin then 128 else 0) + f.opcode) :: UInt8.ofNat (128 + f.form.field f.payload.length) ::
    (toBigEndian f.form.width f.payload.length ++ f.key)

/-- The frame as it is sent. -/
def wire (f : WsFrame) : Bytes := f.header ++ maskBytes f.key f.payload

/-- A masked frame as a frame. -/
def toFrame (f : WsFrame) : Frame where
  fin := f.fin
  opcode := f.opcode
  form := f.form
  length := f.payload.length
  key := some f.key
  opcode_lt := f.opcode_lt
  length_lt := f.payload_lt
  key_length := by simpa using f.key_length
  payload := f.payload
  length_eq := rfl

theorem header_eq (f : WsFrame) : f.header = f.toFrame.write := rfl

theorem length_header (f : WsFrame) : f.header.length = 6 + f.form.width := by
  rw [header_eq, FrameHeader.length_write, show f.toFrame.form = f.form from rfl, show f.toFrame.key.isSome = true from rfl,
    if_pos rfl]
  omega

theorem length_wire (f : WsFrame) : f.wire.length = f.header.length + f.payload.length := by
  rw [wire, List.length_append, length_maskBytes]

/-- The members of `websocket` after the header of a frame. -/
def members (f : WsFrame) (w : Websocket) : Websocket :=
  { w with
    payloadLength := f.payload.length
    leftHeaderLen := 0
    mask := f.key
    msgOpcode := f.opcode
    msgFin := f.fin }

/-- The header of a frame that has arrived. -/
theorem parseHeader_eq (f : WsFrame) (w : Websocket) (t : Bytes) {size : Nat} (hs : f.header.length ≤ size) :
    w.parseHeader (f.header ++ t) size = (f.members w, (f.header.length : Int)) := by
  refine f.toFrame.parseHeader_write w t ?_
  rw [LengthForm.minSize_eq]
  exact f.length_header ▸ hs

/-- The header of a frame of which only `size` bytes have arrived. -/
theorem parseHeader_part (f : WsFrame) (w : Websocket) {inp : Bytes} {size : Nat} (hs : size < f.header.length)
    (hp : inp.take size = f.wire.take size) : ∃ w', w.parseHeader inp size = (w', -2) := by
  refine ⟨(w.parseHeader inp size).1, Prod.ext rfl ?_⟩
  refine f.toFrame.parseHeader_part w ?_ fun hone => ?_
  · rw [LengthForm.minSize_eq]
    exact f.length_header ▸ hs
  · have hsnd : inp[1]? = f.wire[1]? := by rw [← List.getElem?_take_of_lt hone, hp, List.getElem?_take_of_lt hone]
    rw [List.getD_eq_getElem?_getD, hsnd]
    rfl

/-- The type that `parse_payload` gives a frame. -/
def type (f : WsFrame) : WsFrameType := ({ msgOpcode := f.opcode, msgFin := f.fin } : Websocket).frameType

/-- The payload of a frame that has arrived. -/
theorem parsePayload_eq (f : WsFrame) (w : Websocket) (t : Bytes) {size : Nat} (hs : f.payload.length ≤ size) :
    (f.members w).parsePayload (maskBytes f.key f.payload ++ t) size = (f.type, f.payload) := by
  unfold Websocket.parsePayload members
  dsimp only
  rw [if_neg (by omega), if_pos f.key_ne, List.take_left' (length_maskBytes _ _), maskBytes_maskBytes]
  rfl

/-- The payload of a frame of which bytes are missing. -/
theorem parsePayload_part (f : WsFrame) (w : Websocket) (inp : Bytes) {size : Nat} (hs : size < f.payload.length) :
    (f.members w).parsePayload inp size = (.incompleteFrame, []) := by
  unfold Websocket.parsePayload members
  rw [if_pos hs]

end WsFrame

end Netcore
