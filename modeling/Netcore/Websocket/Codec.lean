import Mathlib.Tactic.Ring
import Netcore.Websocket.Frame

/-!
# Frames on the wire

A frame as the protocol defines it: a length written in one of three forms, a key or none, and the payload. `parse_header` asks for
the bytes of a masked header, also where there is no key (`minSize`); from then on the header members that it leaves are those of
the frame, whatever follows it, and before that the header is incomplete (`parseHeader_write`, `parseHeader_part`). A form that is
longer than need be is a form too.

`encode_header` takes the shortest form, and what it writes is read back, with and without a key (`formatHeader_readBack`).
-/

namespace Netcore

open Slices

/-! ## Numbers and masks -/

/-- The bytes of `x`, read high byte first behind `a`. -/
theorem foldl_toBigEndian (n x a : Nat) :
    (toBigEndian n x).foldl (fun n b => n * 256 + b.toNat) a = a * 256 ^ n + x % 256 ^ n := by
  induction n generalizing a with
  | zero => simp [toBigEndian, Nat.mod_one]
  | succ n ih =>
    have hb : (UInt8.ofNat (x / 256 ^ n % 256)).toNat = x / 256 ^ n % 256 :=
      UInt8.toNat_ofNat_of_lt' (Nat.mod_lt _ (by decide))
    have hx : x % 256 ^ (n + 1) = x % 256 ^ n + 256 ^ n * (x / 256 ^ n % 256) := Nat.mod_pow_succ
    rw [toBigEndian, List.foldl_cons, ih, hb, hx, Nat.pow_succ]
    ring

/-- A number that is read back from `n` bytes is taken modulo `256 ^ n`. -/
theorem bigEndian_toBigEndian_mod (n x : Nat) : bigEndian (toBigEndian n x) = x % 256 ^ n := by
  rw [bigEndian, foldl_toBigEndian]
  omega

/-- A number that fits its bytes is read back from them. -/
theorem bigEndian_toBigEndian {n x : Nat} (h : x < 256 ^ n) : bigEndian (toBigEndian n x) = x := by
  rw [bigEndian_toBigEndian_mod, Nat.mod_eq_of_lt h]

/-- A number is written in as many bytes as it is given. -/
theorem length_toBigEndian (n x : Nat) : (toBigEndian n x).length = n := by
  induction n with
  | zero => rfl
  | succ n ih => rw [toBigEndian, List.length_cons, ih]

/-- Masking keeps the length. -/
theorem length_maskBytes (key data : Bytes) : (maskBytes key data).length = data.length := List.length_mapIdx

/-- Masking twice with a key gives the data back. -/
theorem maskBytes_maskBytes (key data : Bytes) : maskBytes key (maskBytes key data) = data := by
  unfold maskBytes
  apply List.ext_getElem?
  intro i
  rw [List.getElem?_mapIdx, List.getElem?_mapIdx]
  cases data[i]? with
  | none => rfl
  | some b =>
    simp only [Option.map_some]
    rw [UInt8.xor_assoc, UInt8.xor_self, UInt8.xor_zero]

/-! ## Headers -/

/-- The three forms of the length field. -/
inductive LengthForm where
  | short
  | medium
  | long
  deriving DecidableEq, Repr

namespace LengthForm

/-- The bytes that follow the seven bits of the length field. -/
def width : LengthForm → Nat
  | short => 0
  | medium => 2
  | long => 8

/-- The lengths that can be written are below this one. -/
def limit : LengthForm → Nat
  | short => 126
  | medium => 256 ^ 2
  | long => 256 ^ 8

/-- The seven bits of the length field. -/
def field (form : LengthForm) (length : Nat) : Nat :=
  match form with
  | short => length
  | medium => 126
  | long => 127

/-- The bytes that `parse_header` wants to see. -/
def minSize : LengthForm → Nat
  | short => shortHeader
  | medium => mediumHeader
  | long => longHeader

/-- The `min_size` of `parse_data` is six bytes and the extended length. -/
theorem minSize_eq (form : LengthForm) : form.minSize = 6 + form.width := by cases form <;> rfl

/-- 126 stands for a length in two bytes. -/
theorem field_medium (length : Nat) : medium.field length = 126 := rfl

/-- 127 stands for a length in eight bytes. -/
theorem field_long (length : Nat) : long.field length = 127 := rfl

/-- The field of a length leaves the bit of the mask free. -/
theorem field_lt {form : LengthForm} {length : Nat} (h : length < form.limit) : form.field length < 128 := by
  cases form with
  | short => exact lt_trans h (by decide)
  | medium => exact (by decide : 126 < 128)
  | long => exact (by decide : 127 < 128)

/-- The form that `encode_header` takes for a length. -/
def shortest (length : Nat) : LengthForm := if length < 126 then short else if length ≤ 65535 then medium else long

/-- Every 64-bit length fits its shortest form. -/
theorem lt_limit_shortest {length : Nat} (h : length < 2 ^ 64) : length < (shortest length).limit := by
  unfold shortest
  split_ifs with h1 h2
  · exact h1
  · exact Nat.lt_succ_of_le h2
  · exact h

/-- So does the field of a length in its shortest form. -/
theorem field_shortest_lt (n : Nat) : (shortest n).field n < 128 := by
  unfold shortest
  split_ifs with h1 h2
  · exact lt_trans h1 (by decide)
  · exact (by decide : 126 < 128)
  · exact (by decide : 127 < 128)

/-- The seven bits of the length field tell the form. -/
theorem eq_shortest {form : LengthForm} {length n : Nat} (hl : length < form.limit)
    (h : form.field length = (shortest n).field n) : form = shortest n := by
  have hshort : shortest n = short → n < 126 := by
    unfold shortest
    split_ifs with h1 h2
    · exact fun _ => h1
    · exact fun h => by cases h
    · exact fun h => by cases h
  have hlt : form = short → length < 126 := by
    rintro rfl
    exact hl
  generalize shortest n = form' at h hshort
  cases form <;> cases form' <;> simp [field] at h hshort hlt ⊢ <;> omega

end LengthForm

/-- The bytes of a header. -/
def headerBytes (fin : Bool) (opcode : Nat) (form : LengthForm) (length : Nat) (key : Option Bytes) : Bytes :=
  UInt8.ofNat ((if fin then 128 else 0) + opcode) :: UInt8.ofNat ((if key.isSome then 128 else 0) + form.field length) ::
    (toBigEndian form.width length ++ key.getD [])

/-- The members and sizes that go with a length field, once the six bytes of a short header have arrived; the length is that of the
frame when its bytes have arrived too. -/
theorem Websocket.lengthField_field (w : Websocket) (inp : Bytes) {form : LengthForm} {length size : Nat}
    (hl : length < form.limit) (h6 : shortHeader ≤ size) : ∃ n, w.lengthField inp size (form.field length) =
      ({ w with payloadLength := n, leftHeaderLen := form.minSize - size }, 2 + form.width, form.minSize) ∧
    (slice inp 2 (2 + form.width) = toBigEndian form.width length → n = length) := by
  unfold Websocket.lengthField
  cases form with
  | short =>
    refine ⟨length, ?_, fun _ => rfl⟩
    rw [if_pos (show LengthForm.short.field length ≤ 125 from Nat.lt_succ_iff.mp hl)]
    rw [show LengthForm.short.minSize - size = 0 from Nat.sub_eq_zero_of_le h6]
    rfl
  | medium =>
    refine ⟨bigEndian (slice inp 2 4), ?_, fun hs => ?_⟩
    · rw [LengthForm.field_medium, if_neg (by decide), if_pos rfl]
      rfl
    · exact (congrArg bigEndian hs).trans (bigEndian_toBigEndian hl)
  | long =>
    refine ⟨bigEndian (slice inp 2 10), ?_, fun hs => ?_⟩
    · rw [LengthForm.field_long, if_neg (by decide), if_neg (by decide)]
      rfl
    · exact (congrArg bigEndian hs).trans (bigEndian_toBigEndian hl)

/-- The header of a frame. -/
structure FrameHeader where
  fin : Bool
  opcode : Nat
  form : LengthForm
  length : Nat
  key : Option Bytes
  opcode_lt : opcode < 16
  length_lt : length < form.limit
  key_length : ∀ k ∈ key, k.length = 4

namespace FrameHeader

variable (h : FrameHeader)

def write : Bytes := headerBytes h.fin h.opcode h.form h.length h.key

/-- A header is two bytes, the extended length, and the key if there is one. -/
theorem length_write : h.write.length = 2 + h.form.width + if h.key.isSome then 4 else 0 := by
  have hkey := h.key_length
  simp only [write, headerBytes, List.length_cons, List.length_append, length_toBigEndian]
  cases hk : h.key with
  | none =>
    simp
    omega
  | some k =>
    simp [hkey k (by simp [hk])]
    omega

/-- The members of `websocket` after a header. -/
def members (w : Websocket) : Websocket :=
  { w with
    payloadLength := h.length
    leftHeaderLen := 0
    mask := h.key.getD w.mask
    msgOpcode := h.opcode
    msgFin := h.fin }

/-- The first byte of a header. -/
theorem first_byte : (UInt8.ofNat ((if h.fin then 128 else 0) + h.opcode)).toNat % 16 = h.opcode ∧
    decide (128 ≤ (UInt8.ofNat ((if h.fin then 128 else 0) + h.opcode)).toNat) = h.fin := by
  have hop := h.opcode_lt
  cases h.fin with
  | true =>
    rw [if_pos rfl, UInt8.toNat_ofNat_of_lt' (show 128 + h.opcode < 256 by omega)]
    exact ⟨by omega, decide_eq_true (by omega)⟩
  | false =>
    rw [if_neg (by simp), Nat.zero_add, UInt8.toNat_ofNat_of_lt' (show h.opcode < 256 by omega)]
    exact ⟨by omega, decide_eq_false (by omega)⟩

/-- The second byte of a header. -/
theorem second_byte : ∃ b1 : Nat, (UInt8.ofNat ((if h.key.isSome then 128 else 0) + h.form.field h.length)).toNat = b1 ∧
    b1 % 128 = h.form.field h.length ∧ (128 ≤ b1 ↔ h.key.isSome = true) := by
  have hlt := LengthForm.field_lt h.length_lt
  refine ⟨_, UInt8.toNat_ofNat_of_lt' (show _ < 256 by split_ifs <;> omega), ?_⟩
  split_ifs with hk
  · exact ⟨by omega, by simp [hk]⟩
  · exact ⟨by omega, by simp [hk]; omega⟩

/-- The key is read as it stands. -/
theorem read_key {k : Bytes} (hk : k.length = 4) (pre t : Bytes) :
    (List.range 4).map (fun i => (pre ++ (k ++ t)).getD (pre.length + i) 0) = k := by
  have hget : ∀ i ∈ List.range 4, (pre ++ (k ++ t)).getD (pre.length + i) 0 = k.getD i 0 := by
    intro i hi
    have hlt : i < k.length := by
      rw [hk]
      exact List.mem_range.mp hi
    rw [List.getD_eq_getElem?_getD, List.getD_eq_getElem?_getD, List.getElem?_append_right (by omega), Nat.add_sub_cancel_left,
      List.getElem?_append_left hlt]
  rw [List.map_congr_left hget]
  rcases k with _ | ⟨k₀, _ | ⟨k₁, _ | ⟨k₂, _ | ⟨k₃, _ | _⟩⟩⟩⟩
  case cons.cons.cons.cons.nil => rfl
  all_goals simp at hk

/-- The number that follows the length field. -/
theorem read_length (t : Bytes) : slice (h.write ++ t) 2 (2 + h.form.width) = toBigEndian h.form.width h.length := by
  rw [slice, Nat.add_sub_cancel_left]
  show ((toBigEndian h.form.width h.length ++ h.key.getD []) ++ t).take h.form.width = _
  rw [List.append_assoc, List.take_left' (length_toBigEndian _ _)]

/-- A header of which the bytes that `parse_header` wants to see have arrived. -/
theorem parseHeader_write (w : Websocket) (t : Bytes) {size : Nat} (hs : h.form.minSize ≤ size) :
    w.parseHeader (h.write ++ t) size = (h.members w, (h.write.length : Int)) := by
  obtain ⟨hop, hfin⟩ := h.first_byte
  obtain ⟨b1, hb1, hfield, hmask⟩ := h.second_byte
  have hlen := h.length_write
  have hmin := h.form.minSize_eq
  have h6 : shortHeader ≤ size := by
    unfold shortHeader
    omega
  have h0 : (h.write ++ t).getD 0 0 = UInt8.ofNat ((if h.fin then 128 else 0) + h.opcode) := rfl
  have h1 : (h.write ++ t).getD 1 0 = UInt8.ofNat ((if h.key.isSome then 128 else 0) + h.form.field h.length) := rfl
  unfold Websocket.parseHeader
  rw [if_neg (Nat.not_lt.mpr h6), h0, h1, hb1]
  dsimp only
  rw [hop, hfin, hfield]
  obtain ⟨n, hn, hlength⟩ := Websocket.lengthField_field
    { w with msgOpcode := h.opcode, msgFin := h.fin } (h.write ++ t) h.length_lt h6
  rw [hn, hlength (h.read_length t), Nat.sub_eq_zero_of_le hs]
  cases hk : h.key with
  | none =>
    rw [hk] at hmask hlen
    rw [if_neg (by simp [hmask]), hlen]
    simp only [members, hk, Option.getD_none, if_true, Prod.mk.injEq, true_and, Option.isSome_none, Bool.false_eq_true, if_false]
    omega
  | some k =>
    rw [hk] at hmask hlen
    have hkey : (List.range 4).map (fun i => (h.write ++ t).getD (2 + h.form.width + i) 0) = k := by
      have hread := read_key (h.key_length k hk) (UInt8.ofNat ((if h.fin then 128 else 0) + h.opcode) ::
        UInt8.ofNat ((if h.key.isSome then 128 else 0) + h.form.field h.length) :: toBigEndian h.form.width h.length) t
      rw [List.length_cons, List.length_cons, length_toBigEndian, show h.form.width + 1 + 1 = 2 + h.form.width by omega] at hread
      conv_rhs => rw [← hread]
      simp [write, headerBytes, hk]
    rw [if_pos (by simp [hmask]), hlen]
    simp only [members, hk, Option.getD_some, hkey, if_true, Prod.mk.injEq, true_and, Option.isSome_some]
    omega

/-- A header of which fewer bytes have arrived. -/
theorem parseHeader_part (w : Websocket) {inp : Bytes} {size : Nat} (hs : size < h.form.minSize)
    (hb : 1 < size → inp.getD 1 0 = UInt8.ofNat ((if h.key.isSome then 128 else 0) + h.form.field h.length)) :
    (w.parseHeader inp size).2 = -2 := by
  obtain ⟨b1, hb1, hfield, hmask⟩ := h.second_byte
  unfold Websocket.parseHeader
  split
  · rfl
  · rename_i hsize
    have h6 : shortHeader ≤ size := Nat.not_lt.mp hsize
    rw [hb (lt_of_lt_of_le (by decide) h6), hb1]
    dsimp only
    rw [hfield]
    obtain ⟨n, hn, -⟩ := Websocket.lengthField_field
      { w with msgOpcode := (inp.getD 0 0).toNat % 16, msgFin := decide (128 ≤ (inp.getD 0 0).toNat) } inp h.length_lt h6
    rw [hn]
    dsimp only
    rw [if_neg (Nat.sub_pos_of_lt hs).ne', if_neg (Nat.sub_pos_of_lt hs).ne']
    split <;> rfl

end FrameHeader

/-! ## What `encode_header` writes -/

/-- `format_header` writes the shortest form of the length, with FIN and without a key. -/
theorem formatHeader_eq (length : Nat) (code : Opcode) :
    formatHeader length code = headerBytes true code (.shortest length) length none := by
  unfold formatHeader headerBytes LengthForm.shortest
  simp only [if_true, Option.isSome_none, Bool.false_eq_true, if_false]
  split_ifs <;> simp [LengthForm.field, LengthForm.width, toBigEndian]

/-- A header without key has two to ten bytes. -/
theorem length_formatHeader (length : Nat) (code : Opcode) :
    2 ≤ (formatHeader length code).length ∧ (formatHeader length code).length ≤ 10 := by
  unfold formatHeader
  split_ifs <;> simp [length_toBigEndian]

/-- A header tells the form in which its length is written. -/
theorem headerBytes_form_inj {fin : Bool} {opcode length : Nat} {form form' : LengthForm} {key : Option Bytes}
    (h : headerBytes fin opcode form length key = headerBytes fin opcode form' length key) : form = form' := by
  have hlen := congrArg List.length h
  simp only [headerBytes, List.length_cons, List.length_append, length_toBigEndian] at hlen
  have hwidth : form.width = form'.width := by omega
  cases form <;> cases form' <;> first | rfl | simp [LengthForm.width] at hwidth

/-- A header with the MASK bit set and a key put in. -/
def insertMask (header key : Bytes) : Bytes :=
  match header with
  | b0 :: b1 :: rest => b0 :: (b1 ||| 128) :: (rest ++ key)
  | _ => header

/-- `insert_mask` on a header without key gives the header with it. -/
theorem insertMask_headerBytes {fin : Bool} {opcode length : Nat} {form : LengthForm} (h : length < form.limit) (key : Bytes) :
    insertMask (headerBytes fin opcode form length none) key = headerBytes fin opcode form length (some key) := by
  have hbit : ∀ b : UInt8, b.toNat < 128 → b ||| 128 = UInt8.ofNat (128 + b.toNat) := forall_byte (by decide +kernel)
  have hfield := LengthForm.field_lt h
  have hto : (UInt8.ofNat (form.field length)).toNat = form.field length := UInt8.toNat_ofNat_of_lt' (show _ < 256 by omega)
  have hbyte := hbit (UInt8.ofNat (form.field length)) (by omega)
  rw [hto] at hbyte
  simp [insertMask, headerBytes, hbyte]

/-- The header is read back as that of a frame of `length` bytes with the opcode `code` and FIN, as soon as `parse_header` sees as
many bytes as it wants for the length. -/
structure ReadBack (header : Bytes) (length : Nat) (code : Opcode) : Prop where
  complete : ∀ (w : Websocket) (t : Bytes) (size : Nat), (LengthForm.shortest length).minSize ≤ size →
    ∃ w', w.parseHeader (header ++ t) size = (w', (header.length : Int)) ∧
      w'.payloadLength = length ∧ w'.msgOpcode = code ∧ w'.msgFin = true
  incomplete : ∀ (w : Websocket) (t : Bytes) (size : Nat), size < (LengthForm.shortest length).minSize →
    (w.parseHeader (header ++ t) size).2 = -2

/-- A header in its shortest form is read back by the parser. -/
theorem FrameHeader.readBack (h : FrameHeader) (hfin : h.fin = true) (hform : h.form = .shortest h.length) :
    ReadBack h.write h.length h.opcode := by
  refine ⟨fun w t size hs => ?_, fun w t size hs => ?_⟩
  · rw [← hform] at hs
    exact ⟨h.members w, h.parseHeader_write w t hs, rfl, rfl, hfin⟩
  · rw [← hform] at hs
    exact h.parseHeader_part w hs fun _ => rfl

/-- Every header of `encode_header` has the shortest form that its length fits in, and is read back, also with a key put in. -/
theorem formatHeader_readBack {length : Nat} (hl : length < 2 ^ 64) {code : Opcode} (hc : code < 16) :
    ((formatHeader length code = headerBytes true code .short length none ↔ length ≤ 125) ∧
      (formatHeader length code = headerBytes true code .medium length none ↔ 126 ≤ length ∧ length ≤ 65535) ∧
      (formatHeader length code = headerBytes true code .long length none ↔ 65536 ≤ length)) ∧
    ReadBack (formatHeader length code) length code ∧
    ∀ key : Bytes, key.length = 4 → ReadBack (insertMask (formatHeader length code) key) length code := by
  have hlt := LengthForm.lt_limit_shortest hl
  have hform : ∀ form, formatHeader length code = headerBytes true code form length none ↔ LengthForm.shortest length = form := by
    intro form
    rw [formatHeader_eq]
    refine ⟨headerBytes_form_inj, ?_⟩
    rintro rfl
    rfl
  refine ⟨?_, ?_, fun key hkey => ?_⟩
  · rw [hform, hform, hform]
    unfold LengthForm.shortest
    split_ifs <;> simp <;> omega
  · rw [formatHeader_eq]
    exact FrameHeader.readBack ⟨true, code, .shortest length, length, none, hc, hlt, by simp⟩ rfl rfl
  · rw [formatHeader_eq, insertMask_headerBytes hlt]
    exact FrameHeader.readBack ⟨true, code, .shortest length, length, some key, hc, hlt, by simpa using hkey⟩ rfl rfl

theorem readBack_text :
    ((formatHeader 65536 Opcode.text = headerBytes true Opcode.text .short 65536 none ↔ 65536 ≤ 125) ∧
      (formatHeader 65536 Opcode.text = headerBytes true Opcode.text .medium 65536 none ↔ 126 ≤ 65536 ∧ 65536 ≤ 65535) ∧
      (formatHeader 65536 Opcode.text = headerBytes true Opcode.text .long 65536 none ↔ 65536 ≤ 65536)) ∧
    ReadBack (formatHeader 65536 Opcode.text) 65536 Opcode.text ∧
    ∀ key : Bytes, key.length = 4 → ReadBack (insertMask (formatHeader 65536 Opcode.text) key) 65536 Opcode.text :=
  formatHeader_readBack (by decide) (by decide)

/-! ## Frames -/

/-- `format_message`. -/
def formatMessage (src : Bytes) (code : Opcode) : Bytes := formatHeader src.length code ++ src

/-- A frame: a header and as many bytes as it says. -/
structure Frame extends FrameHeader where
  payload : Bytes
  length_eq : length = payload.length

namespace Frame

/-- The payload as it is sent. -/
def body (f : Frame) : Bytes :=
  match f.key with
  | some k => maskBytes k f.payload
  | none => f.payload

/-- The frame as it is sent. -/
def wire (f : Frame) : Bytes := f.write ++ f.body

/-- The body of a frame is as long as its payload, masked or not. -/
theorem length_body (f : Frame) : f.body.length = f.payload.length := by
  unfold body
  cases f.key with
  | none => rfl
  | some k => exact length_maskBytes k f.payload

/-- A frame is its header and its payload. -/
theorem length_wire (f : Frame) : f.wire.length = f.write.length + f.payload.length := by
  rw [wire, List.length_append, length_body]

/-- A text that begins like a header without a key tells the length of the frame that it begins with. -/
theorem field_of_part {f : Frame} {fin : Bool} {code n : Nat} {form : LengthForm} (hform : form.field n < 128)
    {rest : Bytes} (h : f.wire <+: headerBytes fin code form n none ++ rest) :
    f.key = none ∧ f.form.field f.length = form.field n ∧
      (f.form = form → toBigEndian form.width f.length = toBigEndian form.width n) := by
  obtain ⟨t, ht⟩ := h
  simp only [wire, FrameHeader.write, headerBytes, List.cons_append, List.cons.injEq, List.append_assoc] at ht
  obtain ⟨-, hsnd, htail⟩ := ht
  have hlt := LengthForm.field_lt f.length_lt
  have hto := congrArg UInt8.toNat hsnd
  rw [UInt8.toNat_ofNat_of_lt' (show _ < 256 by split_ifs <;> omega),
    UInt8.toNat_ofNat_of_lt' (show _ < 256 by simp; omega)] at hto
  simp only [Option.isSome_none, Bool.false_eq_true, if_false, Nat.zero_add] at hto
  have hkey : f.key = none := by
    cases hk : f.key with
    | none => rfl
    | some k =>
      rw [hk, Option.isSome_some, if_pos rfl] at hto
      omega
  refine ⟨hkey, ?_, ?_⟩
  · simpa [hkey] using hto
  · rintro rfl
    exact (List.append_inj htail (by rw [length_toBigEndian, length_toBigEndian])).1

/-- The length of a frame at the front of a text with a header for `n` bytes. -/
theorem length_of_part {f : Frame} {n : Nat} {code : Opcode} {rest : Bytes}
    (h : f.wire <+: formatHeader n code ++ rest) : f.payload.length = n % 2 ^ 64 := by
  have hfield := LengthForm.field_shortest_lt n
  rw [formatHeader_eq] at h
  obtain ⟨-, hf, hnum⟩ := f.field_of_part hfield h
  have hform := LengthForm.eq_shortest f.length_lt hf
  have hlen := congrArg bigEndian (hnum hform)
  rw [bigEndian_toBigEndian_mod, bigEndian_toBigEndian_mod, ← hform] at hlen
  have hlimit := f.length_lt
  rw [f.length_eq] at hf hlen hlimit
  unfold LengthForm.shortest at hform
  split_ifs at hform with h1 h2
  · rw [hform] at hf
    unfold LengthForm.shortest at hf
    rw [if_pos h1] at hf
    have hf : f.payload.length = n := hf
    rw [hf, Nat.mod_eq_of_lt (by omega)]
  · rw [hform] at hlen hlimit
    have hlen : f.payload.length % 65536 = n % 65536 := hlen
    have hlimit : f.payload.length < 65536 := hlimit
    omega
  · rw [hform] at hlen hlimit
    have hlen : f.payload.length % 2 ^ 64 = n % 2 ^ 64 := hlen
    have hlimit : f.payload.length < 2 ^ 64 := hlimit
    rwa [Nat.mod_eq_of_lt hlimit] at hlen

/-- A frame that is the same text as a message written by `format_message` has the message as its payload. -/
theorem payload_of_wire {f : Frame} {msg : Bytes} {code : Opcode} (hm : msg.length < 2 ^ 64) (h : f.wire = formatMessage msg code) :
    f.payload = msg := by
  have hpart : f.wire <+: formatHeader msg.length code ++ msg := h ▸ List.prefix_refl _
  have hlen := f.length_of_part hpart
  rw [Nat.mod_eq_of_lt hm] at hlen
  rw [formatHeader_eq] at hpart
  obtain ⟨hkey, -⟩ := f.field_of_part (LengthForm.field_shortest_lt _) hpart
  have hbody : f.body = f.payload := by rw [body, hkey]
  rw [wire, hbody, formatMessage] at h
  exact (List.append_inj' h hlen).2

end Frame

/-- The data are one frame with the opcode and the message, be it masked or not, final or not, and in whatever form. -/
def OneFrame (data : Bytes) (op : Opcode) (msg : Bytes) : Prop := ∃ f : Frame, f.opcode = op ∧ f.payload = msg ∧ f.wire = data

end Netcore
