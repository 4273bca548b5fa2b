import Netcore.Websocket.Codec

/-!
# Unmasking

`parse_payload` copies and unmasks the payload when `mask_` is not zero, and `mask_` is set by a masked header only: a key of four
zeros is taken for no key, and a header without a key leaves the key of an earlier frame in force. So a frame gives back its payload
only when it is `Readable`, which `decoded_iff` shows to be the exact condition.
-/

namespace Netcore

/-- The members of `websocket` after calls of `parse_header`, each with the bytes that it was given and their number. -/
def parsedHeaders (history : List (Bytes × Nat)) : Websocket :=
  history.foldl (fun w call => (w.parseHeader call.1 call.2).1) {}

theorem Websocket.length_mask_parseHeader {w : Websocket} (h : w.mask.length = 4) (inp : Bytes) (size : Nat) :
    (w.parseHeader inp size).1.mask.length = 4 := by
  unfold Websocket.parseHeader Websocket.lengthField
  split
  · exact h
  · dsimp only
    split_ifs <;> simp [h]

theorem length_mask_parsedHeaders (history : List (Bytes × Nat)) : (parsedHeaders history).mask.length = 4 := by
  induction history using List.reverseRecOn with
  | nil => rfl
  | append_singleton history call ih =>
    rw [parsedHeaders, List.foldl_append]
    exact Websocket.length_mask_parseHeader ih call.1 call.2

/-- The payload is the same masked and not masked when the bytes of the key that it meets are zeros. -/
theorem maskBytes_eq_self_iff {key data : Bytes} (hk : key.length = 4) :
    maskBytes key data = data ↔ ∀ b ∈ key.take data.length, b = 0 := by
  have hxor : ∀ b k : UInt8, b ^^^ k = b ↔ k = 0 := by
    intro b k
    have h := UInt8.xor_right_inj (a := k) (b := 0) b
    rwa [UInt8.xor_zero] at h
  have hmem : (∀ b ∈ key.take data.length, b = 0) ↔ ∀ i < data.length, key.getD (i % 4) 0 = 0 := by
    refine ⟨fun h i hi => ?_, fun h b hb => ?_⟩
    · have hlt : i % 4 < (key.take data.length).length := by
        rw [List.length_take, hk]
        have := Nat.mod_le i 4
        omega
      have hget := h _ (List.getElem_mem hlt)
      rw [List.getElem_take] at hget
      rw [List.getD_eq_getElem?_getD, List.getElem?_eq_getElem (by omega), hget]
      rfl
    · obtain ⟨i, hi, rfl⟩ := List.getElem_of_mem hb
      rw [List.length_take] at hi
      have hget := h i (by omega)
      rw [Nat.mod_eq_of_lt (by omega), List.getD_eq_getElem?_getD, List.getElem?_eq_getElem (by omega), Option.getD_some] at hget
      rw [List.getElem_take, hget]
  rw [hmem]
  refine ⟨fun h i hi => ?_, fun h => ?_⟩
  · have hget := congrArg (·[i]?) h
    simp only [maskBytes, List.getElem?_mapIdx, List.getElem?_eq_getElem hi, Option.map_some, Option.some.injEq] at hget
    exact (hxor _ _).mp hget
  · apply List.ext_getElem (length_maskBytes key data)
    intro i _ hi
    simp only [maskBytes, List.getElem_mapIdx]
    exact (hxor _ _).mpr (h i hi)

namespace Frame

variable (f : Frame)

/-- With `w` the members before, `parse_header` finds the header of the frame at the front of the `size` bytes received, and
`parse_payload` gives its payload. -/
def Decoded (w : Websocket) (t : Bytes) (size : Nat) : Prop :=
  (w.parseHeader (f.wire ++ t) size).2 = f.write.length ∧
    ((w.parseHeader (f.wire ++ t) size).1.parsePayload ((f.wire ++ t).drop f.write.length) (size - f.write.length)).2 = f.payload

/-- The payload comes out right with the key in force. A key that is not zero unmasks a payload that it has masked; where the key is
zero, the payload has to consist of zeros; and the key of an earlier frame must not change a payload that is not masked. -/
def Unmasks (mask : Bytes) : Prop :=
  match f.key with
  | some k => k ≠ [0, 0, 0, 0] ∨ ∀ b ∈ f.payload, b = 0
  | none => if mask = [0, 0, 0, 0] then ∀ b ∈ f.payload, b = 0 else ∀ b ∈ mask.take f.payload.length, b = 0

/-- There are as many bytes as a masked header of this form has, and the key in force leaves the payload right. -/
def Readable (mask : Bytes) (size : Nat) : Prop := f.form.minSize ≤ size ∧ f.Unmasks mask

theorem replicate_eq_iff (s : Bytes) : List.replicate s.length 0 = s ↔ ∀ b ∈ s, b = 0 := by
  rw [eq_comm, List.eq_replicate_iff]
  simp

/-- The payload of a frame that has arrived, as `parse_payload` gives it. -/
theorem parsePayload_eq {w : Websocket} (hm : w.mask.length = 4) (t : Bytes) {size : Nat} (hs : f.payload.length ≤ size) :
    ((f.members w).parsePayload (f.body ++ t) size).2 = f.payload ↔ f.Unmasks w.mask := by
  have htake : (f.body ++ t).take f.length = f.body := by rw [f.length_eq, ← f.length_body, List.take_left]
  unfold Websocket.parsePayload FrameHeader.members
  rw [if_neg (by dsimp only; rw [f.length_eq]; omega)]
  dsimp only
  rw [htake, f.length_eq]
  unfold Unmasks body
  cases hk : f.key with
  | none =>
    rw [Option.getD_none]
    dsimp only
    by_cases hzero : w.mask = [0, 0, 0, 0]
    · rw [if_neg (not_not.mpr hzero), if_pos hzero]
      exact replicate_eq_iff f.payload
    · rw [if_pos hzero, if_neg hzero]
      exact maskBytes_eq_self_iff hm
  | some k =>
    rw [Option.getD_some]
    dsimp only
    split_ifs with h1
    · exact ⟨fun _ => .inl h1, fun _ => maskBytes_maskBytes k f.payload⟩
    · rw [replicate_eq_iff]
      exact ⟨.inr, fun h => h.resolve_left h1⟩

/-- Whatever has been parsed before, a frame that has arrived gives its payload exactly when it is readable. -/
theorem decoded_iff (history : List (Bytes × Nat)) (t : Bytes) {size : Nat} (hs : f.wire.length ≤ size) :
    f.Decoded (parsedHeaders history) t size ↔ f.Readable (parsedHeaders history).mask size := by
  rw [length_wire] at hs
  unfold Decoded Readable
  rw [wire, List.append_assoc, List.drop_left]
  by_cases hmin : f.form.minSize ≤ size
  · rw [f.parseHeader_write _ _ hmin]
    simp only [true_and, hmin]
    exact f.parsePayload_eq (length_mask_parsedHeaders history) t (by omega)
  · have hpart : ((parsedHeaders history).parseHeader (f.write ++ (f.body ++ t)) size).2 = -2 :=
      f.parseHeader_part _ (Nat.not_le.mp hmin) fun _ => rfl
    rw [hpart]
    simp only [hmin, false_and, iff_false]
    rintro ⟨h, -⟩
    omega

end Frame

/-- The letter `a` in a text frame with a key of zeros. -/
def zeroKeyFrame : Frame where
  fin := true
  opcode := Opcode.text
  form := .short
  length := 1
  key := some [0, 0, 0, 0]
  opcode_lt := Opcode.text_lt
  length_lt := by decide
  key_length := by simp
  payload := bytes "a"
  length_eq := rfl

/-- The frame gives a byte of zero in the place of the letter. -/
theorem not_decoded_zeroKeyFrame : ¬∀ (history : List (Bytes × Nat)) (f : Frame) (t : Bytes) (size : Nat), f.wire.length ≤ size →
    f.Decoded (parsedHeaders history) t size := by
  intro h
  exact absurd (h [] zeroKeyFrame [] 7 (by decide)).2 (by decide)

theorem decoded_iff_zeroKeyFrame : zeroKeyFrame.Decoded (parsedHeaders []) [] 7 ↔
    zeroKeyFrame.Readable (parsedHeaders []).mask 7 :=
  zeroKeyFrame.decoded_iff [] [] (by decide)

end Netcore
