import Netcore.Socket.Send
import Netcore.Websocket.Manager

/-!
# `Writen`

The blocking way to write: `WS_manager::Writen` and `connection::Writen` are the same loop, which calls `::send` until
everything is sent and gives up on the first result that is not positive. The sockets are non-blocking, so that result may be
`EAGAIN`; both callers (`send_ws_msg` and `direct_write`) ignore what `Writen` returns, and the next message is written all the
same.

`accepted_eq` says how much of a message the socket takes, and `aligned_iff` when a stream of messages keeps its frames.
-/

namespace Netcore

open Slices

/-- The loop of `Writen` on a buffer of `n` bytes, with `nLeft` of them left to send from `idx` on: what it returns, and the
bytes that the socket takes. -/
def writenLoop (buffer : Bytes) : List SendOutcome → Int → Nat → Int × Bytes
  | [], nLeft, _ => if nLeft ≤ 0 then (int32 buffer.length, []) else (-1, [])
  | o :: outs, nLeft, idx =>
    if nLeft ≤ 0 then (int32 buffer.length, [])
    else
      let nwritten := int32 (sysSend nLeft.toNat o)
      if nwritten ≤ 0 then (nwritten, [])
      else
        let r := writenLoop buffer outs (nLeft - nwritten) (idx + nwritten.toNat)
        (r.1, slice buffer idx (idx + nwritten.toNat) ++ r.2)

/-- `Writen`: `nLeft` is an `int`. -/
def writen (buffer : Bytes) (outs : List SendOutcome) : Int × Bytes := writenLoop buffer outs (int32 buffer.length) 0

/-- A message for a socket, and what the calls of `::send` find while it is written. -/
structure Message where
  frame : Bytes
  outs : List SendOutcome
  deriving DecidableEq, Repr

namespace Message

/-- The bytes of the message that the socket takes. -/
def accepted (m : Message) : Bytes := (writen m.frame m.outs).2

/-- The number of bytes that `Writen` tries to send: the length as an `int`, if that is positive. -/
def asked (m : Message) : Nat := (int32 m.frame.length).toNat

end Message

/-- The bytes that a socket takes before the first call of `::send` that takes none. -/
def roomFor : List SendOutcome → Nat
  | .room 0 :: _ => 0
  | .room (n + 1) :: outs => min (n + 1) maxTransfer + roomFor outs
  | _ => 0

/-- A call takes `k` bytes of `nLeft`, and the calls after it the rest. -/
theorem taken_add {nLeft k : Nat} (hpos : 0 < nLeft) (n idx rest : Nat) (hk : k = min (n + 1) (min nLeft maxTransfer)) :
    0 < k ∧ k ≤ nLeft ∧ idx + k + min (nLeft - k) rest = idx + min nLeft (min (n + 1) maxTransfer + rest) := by
  have hcap : 0 < maxTransfer := Nat.lt_of_lt_of_le Nat.zero_lt_one (by decide)
  revert hk hcap
  generalize maxTransfer = cap
  intro hk hcap
  omega

/-- What the loop takes: as much as is left, or as much as there is room for. -/
theorem writenLoop_taken (buffer : Bytes) (outs : List SendOutcome) : ∀ nLeft idx : Nat,
    (writenLoop buffer outs nLeft idx).2 = slice buffer idx (idx + min nLeft (roomFor outs)) := by
  induction outs with
  | nil =>
    intro nLeft idx
    rw [roomFor, Nat.min_zero, Nat.add_zero, slice_self, writenLoop]
    · split_ifs <;> rfl
    all_goals simp
  | cons o outs ih =>
    intro nLeft idx
    rcases Nat.eq_zero_or_pos nLeft with rfl | hpos
    · rw [Nat.zero_min, Nat.add_zero, slice_self]
      simp [writenLoop]
    have hleft : ¬(nLeft : Int) ≤ 0 := by omega
    -- a call that takes nothing ends the loop
    have hstop : sysSend nLeft o ≤ 0 → (writenLoop buffer (o :: outs) nLeft idx).2 = [] := by
      intro h
      simp only [writenLoop, if_neg hleft, Int.toNat_natCast, int32_sysSend, if_pos h]
    match o, hstop with
    | .wouldBlock, hstop =>
      rw [hstop (by simp [sysSend])]
      simp [roomFor]
    | .failed, hstop =>
      rw [hstop (by simp [sysSend])]
      simp [roomFor]
    | .room 0, hstop =>
      rw [hstop (by simp [sysSend])]
      simp [roomFor]
    | .room (n + 1), _ =>
      obtain ⟨k, hk⟩ : ∃ k, k = min (n + 1) (min nLeft maxTransfer) := ⟨_, rfl⟩
      have hsend : int32 (sysSend nLeft (.room (n + 1))) = k := by rw [int32_sysSend, sysSend, ← hk]
      obtain ⟨hk0, hkle, hsum⟩ := taken_add hpos n idx (roomFor outs) hk
      have hsub : (nLeft : Int) - k = ((nLeft - k : Nat) : Int) := (Int.ofNat_sub hkle).symm
      simp only [writenLoop, if_neg hleft, Int.toNat_natCast, hsend, if_neg (Int.not_le.mpr (Int.natCast_pos.mpr hk0)), hsub, ih]
      rw [slice_append buffer (Nat.le_add_right _ _) (Nat.le_add_right _ _), hsum, roomFor]

theorem asked_le (m : Message) : m.asked ≤ m.frame.length := by
  unfold Message.asked
  rcases Nat.lt_or_ge m.frame.length 2147483648 with h | h
  · rw [int32_of_lt h, Int.toNat_natCast]
  · have := int32_toNat_add_le h
    omega

/-- **How much of a message the socket takes**: what `Writen` asks for, or what there is room for. -/
theorem accepted_eq (m : Message) : m.accepted = m.frame.take (min m.asked (roomFor m.outs)) := by
  unfold Message.accepted writen
  rcases le_or_gt (int32 m.frame.length) 0 with h | h
  · have hasked : m.asked = 0 := by rw [Message.asked, Int.toNat_of_nonpos h]
    rw [hasked, Nat.zero_min, List.take_zero]
    cases m.outs with
    | nil => rw [writenLoop, if_pos h]
    | cons o outs => rw [writenLoop, if_pos h]
  · have hasked : int32 m.frame.length = (m.asked : Int) := by rw [Message.asked, Int.toNat_of_nonneg h.le]
    rw [hasked, writenLoop_taken, slice_zero, Nat.zero_add]

/-! ## Streams of messages -/

namespace Message

/-- The whole frame is sent: its length is an `int`, and there is room for it. -/
def Fits (m : Message) : Prop := m.asked = m.frame.length ∧ m.frame.length ≤ roomFor m.outs

/-- Nothing of the frame is sent: its length is not a positive `int`, or there is no room at first. -/
def Refused (m : Message) : Prop := m.asked = 0 ∨ roomFor m.outs = 0

theorem accepted_eq_frame_iff (m : Message) : m.accepted = m.frame ↔ m.Fits := by
  have hle := asked_le m
  rw [accepted_eq, List.take_eq_self_iff, Fits]
  omega

theorem accepted_eq_nil_iff (m : Message) : m.accepted = [] ↔ m.Refused := by
  have hle := asked_le m
  rw [accepted_eq, List.take_eq_nil_iff, Refused]
  constructor
  · rintro (h | h)
    · omega
    · left
      rw [h, List.length_nil] at hle
      omega
  · intro h
    left
    omega

end Message

/-- The bytes that a socket has taken of messages written one after the other. -/
def stream (ms : List Message) : Bytes := ms.flatMap Message.accepted

/-- The socket has taken whole frames, then at most one incomplete one, and nothing after it. -/
def Aligned (ms : List Message) : Prop :=
  ∃ pre post, ms = pre ++ post ∧ (∀ m ∈ pre, m.accepted = m.frame ∨ m.accepted = []) ∧ ∀ m ∈ post.tail, m.accepted = []

theorem stream_cons (m : Message) (ms : List Message) : stream (m :: ms) = m.accepted ++ stream ms := List.flatMap_cons

theorem stream_append (ms ms' : List Message) : stream (ms ++ ms') = stream ms ++ stream ms' := List.flatMap_append

/-- Messages that are taken whole or not at all. -/
theorem stream_whole (ms : List Message) (h : ∀ m ∈ ms, m.accepted = m.frame ∨ m.accepted = []) :
    ∃ frames : List Bytes, stream ms = frames.flatten ∧ frames.Sublist (ms.map Message.frame) := by
  induction ms with
  | nil => exact ⟨[], rfl, List.Sublist.refl _⟩
  | cons m ms ih =>
    obtain ⟨frames, hs, hsub⟩ := ih (fun x hx => h x (List.mem_cons_of_mem m hx))
    rcases h m (by simp) with hm | hm
    · exact ⟨m.frame :: frames, by rw [stream_cons, hm, List.flatten_cons, hs], hsub.cons_cons _⟩
    · exact ⟨frames, by rw [stream_cons, hm, List.nil_append, hs], hsub.cons _⟩

/-- An aligned stream is a sequence of frames and a beginning of one more. -/
theorem Aligned.stream_eq {ms : List Message} (h : Aligned ms) : ∃ (frames : List Bytes) (part : Bytes),
    stream ms = frames.flatten ++ part ∧ frames.Sublist (ms.map Message.frame) ∧ (part = [] ∨ ∃ m ∈ ms, part <+: m.frame) := by
  obtain ⟨pre, post, rfl, hpre, hpost⟩ := h
  obtain ⟨frames, hs, hsub⟩ := stream_whole pre hpre
  refine ⟨frames, stream post, by rw [stream_append, hs], hsub.trans ?_, ?_⟩
  · rw [List.map_append]
    exact List.sublist_append_left _ _
  · cases post with
    | nil => exact Or.inl rfl
    | cons m post =>
      have hrest : stream post = [] := List.flatMap_eq_nil_iff.mpr hpost
      refine Or.inr ⟨m, by simp, ?_⟩
      rw [stream_cons, hrest, List.append_nil, accepted_eq]
      exact List.take_prefix _ _

/-- **The stream keeps its frames** exactly when, up to some message, each one fits or is refused at once, and all after the
next one are refused at once. -/
theorem aligned_iff (ms : List Message) : Aligned ms ↔
    ∃ pre post, ms = pre ++ post ∧ (∀ m ∈ pre, m.Fits ∨ m.Refused) ∧ ∀ m ∈ post.tail, m.Refused := by
  simp only [Aligned, Message.accepted_eq_frame_iff, Message.accepted_eq_nil_iff]

/-- The socket takes four bytes of a first frame and then none; after that it takes a second frame. -/
def cutHello : Message := ⟨(sendWsString 5 (bytes "hello") false).sendMsg, [.room 4]⟩

def wholeBye : Message := ⟨(sendWsString 5 (bytes "bye") false).sendMsg, [.room 9]⟩

/-- The second frame follows in the middle of the first one. -/
theorem not_aligned_cutHello :
    stream [cutHello, wholeBye] = [0x81, 5] ++ bytes "he" ++ ([0x81, 3] ++ bytes "bye") ∧ ¬Aligned [cutHello, wholeBye] := by
  refine ⟨by decide, ?_⟩
  rintro ⟨pre, post, hms, hpre, hpost⟩
  cases pre with
  | nil =>
    rw [List.nil_append] at hms
    rw [← hms] at hpost
    exact absurd (hpost wholeBye (by simp)) (by decide)
  | cons m pre =>
    obtain rfl : cutHello = m := (List.cons_eq_cons.mp hms).1
    exact absurd (hpre cutHello (by simp)) (by decide)

end Netcore
