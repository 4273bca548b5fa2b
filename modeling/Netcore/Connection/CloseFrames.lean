import Netcore.Server.Runs
import Netcore.Websocket.Codec

/-!
# Close frames

What `handle_ws_frame` does about a close frame: `parse_close_payload` gives a pointer to the message, or a null pointer, and as many
bytes are copied from there as the whole payload has, up to 123. The code in the reply is the opcode of a close frame, and not the
code that was received.

So the bytes that are copied lie in the payload only when there are none, or when an accepted payload is so long that 123 bytes follow
its code (`closeReads_within_iff`), and a payload that is accepted is never answered as it should be (`not_oneFrame_close`).
-/

namespace Netcore

namespace Connection

/-- The positions in the payload, counted from its first byte, that are copied as the message; `none` when they would be counted from
a null pointer. -/
def closeReads (payload : Bytes) : Option (List Nat) :=
  if min 123 payload.length = 0 then some []
  else (parseClosePayload payload).map fun _ => (List.range (min 123 payload.length)).map (2 + ·)

/-- Only bytes of the payload are read, and an accepted code is answered by a close frame with this code and the reason, of which 123
bytes at most. -/
def ClosesRight (env : Env) (c : Connection) (payload : Bytes) : Prop :=
  (∃ reads, closeReads payload = some reads ∧ ∀ i ∈ reads, i < payload.length) ∧
  ∀ code, parseClosePayload payload = some code →
    OneFrame (handleWsFrame env c .closeFrame payload).1.res.repStr Opcode.close (toBigEndian 2 code ++ (payload.drop 2).take 123)

/-- The frame is not handled to the end exactly when the pointer is null and there is something to copy. -/
theorem handleWsFrame_eq_none_iff (env : Env) (c : Connection) (payload : Bytes) :
    (handleWsFrame env c .closeFrame payload).2 = none ↔ closeReads payload = none := by
  unfold handleWsFrame closeReads
  dsimp only
  cases parseClosePayload payload with
  | none => by_cases hlen : min 123 payload.length = 0 <;> simp [hlen]
  | some code => by_cases hlen : min 123 payload.length = 0 <;> simp [hlen]

/-- What is copied as the message, byte by byte: past the payload comes the end of the string, and then what the heap holds. -/
theorem closeMessage_eq {payload : Bytes} {reads : List Nat} (env : Env) (h : closeReads payload = some reads) :
    closeMessage env payload (min 123 payload.length) = reads.map fun i => (payload ++ [0]).getD i (env.heap (i - 2)) := by
  unfold closeReads at h
  split at h
  · rename_i hlen
    cases h
    rw [hlen]
    rfl
  · obtain ⟨code, -, rfl⟩ := Option.map_eq_some_iff.mp h
    rw [closeMessage, List.map_map]
    refine List.map_congr_left fun i _ => ?_
    rw [Function.comp_apply, Nat.add_sub_cancel_left]

/-- Where the reads stay in the payload. -/
theorem closeReads_within_iff (payload : Bytes) : (∃ reads, closeReads payload = some reads ∧ ∀ i ∈ reads, i < payload.length) ↔
    payload = [] ∨ ((parseClosePayload payload).isSome = true ∧ 125 ≤ payload.length) := by
  unfold closeReads
  rw [← List.length_eq_zero_iff]
  split
  · rename_i hlen
    exact ⟨fun _ => .inl (by omega), fun _ => ⟨[], rfl, by simp⟩⟩
  · rename_i hlen
    cases hcode : parseClosePayload payload with
    | none =>
      constructor
      · rintro ⟨reads, hreads, -⟩
        cases hreads
      · rintro (hzero | ⟨hsome, -⟩)
        · omega
        · cases hsome
    | some code =>
      refine ⟨?_, fun h => ⟨_, rfl, ?_⟩⟩
      · rintro ⟨reads, hreads, hlt⟩
        cases hreads
        have hlast := hlt (2 + (min 123 payload.length - 1))
          (List.mem_map_of_mem (List.mem_range.mpr (by omega)))
        exact .inr ⟨rfl, by omega⟩
      · intro i hi
        obtain ⟨j, hj, rfl⟩ := List.mem_map.mp hi
        have := List.mem_range.mp hj
        rcases h with h | h
        · omega
        · omega

/-- An accepted code is between 1000 and 4999. -/
theorem parseClosePayload_bounds {payload : Bytes} {code : Nat} (h : parseClosePayload payload = some code) :
    1000 ≤ code ∧ code ≤ 4999 := by
  unfold parseClosePayload at h
  dsimp only at h
  split_ifs at h with h1 h2
  cases h
  omega

/-- The reply to an accepted payload has the code 8. -/
theorem handleWsFrame_repStr_close (env : Env) (c : Connection) {payload : Bytes} {code : Nat}
    (h : parseClosePayload payload = some code) : (handleWsFrame env c .closeFrame payload).1.res.repStr =
      formatMessage (toBigEndian 2 Opcode.close ++ closeMessage env payload (min 123 payload.length)) Opcode.close := by
  unfold handleWsFrame
  dsimp only
  rw [if_neg (by simp [h])]
  rfl

/-- An accepted payload is not answered with its code. -/
theorem not_oneFrame_close (env : Env) (c : Connection) {payload : Bytes} {code : Nat} (h : parseClosePayload payload = some code)
    (reason : Bytes) : ¬OneFrame (handleWsFrame env c .closeFrame payload).1.res.repStr Opcode.close (toBigEndian 2 code ++ reason) := by
  rintro ⟨f, -, hpayload, hwire⟩
  obtain ⟨hlow, hhigh⟩ := parseClosePayload_bounds h
  rw [handleWsFrame_repStr_close env c h] at hwire
  have hlen : (toBigEndian 2 Opcode.close ++ closeMessage env payload (min 123 payload.length)).length < 2 ^ 64 := by
    rw [List.length_append, length_toBigEndian, closeMessage, List.length_map, List.length_range]
    omega
  have heq := (f.payload_of_wire hlen hwire).symm.trans hpayload
  have hcode := (List.append_inj heq (by rw [length_toBigEndian, length_toBigEndian])).1
  have hnum := congrArg bigEndian hcode
  rw [bigEndian_toBigEndian (by decide), bigEndian_toBigEndian (by omega)] at hnum
  rw [← hnum] at hlow
  exact absurd hlow (by decide)

/-- A close frame is handled as it should be exactly when it has no payload. -/
theorem closesRight_iff (env : Env) (c : Connection) (payload : Bytes) : ClosesRight env c payload ↔ payload = [] := by
  unfold ClosesRight
  rw [closeReads_within_iff]
  constructor
  · rintro ⟨hreads, hreply⟩
    rcases hreads with hnil | ⟨hcode, -⟩
    · exact hnil
    · obtain ⟨code, hcode⟩ := Option.isSome_iff_exists.mp hcode
      exact absurd (hreply code hcode) (not_oneFrame_close env c hcode _)
  · rintro rfl
    exact ⟨.inl rfl, fun code hcode => by cases hcode⟩

/-- The payload with the code 1000 and no reason: two bytes after it are copied. -/
theorem closeReads_normal : closeReads [3, 232] = some [2, 3] ∧ parseClosePayload [3, 232] = some 1000 ∧
    ¬∀ (env : Env) (c : Connection) (payload : Bytes), payload.length ≤ 125 → ClosesRight env c payload := by
  have hreads : closeReads [3, 232] = some [2, 3] := by decide
  refine ⟨hreads, by decide, fun h => ?_⟩
  obtain ⟨reads, hsome, hlt⟩ := (h (.bare []) (Server.fresh .none) [3, 232] (by decide)).1
  rw [hreads] at hsome
  cases hsome
  exact absurd (hlt 2 (by decide)) (by decide)

end Connection

end Netcore
