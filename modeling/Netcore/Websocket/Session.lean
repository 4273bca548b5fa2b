import Netcore.Connection.Trace
import Netcore.Websocket.Handshake

/-!
# A WebSocket session

What a connection does from the request for a WebSocket on: the handshake, and then frames, each in any number of reads. The callbacks
of the application may set the response and the members of the request that it keeps for itself, but not the buffer.
-/

namespace Netcore

open Slices

/-- The callbacks leave the buffer and the sizes of a request as they are. -/
def Env.KeepsBuffer (env : Env) : Prop :=
  ∀ s f, env.event s = some f → ∀ (req : Request) res, req.SameBuffer (f req res).1

theorem Request.SameBuffer.refl (r : Request) : r.SameBuffer r := ⟨rfl, rfl, rfl⟩

theorem Request.SameBuffer.trans {r q p : Request} (h : r.SameBuffer q) (h' : q.SameBuffer p) : r.SameBuffer p :=
  ⟨h'.buf.trans h.buf, h'.headerLen.trans h.headerLen, h'.bodyLen.trans h.bodyLen⟩

/-- Bytes are moved within the buffer, which stays the same size. -/
theorem Request.sameBuffer_setCurrentSize (r : Request) (size : Nat) : r.SameBuffer (r.setCurrentSize size) := by
  obtain ⟨m, u, ml, ul, mh, ch, hcopy⟩ := copyMethodUrlHeaders_eq { r with curSize := size }
  unfold setCurrentSize
  dsimp only
  split
  · rw [hcopy]
    exact ⟨rfl, rfl, rfl⟩
  · exact ⟨rfl, rfl, rfl⟩

namespace Connection

variable {env : Env}

/-- A callback keeps the buffer, as the application was asked to. -/
theorem callEvent_sameBuffer (henv : env.KeepsBuffer) (c : Connection) (s : DataProcState) :
    c.req.SameBuffer (callEvent env c s).req := by
  unfold callEvent
  cases hf : env.event s with
  | none => exact .refl _
  | some f => exact henv s f hf _ _

/-- To close the connection is not about the buffer. -/
theorem close_sameBuffer (c : Connection) : c.req.SameBuffer c.close.req := by
  have hreset : c.req.SameBuffer c.req.reset := ⟨rfl, rfl, rfl⟩
  have hfile : c.req.reset.SameBuffer c.req.reset.closeUploadFile := by
    unfold Request.closeUploadFile
    split <;> exact ⟨rfl, rfl, rfl⟩
  unfold close
  split
  · exact .refl _
  · exact hreset.trans hfile

/-- A frame that is handled leaves the buffer to the next one. -/
theorem handleWsFrame_sameBuffer (henv : env.KeepsBuffer) (c : Connection) (type : WsFrameType) (payload : Bytes) :
    c.req.SameBuffer (handleWsFrame env c type payload).1.req := by
  have hset : ∀ data, c.req.SameBuffer (c.req.setPartData data) := fun _ => ⟨rfl, rfl, rfl⟩
  unfold handleWsFrame
  cases type with
  | errorFrame => exact (callEvent_sameBuffer henv (c.log _) .dataError).trans (close_sameBuffer _)
  | textFrame | binaryFrame =>
    dsimp only
    exact Request.SameBuffer.trans (q := c.req.setPartData (c.lastWsStr ++ payload)) (hset _) (callEvent_sameBuffer henv
      { c.log _ with req := c.req.setPartData (c.lastWsStr ++ payload), lastWsStr := [] } .dataContinue)
  | closeFrame =>
    dsimp only
    split
    · exact .refl _
    · generalize closeMessage env payload _ = message
      exact (hset message).trans
        (callEvent_sameBuffer henv { c.log (.frame .closeFrame payload) with req := c.req.setPartData message } .dataClose)
  | pingFrame => exact .refl _
  | pongFrame | openingFrame | incompleteFrame | incompleteTextFrame | incompleteBinaryFrame => exact .refl _

/-- A fragment is kept in a string of its own. -/
theorem keepFragment_sameBuffer (c : Connection) (type : WsFrameType) (payload : Bytes) :
    c.req.SameBuffer (keepFragment c type payload).req := by
  unfold keepFragment
  split <;> exact .refl _

/-- Frames, however many, leave the buffer as it is. -/
theorem wsLoop_sameBuffer (henv : env.KeepsBuffer) (data : Bytes) (stop : Nat) : ∀ (fuel : Nat) (c : Connection) (start : Nat),
    c.req.SameBuffer (wsLoop env data stop fuel c start).1.req := by
  intro fuel
  induction fuel with
  | zero => exact fun c _ => .refl _
  | succ fuel ih =>
    intro c start
    rcases hp : c.ws.parseHeader (data.drop start) (stop - start) with ⟨ws, ret⟩
    have hret := c.ws.parseHeader_ret (data.drop start) (stop - start)
    rw [hp] at hret
    rcases hret with rfl | ⟨len, rfl⟩
    · rw [wsLoop_header_incomplete hp]
      exact .refl _
    rcases hq : ws.parsePayload (data.drop (start + len)) (stop - (start + len)) with ⟨type, payload⟩
    by_cases ht : type = .incompleteFrame
    · subst ht
      rw [wsLoop_payload_incomplete hp hq]
      exact .refl _
    rw [wsLoop_frame hp hq ht]
    have hk := (keepFragment_sameBuffer { c with ws := ws } type payload).trans (handleWsFrame_sameBuffer henv _ type payload)
    revert hk
    rcases handleWsFrame env (keepFragment { c with ws := ws } type payload) type payload with ⟨c₁, _ | _ | _⟩
    · exact fun hk => hk
    · exact fun hk => hk
    · intro hk
      unfold afterFrame
      dsimp only
      split
      · exact Request.SameBuffer.trans hk (ih c₁ (start + len))
      · exact Request.SameBuffer.trans hk (c₁.req.sameBuffer_setCurrentSize 0)

/-! ## The text kept of fragments -/

/-- The frame that was handled, of an act that handles one. -/
def frame? : Act → Option (WsFrameType × Bytes)
  | .frame type payload => some (type, payload)
  | _ => none

/-- `last_ws_str_` has the fragments since the last message. -/
def Kept (c : Connection) : Prop := c.lastWsStr = keptAll [] (c.trace.filterMap frame?)

/-- Fragments are kept one after another. -/
theorem keptAll_append (kept : Bytes) (fs gs : List (WsFrameType × Bytes)) :
    keptAll kept (fs ++ gs) = keptAll (keptAll kept fs) gs := by
  induction fs generalizing kept with
  | nil => rfl
  | cons f fs ih => exact ih _

/-- A callback does not see the string of the fragments. -/
theorem callEvent_lastWsStr (env : Env) (c : Connection) (s : DataProcState) : (callEvent env c s).lastWsStr = c.lastWsStr := by
  unfold callEvent
  cases env.event s <;> rfl

/-- An event is no frame. -/
theorem callEvent_frames (env : Env) (c : Connection) (s : DataProcState) :
    (callEvent env c s).trace.filterMap frame? = c.trace.filterMap frame? := by
  rw [callEvent_trace, List.filterMap_append]
  exact List.append_nil _

/-- Neither the string of the fragments nor the trace changes when the connection is closed. -/
theorem close_lastWsStr (c : Connection) : c.close.lastWsStr = c.lastWsStr ∧ c.close.trace = c.trace := by
  unfold close
  split <;> exact ⟨rfl, rfl⟩

/-- What a frame other than a close makes the connection do is an event or a reply. -/
theorem frames_reactions (env : Env) (kept : Bytes) {type : WsFrameType} (payload : Bytes) (h : type ≠ .closeFrame) :
    (reactions env kept type payload).filterMap frame? = [] := by
  cases type with
  | closeFrame => exact absurd rfl h
  | _ => rfl

/-- A frame is handled once, and kept when it is a fragment. -/
theorem handleWsFrame_kept (env : Env) (c : Connection) (type : WsFrameType) (payload : Bytes) :
    (handleWsFrame env (keepFragment c type payload) type payload).1.lastWsStr = keptAfter c.lastWsStr type payload ∧
      (handleWsFrame env (keepFragment c type payload) type payload).1.trace.filterMap frame? =
        c.trace.filterMap frame? ++ [(type, payload)] := by
  have hlog : (c.log (.frame type payload)).trace.filterMap frame? = c.trace.filterMap frame? ++ [(type, payload)] := by
    rw [log, List.filterMap_append]
    rfl
  by_cases herror : type = .errorFrame
  · subst herror
    obtain ⟨hlast, htrace⟩ := close_lastWsStr (callEvent env (c.log (.frame .errorFrame payload)) .dataError)
    refine ⟨hlast.trans (callEvent_lastWsStr env _ _), ?_⟩
    exact (congrArg (List.filterMap frame?) htrace).trans ((callEvent_frames env _ .dataError).trans hlog)
  by_cases hclose : type = .closeFrame
  · subst hclose
    change (handleWsFrame env c .closeFrame payload).1.lastWsStr = _ ∧ (handleWsFrame env c .closeFrame payload).1.trace.filterMap _ = _
    unfold handleWsFrame
    dsimp only
    split
    · exact ⟨rfl, hlog⟩
    · generalize closeMessage env payload _ = message
      refine ⟨callEvent_lastWsStr env { c.log (.frame .closeFrame payload) with req := c.req.setPartData message } .dataClose, ?_⟩
      have hevent := callEvent_frames env { c.log (.frame .closeFrame payload) with req := c.req.setPartData message } .dataClose
      simp only [log, List.filterMap_append] at hevent hlog ⊢
      rw [hevent]
      exact (List.append_nil _).trans hlog
  · obtain ⟨c', heq, htrace, hlast, -⟩ := handleWsFrame_goes env c payload hclose herror
    rw [heq]
    refine ⟨hlast, ?_⟩
    have hframe : frame? (.frame type payload) = some (type, payload) := rfl
    rw [htrace, List.filterMap_append, List.filterMap_cons_some hframe, frames_reactions env _ payload hclose]

/-- Whether the fragments are kept depends on the string and on the frames of the trace. -/
theorem Kept.of_eq {c c' : Connection} (h : Kept c) (hlast : c'.lastWsStr = c.lastWsStr)
    (htrace : c'.trace.filterMap frame? = c.trace.filterMap frame?) : Kept c' := by
  rw [Kept, hlast, htrace]
  exact h

/-- A frame is handled: its fragment is in the string, or its message has taken the fragments out. -/
theorem Kept.handleWsFrame {c : Connection} (h : Kept c) (env : Env) (type : WsFrameType) (payload : Bytes) :
    Kept (handleWsFrame env (keepFragment c type payload) type payload).1 := by
  obtain ⟨hlast, htrace⟩ := handleWsFrame_kept env c type payload
  rw [Kept, hlast, htrace, keptAll_append, ← h]
  rfl

/-- The loop keeps the fragments since the last message, and no others. -/
theorem wsLoop_kept (env : Env) (data : Bytes) (stop : Nat) : ∀ (fuel : Nat) (c : Connection) (start : Nat), Kept c →
    Kept (wsLoop env data stop fuel c start).1 := by
  intro fuel
  induction fuel with
  | zero => exact fun c _ h => h
  | succ fuel ih =>
    intro c start h
    rcases hp : c.ws.parseHeader (data.drop start) (stop - start) with ⟨ws, ret⟩
    have hret := c.ws.parseHeader_ret (data.drop start) (stop - start)
    rw [hp] at hret
    rcases hret with rfl | ⟨len, rfl⟩
    · rw [wsLoop_header_incomplete hp]
      exact h.of_eq rfl rfl
    rcases hq : ws.parsePayload (data.drop (start + len)) (stop - (start + len)) with ⟨type, payload⟩
    by_cases ht : type = .incompleteFrame
    · subst ht
      rw [wsLoop_payload_incomplete hp hq]
      exact h.of_eq rfl rfl
    rw [wsLoop_frame hp hq ht]
    have hk := Kept.handleWsFrame (c := { c with ws := ws }) (h.of_eq rfl rfl) env type payload
    revert hk
    rcases Connection.handleWsFrame env (keepFragment { c with ws := ws } type payload) type payload with ⟨c₁, _ | _ | _⟩
    · exact fun hk => hk
    · exact fun hk => hk
    · intro hk
      unfold afterFrame
      dsimp only
      split
      · exact ih c₁ (start + len) hk
      · exact hk.of_eq rfl rfl

end Connection

namespace Server

variable {env : Env} {c c' : Connection} {n : Nat}

/-- A connection that reads frames into a buffer of `n` bytes. -/
structure Reading (n : Nat) (c : Connection) : Prop where
  work : c.continueWork = some .handleWsData
  capacity : c.req.atCapacity = false
  length : c.req.buf.length = n
  le : n ≤ maxSize
  kept : c.Kept

/-- A read after which the loop goes on. -/
theorem Reading.step (henv : env.KeepsBuffer) (h : Reading n c) {a : Bytes} {answer : Answer}
    (hs : step env c a = .processed c' answer) (hc : continues answer = true) : Reading n c' := by
  obtain ⟨hne, hlt, hmax, hprocess⟩ := step_processed hs
  have hlen : (overwrite c.req.buf c.req.curSize a).length = n := by
    unfold Request.leftSize at hlt
    rw [length_overwrite (by omega), h.length]
  rw [Connection.process_handleWsData (c := { c with req := receive c.req a }) h.capacity h.work, Connection.handleWsData] at hprocess
  have hkeep := Connection.wsLoop_sameBuffer henv (receive c.req a).buf (receive c.req a).curSize ((receive c.req a).curSize + 1)
    { c with req := receive c.req a } 0
  have hwork := (Connection.wsLoop_extends env (receive c.req a).buf (receive c.req a).curSize ((receive c.req a).curSize + 1)
    { c with req := receive c.req a } 0).2
  have hkept := Connection.wsLoop_kept env (receive c.req a).buf (receive c.req a).curSize ((receive c.req a).curSize + 1)
    { c with req := receive c.req a } 0 (h.kept.of_eq rfl rfl)
  simp only [hprocess] at hkeep hwork hkept
  refine ⟨(hwork ?_ ?_).trans h.work, hkeep.atCapacity.trans h.capacity, (congrArg List.length hkeep.buf).trans hlen, h.le, hkept⟩
  · rintro rfl
    exact Bool.noConfusion hc
  · rintro rfl
    exact Bool.noConfusion hc

/-- All the connections of a run that goes on. -/
theorem Reading.serve (henv : env.KeepsBuffer) {as : List Bytes} : ∀ {c : Connection}, Reading n c → ∀ {c' : Connection} {answer : Answer},
    .processed c' answer ∈ serve env c as → continues answer = true → Reading n c' := by
  induction as with
  | nil => exact fun _ _ _ hmem _ => (nomatch hmem)
  | cons a as ih =>
    intro c h c' answer hmem hc
    by_cases hstep : ∃ c₁ answer₁, Server.step env c a = .processed c₁ answer₁ ∧ continues answer₁ = true
    · obtain ⟨c₁, answer₁, hs, hc₁⟩ := hstep
      have hnext := h.step henv hs hc₁
      rw [serve_cons_continues hs hc₁] at hmem
      rcases List.mem_cons.mp hmem with heq | hmem
      · obtain ⟨rfl, rfl⟩ := Step.processed.inj heq
        exact hnext
      · exact ih hnext hmem hc
    · rw [serve_cons_ends fun c₁ answer₁ hs => Bool.eq_false_iff.mpr fun hc₁ => hstep ⟨c₁, answer₁, hs, hc₁⟩] at hmem
      exact absurd ⟨c', answer, (List.mem_singleton.mp hmem).symm, hc⟩ hstep

/-- A whole frame that fits a buffer of `n` bytes, and the reads that it comes in. -/
structure Arrives (n : Nat) (p : WsFrame × List Bytes) : Prop where
  fin : p.1.fin = true
  opcode : p.1.opcode = Opcode.text ∨ p.1.opcode = Opcode.binary ∨ p.1.opcode = Opcode.ping ∨ p.1.opcode = Opcode.pong
  fits : p.1.wire.length < n
  ne : ∀ a ∈ p.2, a ≠ []
  flatten : p.2.flatten = p.1.wire

/-- A frame that arrives so is no close frame. -/
theorem Arrives.type_ne_close {p : WsFrame × List Bytes} (h : Arrives n p) : p.1.type ≠ .closeFrame := by
  apply WsFrame.type_ne_close
  rcases h.opcode with hop | hop | hop | hop <;> rw [hop] <;> decide

end Server

end Netcore
