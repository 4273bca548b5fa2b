import Netcore.Server.WsFrames

/-!
# Replies to WebSocket frames

`response_str()` is written by the handshake, by callbacks and by `handle_ws_frame`, and `Server::handle` writes it out
after every call of `process` that has come to a frame with FIN. It is never emptied. So what is sent after a frame is the
response set for it, if one was; otherwise it is what was set last, once more. `repliedOnce_iff` says for which frames that
is no reply too many.
-/

namespace Netcore

/-- What the callbacks set as the response: `reply state req res` is the string that the callback of `state` hands to
`set_response`, and `none` when it leaves the response string as it is. -/
def Env.Replies (env : Env) (reply : DataProcState → Request → Response → Option Bytes) : Prop :=
  ∀ state f, env.event state = some f → ∀ req res, (f req res).2.repStr = (reply state req res).getD res.repStr

/-- A call of `handle_ws_frame`, and the connection at the call. -/
structure Handling where
  conn : Connection
  type : WsFrameType
  payload : Bytes

namespace Handling

variable (env : Env) (reply : DataProcState → Request → Response → Option Bytes)

/-- The response set while a frame is processed: by the callback for a message, by `handle_ws_frame` itself for a ping or a
close frame (whose payload may be read through a null pointer instead). -/
def set (h : Handling) : Option Bytes :=
  match h.type with
  | .textFrame | .binaryFrame =>
    if (env.event .dataContinue).isSome then
      reply .dataContinue (h.conn.req.setPartData (h.conn.lastWsStr ++ h.payload)) h.conn.res
    else none
  | .pingFrame => some (formatHeader h.payload.length Opcode.pong ++ h.payload)
  | .closeFrame =>
    if parseClosePayload h.payload = none ∧ min 123 h.payload.length ≠ 0 then none
    else
      let msg := formatClosePayload Opcode.close (Connection.closeMessage env h.payload (min 123 h.payload.length))
      some (formatHeader msg.length Opcode.close ++ msg)
  | _ => none

/-- A frame with FIN has a response set while it is processed, unless the response string was empty anyway; a frame without
FIN has none. A close frame may be anything. -/
def Careful (h : Handling) : Prop :=
  h.type = .closeFrame ∨
    if h.conn.ws.msgFin = true then h.set env reply ≠ none ∨ h.conn.res.repStr = [] else (h.set env reply).getD [] = []

/-- The bytes `sent` after a frame are the response set while it was processed, and nothing if none was. -/
def RepliedWith (h : Handling) (sent : Bytes) : Prop := sent = (h.set env reply).getD []

end Handling

/-- What is written after each frame of a call of `process`, when `sent` is written after the call: nothing between two
frames, and `sent` after the last one. -/
def writes (sent : Bytes) : List Handling → List (Handling × Bytes)
  | [] => []
  | [h] => [(h, sent)]
  | h :: h' :: hs => (h, []) :: writes sent (h' :: hs)

theorem writes_cons (h : Handling) {sent : Bytes} {hs : List Handling} (hne : hs = [] → sent = []) :
    writes sent (h :: hs) = (h, []) :: writes sent hs := by
  cases hs with
  | nil =>
    rw [hne rfl]
    rfl
  | cons h' hs => rfl

namespace Connection

/-- The calls of `handle_ws_frame` that `wsLoop` makes, in order. -/
def wsFrames (env : Env) (data : Bytes) (stop : Nat) : Nat → Connection → Nat → List Handling
  | 0, _, _ => []
  | fuel + 1, c, start =>
    let (ws, ret) := c.ws.parseHeader (data.drop start) (stop - start)
    let c := { c with ws := ws }
    if ret < 0 then []
    else
      let start := start + ret.toNat
      let (type, payload) := c.ws.parsePayload (data.drop start) (stop - start)
      if type = .incompleteFrame then []
      else
        let c := keepFragment c type payload
        match handleWsFrame env c type payload with
        | (c', some true) => ⟨c, type, payload⟩ :: if c'.ws.msgFin = false then wsFrames env data stop fuel c' start else []
        | _ => [⟨c, type, payload⟩]

variable {env : Env} {reply : DataProcState → Request → Response → Option Bytes}
variable {data payload : Bytes} {stop fuel start len : Nat} {c : Connection} {ws : Websocket} {type : WsFrameType}

/-! ## One frame -/

/-- A message leaves what its callback has set. -/
theorem callEvent_repStr (hreply : env.Replies reply) (c : Connection) (state : DataProcState) :
    (callEvent env c state).res.repStr =
      ((if (env.event state).isSome then reply state c.req c.res else none : Option Bytes)).getD c.res.repStr := by
  unfold callEvent
  cases hf : env.event state with
  | none => rfl
  | some f => exact hreply state f hf c.req c.res

/-- After a frame that is not a close frame, the response string is the one set for it, or the one before. -/
theorem handleWsFrame_repStr (hreply : env.Replies reply) (c : Connection) (payload : Bytes) (h1 : type ≠ .closeFrame)
    (h2 : type ≠ .errorFrame) : ∃ c', handleWsFrame env c type payload = (c', some true) ∧ c'.ws = c.ws ∧
      c'.res.repStr = (Handling.set env reply ⟨c, type, payload⟩).getD c.res.repStr := by
  cases type with
  | closeFrame => exact absurd rfl h1
  | errorFrame => exact absurd rfl h2
  | textFrame | binaryFrame =>
    refine ⟨_, rfl, ?_, ?_⟩
    · rw [callEvent_ws]
      rfl
    · rw [callEvent_repStr hreply]
      rfl
  | pingFrame => exact ⟨_, rfl, rfl, rfl⟩
  | incompleteFrame | openingFrame | pongFrame | incompleteTextFrame | incompleteBinaryFrame => exact ⟨_, rfl, rfl, rfl⟩

/-- A close frame sets the response and ends the loop, if its payload is not copied from a null pointer. -/
theorem handleWsFrame_close (env : Env) (reply : DataProcState → Request → Response → Option Bytes) (c : Connection)
    (payload : Bytes) : ∃ c', (handleWsFrame env c .closeFrame payload = (c', none) ∧
        Handling.set env reply ⟨c, .closeFrame, payload⟩ = none) ∨
      (handleWsFrame env c .closeFrame payload = (c', some false) ∧
        Handling.set env reply ⟨c, .closeFrame, payload⟩ = some c'.res.repStr) := by
  rcases hw : handleWsFrame env c .closeFrame payload with ⟨c', r⟩
  refine ⟨c', ?_⟩
  unfold handleWsFrame at hw
  dsimp only at hw
  by_cases h : parseClosePayload payload = none ∧ min 123 payload.length ≠ 0
  · rw [if_pos h] at hw
    cases hw
    exact .inl ⟨rfl, if_pos h⟩
  · rw [if_neg h] at hw
    cases hw
    exact .inr ⟨rfl, if_neg h⟩

/-! ## One call of `process` -/

/-- What follows a frame in `wsFrames`. -/
def framesAfter (env : Env) (data : Bytes) (stop fuel start : Nat) : Connection × Option Bool → List Handling
  | (c, some true) => if c.ws.msgFin = false then wsFrames env data stop fuel c start else []
  | _ => []

/-- An iteration of the frame loop: either it finds no frame and more has to be read, or it handles one. -/
theorem wsLoop_cases (env : Env) (data : Bytes) (stop fuel : Nat) (c : Connection) (start : Nat) :
    (wsFrames env data stop (fuel + 1) c start = [] ∧ (wsLoop env data stop (fuel + 1) c start).2 = .state .needRead) ∨
      ∃ d type payload next, type ≠ .errorFrame ∧
        wsFrames env data stop (fuel + 1) c start =
          ⟨d, type, payload⟩ :: framesAfter env data stop fuel next (handleWsFrame env d type payload) ∧
        wsLoop env data stop (fuel + 1) c start = afterFrame env data stop fuel next (handleWsFrame env d type payload) := by
  rcases hp : c.ws.parseHeader (data.drop start) (stop - start) with ⟨w, ret⟩
  rcases c.ws.parseHeader_ret (data.drop start) (stop - start) with hret | ⟨len, hret⟩
  · obtain rfl : ret = -2 := by rw [← hret, hp]
    refine .inl ⟨?_, ?_⟩
    · rw [wsFrames, hp]
      rfl
    · rw [wsLoop_header_incomplete hp]
  obtain rfl : ret = (len : Int) := by rw [← hret, hp]
  rcases hq : w.parsePayload (data.drop (start + len)) (stop - (start + len)) with ⟨type, payload⟩
  have hneg : ¬(len : Int) < 0 := by omega
  by_cases hinc : type = .incompleteFrame
  · subst hinc
    refine .inl ⟨?_, ?_⟩
    · rw [wsFrames, hp]
      simp only [hneg, if_false, Int.toNat_natCast, hq, if_true]
    · rw [wsLoop_payload_incomplete hp hq]
  · have hreads : c.ws.Reads data stop start w len type payload := ⟨hp, hq⟩
    refine .inr ⟨_, type, payload, start + len, hreads.ne_error, ?_, wsLoop_frame hp hq hinc⟩
    rw [wsFrames, hp]
    simp only [hneg, if_false, Int.toNat_natCast, hq, hinc]
    rcases handleWsFrame env (keepFragment { c with ws := w } type payload) type payload with ⟨c', _ | _ | _⟩ <;> rfl

/-- Without a frame, nothing is sent. -/
theorem wsLoop_no_frames (env : Env) (data : Bytes) (stop fuel : Nat) (c : Connection) (start : Nat)
    (h : wsFrames env data stop fuel c start = []) : (wsLoop env data stop fuel c start).2 = .state .needRead := by
  cases fuel with
  | zero => rfl
  | succ fuel =>
    rcases wsLoop_cases env data stop fuel c start with ⟨-, hread⟩ | ⟨d, type, payload, next, -, hframes, -⟩
    · exact hread
    · rw [h] at hframes
      cases hframes

/-- In a call of `handle_ws_data`, the frames that are handled with care are the ones replied to with what was set for them. -/
theorem wsLoop_writes (hreply : env.Replies reply) (data : Bytes) (stop fuel : Nat) : ∀ (c : Connection) (start : Nat),
    ∀ x ∈ writes (Step.processed (wsLoop env data stop fuel c start).1 (wsLoop env data stop fuel c start).2).response
      (wsFrames env data stop fuel c start), x.1.RepliedWith env reply x.2 ↔ x.1.Careful env reply := by
  induction fuel with
  | zero =>
    intro c start x hx
    cases hx
  | succ fuel ih =>
    intro c start x hx
    rcases wsLoop_cases env data stop fuel c start with ⟨hframes, -⟩ | ⟨d, type, payload, next, herr, hframes, hloop⟩
    · rw [hframes] at hx
      cases hx
    rw [hframes, hloop] at hx
    by_cases hclose : type = .closeFrame
    · subst hclose
      -- the loop ends here: the close frame is written, or nothing after the null pointer
      obtain ⟨c', ⟨hh, hset⟩ | ⟨hh, hset⟩⟩ := handleWsFrame_close env reply d payload
      all_goals
        rw [hh] at hx
        obtain rfl := List.mem_singleton.mp hx
        rw [Handling.RepliedWith, hset]
        exact iff_of_true rfl (.inl rfl)
    obtain ⟨c', hh, hws, hrep⟩ := handleWsFrame_repStr hreply d payload hclose herr
    have hcareful : Handling.Careful env reply ⟨d, type, payload⟩ ↔ if c'.ws.msgFin = true then
        Handling.set env reply ⟨d, type, payload⟩ ≠ none ∨ d.res.repStr = []
      else (Handling.set env reply ⟨d, type, payload⟩).getD [] = [] := by
      rw [hws]
      exact or_iff_right hclose
    rw [hh, framesAfter, afterFrame] at hx
    cases hfin : c'.ws.msgFin with
    | true =>
      rw [hfin] at hx hcareful
      obtain rfl := List.mem_singleton.mp hx
      rw [hcareful, if_pos rfl, Handling.RepliedWith]
      -- what is sent is the response string after the frame
      show c'.res.repStr = _ ↔ _
      rw [hrep]
      cases Handling.set env reply ⟨d, type, payload⟩ with
      | none => simp
      | some b => simp
    | false =>
      rw [hfin] at hcareful
      rw [if_pos hfin, if_pos hfin, writes_cons] at hx
      · rcases List.mem_cons.mp hx with rfl | hx
        · rw [hcareful, Handling.RepliedWith]
          exact eq_comm
        · exact ih c' next x hx
      · intro hnone
        rw [wsLoop_no_frames env data stop fuel c' next hnone]
        rfl

end Connection

/-! ## Runs -/

namespace Server

variable {env : Env} {reply : DataProcState → Request → Response → Option Bytes}

/-- The frames that are handled after a read. -/
def handled (env : Env) (c : Connection) (arrival : Bytes) : List Handling :=
  match step env c arrival with
  | .processed _ _ =>
    let c := { c with req := receive c.req arrival }
    if c.req.atCapacity = false ∧ c.continueWork = some .handleWsData then
      Connection.wsFrames env c.req.buf c.req.curSize (c.req.curSize + 1) c 0
    else []
  | _ => []

/-- The frames that are handled in a run, each with the bytes written after it and before the next one. -/
def conversation (env : Env) (c : Connection) : List Bytes → List (Handling × Bytes)
  | [] => []
  | a :: as =>
    writes (step env c a).response (handled env c a) ++
      match step env c a with
      | .processed c' answer => if continues answer then conversation env c' as else []
      | _ => []

/-- Every frame of a run is replied to with the response set while it was processed. -/
def RepliedOnce (env : Env) (reply : DataProcState → Request → Response → Option Bytes) (c : Connection)
    (arrivals : List Bytes) : Prop :=
  ∀ x ∈ conversation env c arrivals, x.1.RepliedWith env reply x.2

/-- One read. -/
theorem step_writes (hreply : env.Replies reply) (c : Connection) (a : Bytes) :
    ∀ x ∈ writes (step env c a).response (handled env c a), x.1.RepliedWith env reply x.2 ↔ x.1.Careful env reply := by
  intro x hx
  unfold handled at hx
  cases hs : step env c a with
  | recvError | ended =>
    rw [hs] at hx
    cases hx
  | processed c' answer =>
    rw [hs] at hx
    dsimp only at hx
    split_ifs at hx with hws
    · obtain ⟨-, -, -, hproc⟩ := step_processed hs
      have hdata := @Connection.process_handleWsData env { c with req := receive c.req a } hws.1 hws.2
      rw [hproc, Connection.handleWsData] at hdata
      have hw := Connection.wsLoop_writes hreply (receive c.req a).buf (receive c.req a).curSize ((receive c.req a).curSize + 1)
        { c with req := receive c.req a } 0 x
      rw [← hdata] at hw
      exact hw hx
    · cases hx

/-- In a run over any reads, every frame is replied to with the response set while it was processed, and with nothing if none
was set, exactly if every frame is handled with care: the ones with FIN have a response set, unless the response string is
still empty, and the ones without FIN do not. -/
theorem repliedOnce_iff (hreply : env.Replies reply) (c : Connection) (arrivals : List Bytes) :
    RepliedOnce env reply c arrivals ↔ ∀ x ∈ conversation env c arrivals, x.1.Careful env reply := by
  have hrun : ∀ arrivals c, ∀ x ∈ conversation env c arrivals, x.1.RepliedWith env reply x.2 ↔ x.1.Careful env reply := by
    intro arrivals
    induction arrivals with
    | nil =>
      intro c x hx
      cases hx
    | cons a as ih =>
      intro c x hx
      rw [conversation] at hx
      rcases List.mem_append.mp hx with hx | hx
      · exact step_writes hreply c a x hx
      · cases hs : step env c a with
        | recvError | ended =>
          rw [hs] at hx
          cases hx
        | processed c' answer =>
          rw [hs] at hx
          dsimp only at hx
          split_ifs at hx with hc
          · exact ih c' x hx
          · cases hx
  exact forall₂_congr (hrun arrivals c)

/-- The text frame that an echo answers with. -/
def echo (_ : DataProcState) (req : Request) (_ : Response) : Option Bytes :=
  some (formatHeader req.partData.length Opcode.text ++ req.partData)

/-- An application that sends every message back. -/
def echoing : Env := { accepting with
  event := fun state => if state = .dataContinue then
    some fun req res => (req, res.setResponse (formatHeader req.partData.length Opcode.text ++ req.partData)) else none }

theorem replies_echoing : echoing.Replies echo := by
  intro state f hf req res
  simp only [echoing] at hf
  split_ifs at hf
  cases hf
  rfl

/-- A message, a ping and the message again, in reads of their own. -/
theorem repliedOnce_echoing : RepliedOnce echoing echo handshaken [hiFrame.wire, pingFrame.wire, hiFrame.wire] :=
  (repliedOnce_iff replies_echoing handshaken _).mpr (by
    simp only [Handling.Careful]
    decide +kernel)

/-- An application that accepts WebSockets at `/ws`, without callbacks, whose handler there leaves the response alone. -/
def silent : Env := { accepting with handler := fun _ req res => (req, res) }

/-- A connection to it after the handshake. -/
def greeted : Connection :=
  (Connection.process silent (received .none (bytes "GET /ws HTTP/1.1\r\nConnection: Upgrade\r\nUpgrade: websocket\r\n" ++
    bytes "Sec-WebSocket-Key: dGhlIHNhbXBsZSBub25jZQ==\r\n\r\n"))).1

/-- After a text frame, the response that was written in the handshake is sent once more. -/
theorem not_repliedOnce : silent.Replies (fun _ _ _ => none) ∧ greeted.continueWork = some .handleWsData ∧
    greeted.trace.contains (.write greeted.res.repStr) = true ∧
    (conversation silent greeted [hiFrame.wire]).map Prod.snd = [greeted.res.repStr] ∧
    ¬RepliedOnce silent (fun _ _ _ => none) greeted [hiFrame.wire] := by
  refine ⟨?_, by decide +kernel, by decide +kernel, by decide +kernel, ?_⟩
  · intro state f hf
    cases hf
  · unfold RepliedOnce Handling.RepliedWith
    decide +kernel

end Server

end Netcore
